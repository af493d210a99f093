import MiniPascal.Proofs.Machine.Log
import MiniPascal.Proofs.Machine.Points

/-!
The calls that a run comes to, listed in the order in which it comes to them. A call is listed
before its arguments are evaluated, so the last one may be the one that fails. The list has the
calls that come next at some point of the run, and no others; and each finds a frame for every
active procedure.
-/

namespace MiniPascal

/-- A call that a run has come to, and the machine as the call finds it. -/
structure Arrival where
  call : Call
  machine : Machine

/-- How many procedures are active. -/
def CallStack.depth (stack : CallStack) : Nat :=
  stack.frames.toList.countP (·.kind = .procedure)

/-- The bottom frame is that of the program, and all others are frames of procedures. -/
theorem StaticChain.size_eq_depth {program : Program} {paths : List (List Nat)}
    {stack : CallStack} (h : StaticChain program paths stack) (hne : paths ≠ []) :
    stack.size = stack.depth + 1 := by
  have hkind {i : Nat} {f : Frame} (hf : stack.frames.toList[i]? = some f) :
      f.kind = .program ∧ i = 0 ∨ f.kind = .procedure ∧ 0 < i := by
    have hget : stack.get? i = some f := Array.getElem?_toList.symm.trans hf
    have hlt : i < paths.length := h.size ▸ CallStack.lt_size_of_get? hget
    obtain ⟨path, hpath⟩ : ∃ path, paths[i]? = some path := ⟨_, List.getElem?_eq_getElem hlt⟩
    cases h.runs hget hpath with
    | program hzero hkind => exact .inl ⟨hkind, hzero⟩
    | procedure hpos _ _ hkind => exact .inr ⟨hkind, hpos⟩
  have hsize : stack.frames.toList.length = paths.length := h.size
  cases hframes : stack.frames.toList with
  | nil =>
      rw [hframes] at hsize
      exact absurd (List.length_eq_zero_iff.mp hsize.symm) hne
  | cons f rest =>
      rw [hframes] at hkind
      have hrest : rest.countP (·.kind = .procedure) = rest.length := by
        apply List.countP_eq_length.mpr
        intro g hg
        obtain ⟨i, hi⟩ := List.mem_iff_getElem?.mp hg
        rcases hkind (i := i + 1) hi with ⟨-, hzero⟩ | ⟨hg, -⟩
        · cases hzero
        · exact decide_eq_true hg
      rcases hkind (i := 0) rfl with ⟨hf, -⟩ | ⟨-, hpos⟩
      · rw [CallStack.depth, CallStack.size, ← Array.length_toList, hframes,
          List.countP_cons_of_neg (by rw [hf]; decide), hrest]
        rfl
      · cases hpos

namespace Analysis

/-- What is listed when a statement comes next. -/
def arrival : Statement → Machine → List Arrival
  | .call c, m => [⟨c, m⟩]
  | _, _ => []

/-- The calls that a program comes to. -/
def programArrivals (a : Analysis) (limit : Nat) (program : Program) (m : Machine) :
    List Arrival :=
  a.programLog arrival limit program m

variable {a : Analysis} {limit : Nat} {program : Program} {m₀ : Machine}

/-- The calls that are listed are those that come next at some point of the run. -/
theorem mem_programArrivals_iff {v : Arrival} :
    v ∈ a.programArrivals limit program m₀ ↔ ∃ blocks room rest,
      a.Reaches limit program m₀ ⟨blocks, room, .call v.call :: rest, v.machine⟩ := by
  rw [programArrivals, mem_programLog_iff]
  constructor
  · rintro ⟨blocks, room, s, rest, m, h, hv⟩
    cases s with
    | call c =>
        obtain rfl := List.mem_singleton.mp hv
        exact ⟨blocks, room, rest, h⟩
    | _ => cases hv
  · rintro ⟨blocks, room, rest, h⟩
    exact ⟨blocks, room, _, rest, _, h, List.mem_singleton_self v⟩

/-- Every call that a program comes to has the procedure of its name, and finds a frame for
each active procedure on the stack, above that of the program. -/
theorem arrival_sound (hres : a.Resolves program) (hm₀ : m₀.stack = {}) {v : Arrival}
    (hv : v ∈ a.programArrivals limit program m₀) :
    (∃ p, a.callee v.call = .ok p ∧ p.name = v.call.name) ∧
      v.machine.stack.size = v.machine.stack.depth + 1 := by
  obtain ⟨blocks, room, rest, hreaches⟩ := mem_programArrivals_iff.mp hv
  obtain ⟨paths, path, s, hstands, -, htodo⟩ := hreaches.sound hres hm₀
  have hc : .call v.call ∈ Statement.usesAll s.block.body :=
    htodo (List.mem_append_left _ (List.mem_append_right _ (List.mem_singleton.mpr rfl)))
  obtain ⟨declaring, p, i, -, -, hname, hcallee, -, -⟩ := hstands.call hc
  refine ⟨⟨_, hcallee, View.name_of_resolve? hname⟩, hstands.chain.size_eq_depth ?_⟩
  rintro rfl
  cases hstands.top

end Analysis

end MiniPascal

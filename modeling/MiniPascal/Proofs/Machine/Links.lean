import MiniPascal.Proofs.Machine.Shape

/-!
Linked stacks. Nothing is asked of the analysis here: it may belong to another program, so that
a call runs any procedure of any level. Still a call links its frame to one that it has found
at the level of the procedure, and fails if there is none. So in all states of all runs every
link leads downwards by one level, and a search along the links ends in the frame of the level,
or outside the levels that the top frame has around it.
-/

namespace MiniPascal

namespace CallStack

/-- A link leads to a frame further down whose level is one less. Only the frame of a program,
whose level is one, has no link. -/
structure Linked (s : CallStack) : Prop where
  link {i j : Nat} {f : Frame} : s.get? i = some f → f.link = some j →
    j < i ∧ ∃ g, s.get? j = some g ∧ f.level = g.level + 1
  unlinked {i : Nat} {f : Frame} : s.get? i = some f → f.link = none →
    f.kind = .program ∧ f.level = 1

/-- What a search for a level can answer, where `top` is the level of the frame that it starts
from. -/
def Answers (s : CallStack) (level top : Nat) : LevelSearch → Prop
  | .found i => 1 ≤ level ∧ level ≤ top ∧ ∃ g, s.get? i = some g ∧ g.level = level
  | .absent => level < 1 ∨ top < level
  | .broken => False

variable {s t : CallStack} {f : Frame} {i n : Nat}

/-- Links lead downwards, so the place of a frame bounds how many can be followed from it. -/
theorem Linked.searchUpTo (h : s.Linked) (hf : s.get? i = some f) (hi : i < n) (level : Nat) :
    s.Answers level f.level (s.searchUpTo level n i) := by
  induction n generalizing i f with
  | zero => omega
  | succ n ih =>
      rw [CallStack.searchUpTo, hf]
      dsimp only
      split
      next heq =>
        cases hlink : f.link with
        | none =>
            have hone := (h.unlinked hf hlink).2
            exact ⟨by omega, by omega, f, hf, heq⟩
        | some j =>
            obtain ⟨-, g, -, hlevel⟩ := h.link hf hlink
            exact ⟨by omega, by omega, f, hf, heq⟩
      next hne =>
        split
        next hlt => exact .inr hlt
        next hge =>
          split
          next hlink =>
            have hone := (h.unlinked hf hlink).2
            exact .inl (by omega)
          next j hlink =>
            obtain ⟨hj, g, hg, hlevel⟩ := h.link hf hlink
            have hanswer := ih hg (by omega)
            revert hanswer
            cases s.searchUpTo level n j with
            | found k =>
                rintro ⟨hone, hle, hk⟩
                exact ⟨hone, by omega, hk⟩
            | absent => exact fun habsent => habsent.imp_right fun hlt => by omega
            | broken => exact id

theorem Linked.findLevel (h : s.Linked) (htop : s.top? = some f) (level : Nat) :
    s.Answers level f.level (s.findLevel level) := by
  have hf := get?_of_top? htop
  have hlt := lt_size_of_get? hf
  rw [CallStack.findLevel, if_neg (by omega)]
  exact h.searchUpTo hf hlt level

theorem findLevel_of_size_eq_zero (h : s.size = 0) (level : Nat) :
    s.findLevel level = .absent := by
  rw [CallStack.findLevel, if_pos h]

/-- A found frame is alive, and of the level. -/
theorem Linked.exists_of_findLevel {level : Nat} (h : s.Linked)
    (hi : s.findLevel level = .found i) :
    ∃ g, s.get? i = some g ∧ g.level = level := by
  cases htop : s.top? with
  | none =>
      have hzero : s.size = 0 := by simpa [top?, size] using htop
      rw [findLevel_of_size_eq_zero hzero] at hi
      cases hi
  | some f =>
      have hanswer := h.findLevel htop level
      rw [hi] at hanswer
      exact hanswer.2.2

/-! ### What changes a stack -/

theorem Linked.empty (h : s.size = 0) : s.Linked := by
  have hnone : ∀ i f, s.get? i ≠ some f := by
    intro i f hf
    have hlt := lt_size_of_get? hf
    omega
  exact ⟨fun hf _ => absurd hf (hnone _ _), fun hf _ => absurd hf (hnone _ _)⟩

/-- Members do not matter. -/
theorem Linked.congr (h : s.Linked) (hshape : s.shape = t.shape) : t.Linked := by
  constructor
  case link =>
    intro i j f hf hlink
    obtain ⟨f', hf', hbare⟩ := exists_of_shape hshape.symm hf
    obtain ⟨-, -, hflevel, hflink⟩ := Frame.eq_of_bare hbare
    obtain ⟨hj, g, hg, hlevel⟩ := h.link hf' (hflink.trans hlink)
    obtain ⟨g', hg', hbare'⟩ := exists_of_shape hshape hg
    obtain ⟨-, -, hglevel, -⟩ := Frame.eq_of_bare hbare'
    exact ⟨hj, g', hg', by omega⟩
  case unlinked =>
    intro i f hf hlink
    obtain ⟨f', hf', hbare⟩ := exists_of_shape hshape.symm hf
    obtain ⟨-, hfkind, hflevel, hflink⟩ := Frame.eq_of_bare hbare
    obtain ⟨hkind, hlevel⟩ := h.unlinked hf' (hflink.trans hlink)
    exact ⟨hfkind.symm.trans hkind, hflevel.symm.trans hlevel⟩

/-- A frame may be pushed that is linked to a live frame one level below its own, or that is
the frame of a program. -/
theorem Linked.push (h : s.Linked)
    (hlink : ∀ j, f.link = some j → ∃ g, s.get? j = some g ∧ f.level = g.level + 1)
    (hunlinked : f.link = none → f.kind = .program ∧ f.level = 1) : (s.push f).Linked := by
  constructor
  case link =>
    intro i j g hg hj
    rcases get?_push_eq_some hg with hg | ⟨rfl, rfl⟩
    · obtain ⟨hlt, g', hg', hlevel⟩ := h.link hg hj
      exact ⟨hlt, g', (get?_push_of_lt (lt_size_of_get? hg') f).trans hg', hlevel⟩
    · obtain ⟨g', hg', hlevel⟩ := hlink j hj
      have hlt := lt_size_of_get? hg'
      exact ⟨hlt, g', (get?_push_of_lt hlt g).trans hg', hlevel⟩
  case unlinked =>
    intro i g hg hnone
    rcases get?_push_eq_some hg with hg | ⟨rfl, rfl⟩
    · exact h.unlinked hg hnone
    · exact hunlinked hnone

end CallStack

/-! ### All states of all runs -/

/-- Machines between calls from outside: new ones, and those that a program or a statement has
been run on, whether it ended well or failed. -/
inductive Analysis.Rests (a : Analysis) (limit : Nat) : Machine → Prop
  | new (output : Output) (journal : Journal) : a.Rests limit { output, journal }
  | interpreted {m : Machine} (program : Program) :
      a.Rests limit m → a.Rests limit (Ending.machine (a.interpret limit program m))
  | executed {m : Machine} (s : Statement) :
      a.Rests limit m → a.Rests limit (Ending.machine (a.execStatement limit s m))

/-- The machines that are reached in all this, each with what is left to do in its top
frame. -/
inductive Analysis.Visits (a : Analysis) (limit : Nat) : List Statement → Machine → Prop
  | rest {m : Machine} : a.Rests limit m → a.Visits limit [] m
  | program {m : Machine} (program : Program) :
      a.Rests limit m → a.Visits limit program.block.body (m.started program)
  | statement {m : Machine} (s : Statement) : a.Rests limit m → a.Visits limit [s] m
  | next {s : Statement} {rest : List Statement} {m m' : Machine} :
      a.Visits limit (s :: rest) m → a.execStatement limit s m = .ok () m' →
      a.Visits limit rest m'
  | failed {s : Statement} {rest : List Statement} {m m' : Machine} {e : RuntimeError} :
      a.Visits limit (s :: rest) m → a.execStatement limit s m = .error e m' →
      a.Visits limit [] m'
  | inside {body rest : List Statement} {m : Machine} :
      a.Visits limit (.compound body :: rest) m → a.Visits limit (body ++ rest) m
  | enter {c : Call} {rest : List Statement} {m : Machine} {p : ProcedureSymbol}
      {frame : Frame} :
      a.Visits limit (.call c :: rest) m → a.callee c = .ok p → m.stack.size ≤ limit →
      a.calleeFrame p c m.stack = .ok frame → a.Visits limit p.block.body (m.entered p frame)

namespace Analysis

variable {a : Analysis} {limit : Nat} {m : Machine}

theorem Rests.shape_eq_nil (h : a.Rests limit m) : m.stack.shape = [] := by
  induction h with
  | new output journal => rfl
  | interpreted program _ ih => exact (a.interpret_keepsShape limit program _).trans ih
  | executed s _ ih => exact (a.execStatement_keepsShape limit s _).trans ih

theorem Rests.size_eq_zero (h : a.Rests limit m) : m.stack.size = 0 := by
  rw [← CallStack.length_shape, h.shape_eq_nil, List.length_nil]

/-- A call links its frame to one that the search for the level of the procedure has found. -/
theorem linked_entered {c : Call} {p : ProcedureSymbol} {frame : Frame} (h : m.stack.Linked)
    (hframe : a.calleeFrame p c m.stack = .ok frame) : (m.entered p frame).stack.Linked := by
  obtain ⟨-, -, hlevel, i, hi, hlink⟩ := calleeFrame_eq_ok hframe
  obtain ⟨g, hg, hglevel⟩ := h.exists_of_findLevel (CallStack.found_of_frameIndex hi)
  apply h.push
  · intro j hj
    obtain rfl : i = j := Option.some.inj (hlink.symm.trans hj)
    exact ⟨g, hg, by omega⟩
  · intro hnone
    rw [hlink] at hnone
    cases hnone

theorem size_entered (m : Machine) (p : ProcedureSymbol) (frame : Frame) :
    (m.entered p frame).stack.size = m.stack.size + 1 := by
  simp

theorem size_started (m : Machine) (program : Program) :
    (m.started program).stack.size = m.stack.size + 1 := by
  simp

/-- One statement keeps the stack linked and of its size, and so does its failure. -/
theorem execStatement_linked {s : Statement} {r : Ending Unit}
    (h : a.execStatement limit s m = r) (hlinked : m.stack.Linked) :
    (Ending.machine r).stack.Linked ∧ (Ending.machine r).stack.size = m.stack.size := by
  have hshape := a.execStatement_keepsShape limit s m
  rw [h] at hshape
  exact ⟨hlinked.congr hshape.symm, CallStack.size_eq_of_shape hshape⟩

theorem Visits.linked {todo : List Statement} (h : a.Visits limit todo m) :
    m.stack.Linked ∧ m.stack.size ≤ limit + 1 := by
  induction h with
  | rest hm =>
      have hzero := hm.size_eq_zero
      exact ⟨.empty hzero, by omega⟩
  | @program m program hm =>
      have hzero := hm.size_eq_zero
      refine ⟨?_, by rw [size_started]; omega⟩
      apply (CallStack.Linked.empty hzero).push
      · intro j hj
        cases hj
      · exact fun _ => ⟨rfl, rfl⟩
  | statement s hm =>
      have hzero := hm.size_eq_zero
      exact ⟨.empty hzero, by omega⟩
  | next _ hrun ih | failed _ hrun ih =>
      obtain ⟨hlinked, hsize⟩ := execStatement_linked hrun ih.1
      exact ⟨hlinked, hsize ▸ ih.2⟩
  | inside _ ih => exact ih
  | enter _ _ hroom hframe ih =>
      refine ⟨linked_entered ih.1 hframe, ?_⟩
      rw [size_entered]
      omega

end Analysis

end MiniPascal

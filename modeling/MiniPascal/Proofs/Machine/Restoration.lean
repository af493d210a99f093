import MiniPascal.Proofs.Analysis.Resolution
import MiniPascal.Proofs.Machine.Discipline
import MiniPascal.Proofs.Machine.Lockstep
import MiniPascal.Proofs.Machine.Totality

/-!
What a run leaves behind. A statement gives back the frames that it found, and one that fails
before it has any effect has none. A program runs in a frame of level one, which has no link;
so nothing that it calls can reach a frame below its own, and when its frame is taken off, the
stack is as it was. A second run of the program then differs from the first in nothing but the
room that is left for its output.
-/

namespace MiniPascal

namespace CallStack

/-- The same frames in the same order. Only their members may differ. -/
def SameFrames (s t : CallStack) : Prop :=
  t.size = s.size ∧ ∀ i f, s.get? i = some f → ∃ g, t.get? i = some g ∧
    g.name = f.name ∧ g.kind = f.kind ∧ g.level = f.level ∧ g.link = f.link

theorem sameFrames_of_shape {s t : CallStack} (h : t.shape = s.shape) : s.SameFrames t := by
  refine ⟨size_eq_of_shape h, fun i f hf => ?_⟩
  obtain ⟨g, hg, hbare⟩ := exists_of_shape h.symm hf
  exact ⟨g, hg, Frame.eq_of_bare hbare⟩

/-! ### Frames below a program -/

/-- The stack has `n` frames more than `base`, and no link leads from them into `base`. -/
structure Above (base : CallStack) (n : Nat) (s : CallStack) : Prop where
  size : s.size = base.size + n
  below {i : Nat} : i < base.size → s.get? i = base.get? i
  link {i j : Nat} {f : Frame} :
    base.size ≤ i → s.get? i = some f → f.link = some j → base.size ≤ j

variable {base s : CallStack} {n i : Nat} {f : Frame}

theorem Above.searchUpTo (h : base.Above n s) (hi : base.size ≤ i) {level m k : Nat}
    (hk : s.searchUpTo level m i = .found k) : base.size ≤ k := by
  induction m generalizing i with
  | zero => cases hk
  | succ m ih =>
      rw [CallStack.searchUpTo] at hk
      split at hk
      next => cases hk
      next f hf =>
        split at hk
        next =>
          cases hk
          exact hi
        next =>
          split at hk
          next => cases hk
          next =>
            split at hk
            next => cases hk
            next j hj => exact ih (h.link hi hf hj) hk

/-- From the top, which is above `base`, a search stays above it. -/
theorem Above.findLevel (h : base.Above n s) (hn : 0 < n) {level : Nat}
    (hi : s.findLevel level = .found i) : base.size ≤ i := by
  have hsize := h.size
  rw [CallStack.findLevel, if_neg (by omega)] at hi
  exact h.searchUpTo (by omega) hi

theorem Above.assign (h : base.Above n s) (hi : base.size ≤ i) (name : String) (v : Value) :
    base.Above n (s.assign i name v) where
  size := (size_eq_of_shape (shape_assign s i name v)).trans h.size
  below {k} hk := by
    have hne : i ≠ k := by omega
    rw [get?, CallStack.assign, Array.getElem?_modify, if_neg hne]
    exact h.below hk
  link {k j g} hk hg hj := by
    obtain ⟨f, hf, rfl⟩ := exists_of_get?_assign hg
    refine h.link hk hf ?_
    split at hj <;> exact hj

theorem Above.push (h : base.Above n s) (hlink : ∀ j, f.link = some j → base.size ≤ j) :
    base.Above (n + 1) (s.push f) where
  size := by
    rw [size_push, h.size, Nat.add_assoc]
  below {k} hk := by
    have hsize := h.size
    rw [get?_push_of_lt (by omega)]
    exact h.below hk
  link {k j g} hk hg hj := by
    rcases get?_push_eq_some hg with hg | ⟨-, rfl⟩
    · exact h.link hk hg hj
    · exact hlink j hj

theorem Above.pop (h : base.Above (n + 1) s) : base.Above n s.pop where
  size := by
    rw [size_pop, h.size]
    rfl
  below {k} hk := by
    have hsize := h.size
    rw [get?_pop_of_lt (by omega)]
    exact h.below hk
  link {k j g} hk hg hj := h.link hk (get?_of_get?_pop hg) hj

theorem Above.refl (base : CallStack) : base.Above 0 base where
  size := rfl
  below _ := rfl
  link {i _ f} hi hf _ := by
    have hlt := lt_size_of_get? hf
    omega

theorem Above.eq (h : base.Above 0 s) : s = base := by
  obtain ⟨frames⟩ := s
  obtain ⟨frames'⟩ := base
  have hframes : frames = frames' := by
    apply Array.ext_getElem?
    intro i
    rcases Nat.lt_or_ge i frames'.size with hi | hi
    · exact h.below hi
    · have hsize : frames.size = frames'.size := h.size
      rw [Array.getElem?_eq_none (by omega), Array.getElem?_eq_none hi]
  rw [hframes]

end CallStack

namespace Analysis

/-- A scope is told by the blocks that run above `base`. -/
def floor (a : Analysis) (base : CallStack) : Discipline a where
  Scope := List Block
  blocks := id
  Allows _ _ := True
  Holds blocks stack := blocks ≠ [] ∧ base.Above blocks.length stack
  Tolerates _ := True
  compound _ _ := trivial
  assign {blocks target value} _ := by
    refine assign_obeys ?_ fun _ _ => trivial
    rintro stack v index w ⟨hne, habove⟩ - hdestination
    obtain ⟨b, -, hdestination⟩ := exists_of_bind_eq_ok hdestination
    obtain ⟨w', -, hdestination⟩ := exists_of_bind_eq_ok hdestination
    obtain ⟨i, hi, hdestination⟩ := exists_of_bind_eq_ok hdestination
    cases hdestination
    have hfound :=
      habove.findLevel (List.length_pos_iff.mpr hne) (CallStack.found_of_frameIndex hi)
    exact ⟨hne, habove.assign hfound target.name w⟩
  write _ := write_obeys trivial fun _ _ => trivial
  callee _ _ := trivial
  depth _ _ _ := trivial
  frame _ _ _ _ := trivial
  enter {blocks c p stack frame} _ habove _ hframe := by
    obtain ⟨hne, habove⟩ := habove
    obtain ⟨-, -, -, i, hi, hlink⟩ := calleeFrame_eq_ok hframe
    have hfound :=
      habove.findLevel (List.length_pos_iff.mpr hne) (CallStack.found_of_frameIndex hi)
    refine ⟨blocks ++ [p.block], rfl, fun _ _ => trivial, ⟨by simp, ?_⟩, ?_⟩
    · rw [List.length_append, List.length_singleton]
      apply habove.push
      intro j hj
      obtain rfl : i = j := Option.some.inj (hlink.symm.trans hj)
      exact hfound
    · rintro stack' ⟨-, habove'⟩
      rw [List.length_append, List.length_singleton] at habove'
      exact ⟨hne, habove'.pop⟩

theorem floor_start (a : Analysis) (limit : Nat) (program : Program) (m : Machine) :
    (a.floor m.stack).HoldsAt (Discipline.startPoint limit program m) [program.block] := by
  refine ⟨rfl, ⟨by simp, ?_⟩, fun _ _ => trivial⟩
  apply (CallStack.Above.refl m.stack).push
  intro j hj
  cases hj

/-- A program leaves the stack as it was, with all members of all frames. -/
@[simp]
theorem interpret_stack (a : Analysis) (limit : Nat) (program : Program) (m : Machine) :
    (Ending.machine (a.interpret limit program m)).stack = m.stack := by
  have hstart := a.floor_start limit program m
  have hbody := (a.floor m.stack).body_obeys hstart (limit - m.stack.size)
  rw [interpret_eq]
  cases hrun : a.execAll (a.call limit (limit - m.stack.size)) program.block.body
      (m.started program) with
  | error e m' => exact (hbody.error hstart.2.1 hrun).1.2.pop.eq
  | ok u m' => exact (hbody.ok hstart.2.1 hrun).2.pop.eq

end Analysis

/-! ### Room for output -/

namespace Output

/-- The output `o` may have less room than `o₀`, and is limited only if `o₀` is. -/
structure Narrows (o₀ o : Output) : Prop where
  unlimited : o₀.room = none → o.room = none
  limited {k : Nat} : o₀.room = some k → ∃ k' ≤ k, o.room = some k'

theorem narrows_refl (o : Output) : o.Narrows o := ⟨id, fun {k} hk => ⟨k, Nat.le_refl k, hk⟩⟩

theorem Narrows.write {o₀ o : Output} (h : o₀.Narrows o) (text : String) :
    o₀.Narrows (o.write text).2 := by
  constructor
  · intro hnone
    rw [Output.write, h.unlimited hnone]
  · intro k hk
    obtain ⟨k', hle, hroom⟩ := h.limited hk
    rw [Output.write, hroom]
    dsimp only
    split
    · exact ⟨k' - text.toUTF8.size, by omega, rfl⟩
    · exact ⟨0, Nat.zero_le k, rfl⟩

end Output

/-- What every write keeps of the output. -/
theorem lockstep_output {P : Output → Prop} (hP : ∀ o text, P o → P (o.write text).2) :
    Lockstep (fun m m' => m.stack = m'.stack ∧ m.output = m'.output ∧ P m.output)
      fun _ o => P o where
  stack h := h.1
  restack s h := ⟨rfl, h.2⟩
  trace _ h := h
  dumpStack _ _ h := h
  lasting _ _ _ h _ := h
  write {m m'} text h := by
    obtain ⟨hstack, houtput, hm⟩ := h
    have hwritten := hP m.output text hm
    rw [Action.write, Action.write, ← houtput]
    split
    next output hwrite =>
      rw [hwrite] at hwritten
      exact .ok () ⟨hstack, rfl, hwritten⟩
    next output hwrite =>
      rw [hwrite] at hwritten
      exact .full hwritten

theorem Analysis.interpret_output {P : Output → Prop} (hP : ∀ o text, P o → P (o.write text).2)
    (a : Analysis) (limit : Nat) (program : Program) {m : Machine} (hm : P m.output) :
    P (Ending.machine (a.interpret limit program m)).output := by
  have hkept := (a.interpret_keeps (lockstep_output hP) limit program).alike ⟨rfl, rfl, hm⟩
  generalize a.interpret limit program m = r at hkept
  cases hkept with
  | ok frame h => exact h.2.2
  | error e h => exact h.2.2
  | full h => exact h

/-! ### Running again -/

/-- The second of two runs has written the same as the first since they started from `o'` and
`o`, and has no more room left than the first. -/
structure Repeats (o o' : Output) (m m' : Machine) : Prop where
  stack : m.stack = m'.stack
  room : m.output.Narrows m'.output
  written : ∃ out, m.output.written = o.written ++ out ∧ m'.output.written = o'.written ++ out

theorem lockstep_repeats (o o' : Output) :
    Lockstep (Repeats o o') fun _ output => output.room ≠ none where
  stack h := h.stack
  restack s h := ⟨rfl, h.room, h.written⟩
  trace _ h := ⟨h.stack, h.room, h.written⟩
  dumpStack _ _ h := ⟨h.stack, h.room, h.written⟩
  lasting _ _ _ h _ := h
  write {m m'} text h := by
    obtain ⟨out, hout, hout'⟩ := h.written
    have happend : ∃ out₁, m.output.written ++ text.toUTF8 = o.written ++ out₁ ∧
        m'.output.written ++ text.toUTF8 = o'.written ++ out₁ :=
      ⟨out ++ text.toUTF8, by rw [hout, ByteArray.append_assoc],
        by rw [hout', ByteArray.append_assoc]⟩
    rw [Action.write, Action.write, Output.write, Output.write]
    cases hroom : m.output.room with
    | none =>
        rw [h.room.unlimited hroom]
        exact .ok () ⟨h.stack, ⟨id, fun hk => by cases hk⟩, happend⟩
    | some k =>
        obtain ⟨k', hle, hroom'⟩ := h.room.limited hroom
        rw [hroom']
        dsimp only
        by_cases hfits : text.toUTF8.size ≤ k'
        · rw [if_pos (Nat.le_trans hfits hle), if_pos hfits]
          refine .ok () ⟨h.stack, ⟨fun hnone => (by cases hnone), fun {r} hr => ?_⟩, happend⟩
          obtain rfl : k - text.toUTF8.size = r := Option.some.inj hr
          exact ⟨k' - text.toUTF8.size, by omega, rfl⟩
        · rw [if_neg hfits]
          exact .full (Option.some_ne_none 0)

theorem Analysis.interpret_again (a : Analysis) (limit : Nat) (program : Program)
    (m : Machine) :
    Ending.Alike (Repeats m.output (Ending.machine (a.interpret limit program m)).output)
      (fun _ output => output.room ≠ none) (a.interpret limit program m)
      (a.interpret limit program (Ending.machine (a.interpret limit program m))) := by
  apply (a.interpret_keeps (lockstep_repeats _ _) limit program).alike
  exact ⟨(a.interpret_stack limit program m).symm,
    a.interpret_output (fun o text h => h.write text) limit program m.output.narrows_refl,
    .empty, ByteArray.append_empty.symm, ByteArray.append_empty.symm⟩

/-! ### Statements that fail before they do anything -/

namespace Analysis

/-- The call gets as far as the body of its procedure. -/
def Starts (a : Analysis) (limit : Nat) (c : Call) (s : CallStack) : Prop :=
  ∃ p frame, a.callee c = .ok p ∧ s.size ≤ limit ∧ a.calleeFrame p c s = .ok frame

variable {a : Analysis} {limit : Nat} {m m' : Machine} {e : RuntimeError}

theorem execStatement_of_not_starts {c : Call} (h : ¬ a.Starts limit c m.stack) :
    ∃ e, a.execStatement limit (.call c) m = .error e m := by
  rw [execStatement_call]
  cases hp : a.callee c with
  | error e => exact ⟨e, rfl⟩
  | ok p =>
      dsimp only
      split
      next => exact ⟨_, rfl⟩
      next hsize =>
        cases hframe : a.calleeFrame p c m.stack with
        | error e => exact ⟨e, rfl⟩
        | ok frame => exact absurd ⟨p, frame, hp, Nat.not_lt.mp hsize, hframe⟩ h

theorem stack_of_assign_eq_error {target : Variable} {value : Expr}
    (h : a.execStatement limit (.assign target value) m = .error e m') :
    m'.stack = m.stack := by
  rw [execStatement, exec, assign_eq] at h
  split at h
  · cases h
    rfl
  · split at h
    · cases h
      rfl
    · cases h

theorem evalAll_of_mem {s : CallStack} {args : List Expr} {arg : Expr} (harg : arg ∈ args)
    (h : ∀ v, a.eval s arg ≠ .ok v) : ∃ e, a.evalAll s args = .error e := by
  induction args with
  | nil => cases harg
  | cons first args ih =>
      rw [evalAll]
      cases hfirst : a.eval s first with
      | error e => exact ⟨e, rfl⟩
      | ok v =>
          rcases List.mem_cons.mp harg with rfl | harg
          · exact absurd hfirst (h v)
          · obtain ⟨e, he⟩ := ih harg
            exact ⟨e, by rw [he]; rfl⟩

theorem execStatement_write_of_mem {newline : Bool} {args : List Expr} {position : Position}
    {arg : Expr} (harg : arg ∈ args) (h : ∀ v, a.eval m.stack arg ≠ .ok v) :
    ∃ e, a.execStatement limit (.write newline args position) m = .error e m := by
  obtain ⟨e, he⟩ := evalAll_of_mem harg h
  refine ⟨e, ?_⟩
  rw [execStatement, exec, write_eq, he]

end Analysis

/-- **Frames are restored on every path.** For any analysis, limit and machine, whatever is on
its stack: after a statement, however it ended, the stack has the same frames, of which only
members may differ. An assignment that fails changes no member; a call that does not get as far
as the body of its procedure fails and changes nothing, and neither does writing of which some
argument has no value. After a program the stack is exactly what it was. Running the program
again either comes to the same result and writes the same once more, or there is a limit to the
output and the second run ends because it is full. -/
theorem frames_are_restored (a : Analysis) (limit : Nat) (m : Machine) :
    (∀ s, m.stack.SameFrames (Ending.machine (a.execStatement limit s m)).stack) ∧
    (∀ target value e m', a.execStatement limit (.assign target value) m = .error e m' →
      m'.stack = m.stack) ∧
    (∀ c, ¬ a.Starts limit c m.stack → ∃ e, a.execStatement limit (.call c) m = .error e m) ∧
    (∀ newline args position, (∃ arg ∈ args, ∀ v, a.eval m.stack arg ≠ .ok v) →
      ∃ e, a.execStatement limit (.write newline args position) m = .error e m) ∧
    ∀ program m₁ m₂, m₁ = Ending.machine (a.interpret limit program m) →
      m₂ = Ending.machine (a.interpret limit program m₁) →
      m₁.stack = m.stack ∧ m₂.stack = m.stack ∧
      ((Ending.result (a.interpret limit program m₁) =
        Ending.result (a.interpret limit program m) ∧
          ∃ out, m₁.output.written = m.output.written ++ out ∧
            m₂.output.written = m₁.output.written ++ out) ∨
        (m.output.room ≠ none ∧
          Ending.result (a.interpret limit program m₁) =
            .error (.output Output.fullMessage))) := by
  refine ⟨fun s => CallStack.sameFrames_of_shape (a.execStatement_keepsShape limit s m),
    fun _ _ _ _ => Analysis.stack_of_assign_eq_error,
    fun _ => Analysis.execStatement_of_not_starts, ?_, ?_⟩
  · rintro newline args position ⟨arg, harg, h⟩
    exact Analysis.execStatement_write_of_mem harg h
  · rintro program m₁ m₂ rfl rfl
    have hstack := a.interpret_stack limit program m
    refine ⟨hstack, (a.interpret_stack limit program _).trans hstack, ?_⟩
    have hagain := a.interpret_again limit program m
    -- An output without a limit stays so in both runs.
    have hnarrows : ∀ o : Output, ∀ text, m.output.Narrows o →
        m.output.Narrows (o.write text).2 :=
      fun o text h => h.write text
    have hroom := a.interpret_output hnarrows limit program
      (a.interpret_output hnarrows limit program m.output.narrows_refl)
    generalize hsecond : a.interpret limit program
      (Ending.machine (a.interpret limit program m)) = r₂
      at hagain hroom ⊢
    generalize hfirst : a.interpret limit program m = r₁ at hagain ⊢
    cases hagain with
    | ok frame h => exact .inl ⟨rfl, h.written⟩
    | error e h => exact .inl ⟨rfl, h.written⟩
    | full hfull => exact .inr ⟨fun hnone => hfull (hroom.unlimited hnone), rfl⟩

/-- A program that writes two bytes, on an output that has room for three. -/
def twoBytesText : String := "PROGRAM P; BEGIN WRITE('AB') END."

def threeBytesLeft : Machine :=
  { output := { room := some 3 }, journal := { traces := [], dumps := [] } }

theorem twoBytesText_fills_output :
    ∃ program a, (parse {} twoBytesText { traces := [], dumps := [] }).1 = .ok program ∧
      (analyze program { traces := [], dumps := [] }).1 = .ok a ∧
      Ending.result (a.interpret 512 program
          (Ending.machine (a.interpret 512 program threeBytesLeft))) ≠
        Ending.result (a.interpret 512 program threeBytesLeft) := by
  obtain ⟨program, a, hparse, hanalyze, htest⟩ :=
    exists_analysis_any {} twoBytesText { traces := [], dumps := [] }
      { traces := [], dumps := [] }
      (fun program a => (Ending.result (a.interpret 512 program threeBytesLeft)).toBool &&
        !(Ending.result (a.interpret 512 program
          (Ending.machine (a.interpret 512 program threeBytesLeft)))).toBool)
      (by decide +kernel)
  refine ⟨program, a, hparse, hanalyze, fun hsame => ?_⟩
  rw [hsame, Bool.and_not_self] at htest
  cases htest

end MiniPascal

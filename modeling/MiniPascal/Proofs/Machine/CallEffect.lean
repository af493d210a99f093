import MiniPascal.Proofs.Machine.Restoration

/-!
What a call can read and change. Its frame is linked to some frame of the stack, and from there
the links lead outwards; all that the body looks up is found on this way or in frames of calls
of its own. So nothing else on the stack changes, and nothing else makes a difference: on two
stacks that agree on the way outwards the call comes to the same result.
-/

namespace MiniPascal

/-- Frames that no search and no look-up can tell apart. -/
structure Frame.Agrees (f g : Frame) : Prop where
  bare : f.bare = g.bare
  member (name : String) : f.get? name = g.get? name

namespace Frame.Agrees

variable {f g : Frame}

theorem refl (f : Frame) : f.Agrees f := ⟨rfl, fun _ => rfl⟩

theorem set (h : f.Agrees g) (name : String) (v : Value) :
    (f.set name v).Agrees (g.set name v) where
  bare := h.bare
  member other := by
    by_cases hname : other = name
    · rw [hname, Frame.get?_set_self, Frame.get?_set_self]
    · rw [Frame.get?_set_of_ne f (Ne.symm hname),
        Frame.get?_set_of_ne g (Ne.symm hname), h.member]

end Frame.Agrees

namespace CallStack

/-- Following links from the frame at `i`, one comes to the frame at the given place. -/
inductive Outward (s : CallStack) (i : Nat) : Nat → Prop
  | here : s.Outward i i
  | link {j k : Nat} {f : Frame} :
      s.Outward i j → s.get? j = some f → f.link = some k → s.Outward i k

/-- On the way outwards frames are further and further down, and so are their levels. -/
theorem Linked.outward {s : CallStack} {i j : Nat} {f g : Frame} (h : s.Linked)
    (hj : s.Outward i j) (hf : s.get? i = some f) (hg : s.get? j = some g) :
    i = j ∨ j < i ∧ g.level < f.level := by
  induction hj generalizing g with
  | here => exact .inl rfl
  | link _ hg' hlink ih =>
      obtain ⟨hlt, g₁, hg₁, hlevel⟩ := h.link hg' hlink
      obtain rfl : g₁ = g := Option.some.inj (hg₁.symm.trans hg)
      rcases ih hg' with rfl | ⟨hlt', hlevel'⟩
      · obtain rfl := Option.some.inj (hf.symm.trans hg')
        exact .inr ⟨hlt, by omega⟩
      · exact .inr ⟨by omega, by omega⟩

/-- The place is one of the given ones, or above the stack `base`. -/
def Open (base : CallStack) (F : Nat → Prop) (j : Nat) : Prop := base.size ≤ j ∨ F j

/-- Two stacks with `n` frames more than `base` and `base'`. They agree in all places that are
open, no link leads from there to any other place, and in all other places they are `base` and
`base'` still. -/
structure Sealed (base base' : CallStack) (F : Nat → Prop) (n : Nat) (s s' : CallStack) :
    Prop where
  size : s.size = base.size + n
  size' : s'.size = base.size + n
  agree {j : Nat} {f f' : Frame} :
    base.Open F j → s.get? j = some f → s'.get? j = some f' → f.Agrees f'
  link {j k : Nat} {f : Frame} :
    base.Open F j → s.get? j = some f → f.link = some k → base.Open F k
  rest {j : Nat} : ¬ base.Open F j → s.get? j = base.get? j
  rest' {j : Nat} : ¬ base.Open F j → s'.get? j = base'.get? j

namespace Sealed

variable {base base' s s' : CallStack} {F : Nat → Prop} {n i j : Nat} {f f' : Frame}

theorem exists_of_get? (h : Sealed base base' F n s s') (hj : base.Open F j)
    (hf : s.get? j = some f) : ∃ f', s'.get? j = some f' ∧ f.Agrees f' := by
  have hlt := lt_size_of_get? hf
  have hsize := h.size
  have hsize' := h.size'
  obtain ⟨f', hf'⟩ := exists_get?_of_lt (show j < s'.size by omega)
  exact ⟨f', hf', h.agree hj hf hf'⟩

theorem get?_eq_none (h : Sealed base base' F n s s') (hj : s.get? j = none) :
    s'.get? j = none := by
  have hsize : s.frames.size = s'.frames.size := h.size.trans h.size'.symm
  rw [get?, Array.getElem?_eq_none_iff] at hj ⊢
  omega

/-- The search goes the same way in both stacks, and ends in an open place. -/
theorem searchUpTo (h : Sealed base base' F n s s') (hi : base.Open F i) (level m : Nat) :
    s'.searchUpTo level m i = s.searchUpTo level m i ∧
      ∀ k, s.searchUpTo level m i = .found k → base.Open F k := by
  induction m generalizing i with
  | zero => exact ⟨rfl, fun k hk => by cases hk⟩
  | succ m ih =>
      rw [CallStack.searchUpTo, CallStack.searchUpTo]
      cases hf : s.get? i with
      | none =>
          rw [h.get?_eq_none hf]
          exact ⟨rfl, fun k hk => by cases hk⟩
      | some f =>
          obtain ⟨f', hf', hagrees⟩ := h.exists_of_get? hi hf
          obtain ⟨-, -, hlevel, hlink⟩ := Frame.eq_of_bare hagrees.bare
          rw [hf']
          dsimp only
          rw [← hlevel, ← hlink]
          split
          next =>
            refine ⟨rfl, fun k hk => ?_⟩
            cases hk
            exact hi
          next =>
            split
            next => exact ⟨rfl, fun k hk => by cases hk⟩
            next =>
              split
              next => exact ⟨rfl, fun k hk => by cases hk⟩
              next j hj => exact ih (h.link hi hf hj)

theorem findLevel (h : Sealed base base' F (n + 1) s s') (level : Nat) :
    s'.findLevel level = s.findLevel level ∧
      ∀ k, s.findLevel level = .found k → base.Open F k := by
  have hsize := h.size
  have hsize' := h.size'
  have htop : base.Open F (s.size - 1) := .inl (by omega)
  have hne : s.size ≠ 0 := by omega
  rw [CallStack.findLevel, CallStack.findLevel, hsize', ← hsize, if_neg hne, if_neg hne]
  exact h.searchUpTo htop level s.size

theorem frameIndex (h : Sealed base base' F (n + 1) s s') (name : String) (level : Nat)
    (position : Position) :
    s'.frameIndex name level position = s.frameIndex name level position := by
  rw [CallStack.frameIndex, CallStack.frameIndex, (h.findLevel level).1]

/-! ### Expressions -/

theorem load (h : Sealed base base' F (n + 1) s s') (a : Analysis) (v : Variable) :
    a.load s' v = a.load s v := by
  rw [Analysis.load, Analysis.load]
  cases a.binding v with
  | error e => rfl
  | ok b =>
      rw [ok_bind, ok_bind, h.frameIndex]
      cases hindex : s.frameIndex v.name b.level v.position with
      | error e => rfl
      | ok k =>
          have hk := (h.findLevel b.level).2 k (found_of_frameIndex hindex)
          rw [ok_bind, ok_bind]
          cases hf : s.get? k with
          | none => rw [h.get?_eq_none hf]
          | some f =>
              obtain ⟨f', hf', hagrees⟩ := h.exists_of_get? hk hf
              rw [hf', Option.bind_some, Option.bind_some, hagrees.member]

theorem eval (h : Sealed base base' F (n + 1) s s') (a : Analysis) (e : Expr) :
    a.eval s' e = a.eval s e := by
  induction e with
  | var v => exact h.load a v
  | binary op left right position ihleft ihright =>
      rw [Analysis.eval, Analysis.eval, ihleft, ihright]
  | unary op operand position ih => rw [Analysis.eval, Analysis.eval, ih]
  | literal v => rfl

theorem evalAll (h : Sealed base base' F (n + 1) s s') (a : Analysis) (es : List Expr) :
    a.evalAll s' es = a.evalAll s es := by
  induction es with
  | nil => rfl
  | cons e es ih => rw [Analysis.evalAll, Analysis.evalAll, h.eval, ih]

theorem destination (h : Sealed base base' F (n + 1) s s') (a : Analysis) (target : Variable)
    (v : Value) : a.destination target v s' = a.destination target v s := by
  rw [Analysis.destination, Analysis.destination]
  cases a.binding target with
  | error e => rfl
  | ok b => rw [ok_bind, ok_bind, h.frameIndex]

theorem open_destination (h : Sealed base base' F (n + 1) s s') {a : Analysis}
    {target : Variable} {v w : Value} (hi : a.destination target v s = .ok (i, w)) :
    base.Open F i := by
  obtain ⟨b, -, hi⟩ := exists_of_bind_eq_ok hi
  obtain ⟨w', -, hi⟩ := exists_of_bind_eq_ok hi
  obtain ⟨k, hk, hi⟩ := exists_of_bind_eq_ok hi
  cases hi
  exact (h.findLevel b.level).2 _ (found_of_frameIndex hk)

/-! ### What changes the stacks -/

theorem assign (h : Sealed base base' F n s s') (hi : base.Open F i) (name : String)
    (v : Value) :
    Sealed base base' F n (s.assign i name v) (s'.assign i name v) where
  size := (size_eq_of_shape (shape_assign s i name v)).trans h.size
  size' := (size_eq_of_shape (shape_assign s' i name v)).trans h.size'
  agree {j f f'} hj hf hf' := by
    obtain ⟨f₀, hf₀, rfl⟩ := exists_of_get?_assign hf
    obtain ⟨f₀', hf₀', rfl⟩ := exists_of_get?_assign hf'
    have hagrees := h.agree hj hf₀ hf₀'
    split
    · exact hagrees.set name v
    · exact hagrees
  link {j k f} hj hf hlink := by
    obtain ⟨f₀, hf₀, rfl⟩ := exists_of_get?_assign hf
    refine h.link hj hf₀ ?_
    split at hlink <;> exact hlink
  rest {j} hj := by
    have hne : i ≠ j := fun hij => hj (hij ▸ hi)
    rw [get?, CallStack.assign, Array.getElem?_modify, if_neg hne]
    exact h.rest hj
  rest' {j} hj := by
    have hne : i ≠ j := fun hij => hj (hij ▸ hi)
    rw [get?, CallStack.assign, Array.getElem?_modify, if_neg hne]
    exact h.rest' hj

theorem push (h : Sealed base base' F n s s') (hlink : ∀ k, f.link = some k → base.Open F k) :
    Sealed base base' F (n + 1) (s.push f) (s'.push f) where
  size := by rw [size_push, h.size, Nat.add_assoc]
  size' := by rw [size_push, h.size', Nat.add_assoc]
  agree {j g g'} hj hg hg' := by
    have hsize : s.size = s'.size := h.size.trans h.size'.symm
    rcases get?_push_eq_some hg with hg | ⟨rfl, rfl⟩
    · rw [get?_push_of_lt (hsize ▸ lt_size_of_get? hg)] at hg'
      exact h.agree hj hg hg'
    · rw [hsize, get?_push_size] at hg'
      exact Option.some.inj hg' ▸ .refl _
  link {j k g} hj hg hk := by
    rcases get?_push_eq_some hg with hg | ⟨-, rfl⟩
    · exact h.link hj hg hk
    · exact hlink k hk
  rest {j} hj := by
    have hlt : j < base.size := Nat.not_le.mp fun hle => hj (.inl hle)
    have hsize := h.size
    rw [get?_push_of_lt (by omega)]
    exact h.rest hj
  rest' {j} hj := by
    have hlt : j < base.size := Nat.not_le.mp fun hle => hj (.inl hle)
    have hsize := h.size'
    rw [get?_push_of_lt (by omega)]
    exact h.rest' hj

theorem pop (h : Sealed base base' F (n + 1) s s') : Sealed base base' F n s.pop s'.pop where
  size := by rw [size_pop, h.size]; rfl
  size' := by rw [size_pop, h.size']; rfl
  agree hj hf hf' := h.agree hj (get?_of_get?_pop hf) (get?_of_get?_pop hf')
  link hj hf hk := h.link hj (get?_of_get?_pop hf) hk
  rest {j} hj := by
    have hlt : j < base.size := Nat.not_le.mp fun hle => hj (.inl hle)
    have hsize := h.size
    rw [get?_pop_of_lt (by omega)]
    exact h.rest hj
  rest' {j} hj := by
    have hlt : j < base.size := Nat.not_le.mp fun hle => hj (.inl hle)
    have hsize := h.size'
    rw [get?_pop_of_lt (by omega)]
    exact h.rest' hj

end Sealed

end CallStack

/-! ### Runs -/

/-- What two runs have in common since they left the stacks `base` and `base'` and the outputs
`o` and `o'`. -/
structure Machine.Beside (base base' : CallStack) (F : Nat → Prop) (o o' : Output) (n : Nat)
    (m m' : Machine) : Prop where
  isSealed : CallStack.Sealed base base' F n m.stack m'.stack
  outputs : Output.Abreast o o' m.output m'.output

namespace Analysis

open MiniPascal.Action

section

variable {a : Analysis} {s s' : CallStack}

theorem bindParams_congr {args : List Expr} (h : ∀ e ∈ args, a.eval s' e = a.eval s e)
    (position : Position) (params : List VarSymbol) (frame : Frame) :
    a.bindParams s' position params args frame =
      a.bindParams s position params args frame := by
  induction args generalizing params frame with
  | nil => cases params <;> rfl
  | cons e args ih =>
      cases params with
      | nil => rfl
      | cons param params =>
          obtain ⟨hfirst, hothers⟩ := List.forall_mem_cons.mp h
          rw [bindParams, bindParams, hfirst]
          simp only [ih hothers]

theorem calleeFrame_congr {p : ProcedureSymbol} {c : Call}
    (hargs : ∀ e ∈ c.args, a.eval s' e = a.eval s e)
    (hlevel : s'.findLevel p.level = s.findLevel p.level) :
    a.calleeFrame p c s' = a.calleeFrame p c s := by
  rw [calleeFrame, calleeFrame, bindParams_congr hargs, CallStack.frameIndex,
    CallStack.frameIndex, hlevel]

end

variable {a : Analysis} {base base' : CallStack} {F : Nat → Prop} {o o' : Output} {n : Nat}

/-- Assignments and writing are the same on both sides, and so are statements if calls are. -/
theorem stepwise_beside {call : Call → Action Unit}
    (hcall : ∀ c, (call c).Keeps (Machine.Beside base base' F o o' (n + 1)) Output.NeverFull) :
    a.Stepwise (fun _ => True) call call
      fun x _ => x.Keeps (Machine.Beside base base' F o o' (n + 1)) Output.NeverFull where
  compound _ _ := trivial
  nothing := .pure ()
  sequence hx hy := hx.bind Output.neverFull_lasting fun _ => hy
  call _ := hcall _
  assign {target value} _ := by
    refine ⟨grows_congruence.assign a target value, fun m m' h => ?_⟩
    rw [assign_eq, assign_eq, h.isSealed.eval]
    cases a.eval m.stack value with
    | error e => exact .error e h
    | ok v =>
        dsimp only
        rw [h.isSealed.destination]
        cases hd : a.destination target v m.stack with
        | error e => exact .error e ⟨h.isSealed, h.outputs⟩
        | ok r =>
            exact .ok () ⟨h.isSealed.assign (h.isSealed.open_destination hd) _ _, h.outputs⟩
  write {newline args position} _ := by
    refine ⟨(ofStack_grows _).bind fun _ => write_grows _, fun m m' h => ?_⟩
    rw [write_eq, write_eq, h.isSealed.evalAll]
    cases a.evalAll m.stack args with
    | error e => exact .error e h
    | ok values => exact write_alike _ h.outputs fun _ _ houtputs => ⟨h.isSealed, houtputs⟩

/-- A call that makes the same frame on both stacks, linked to an open place. The stacks
themselves may have a top frame that is not open. -/
theorem call_alike {limit room : Nat} {c : Call} {m m' : Machine}
    (hcalls : ∀ n c, (a.call limit room c).Keeps (Machine.Beside base base' F o o' (n + 1))
      Output.NeverFull)
    (h : Machine.Beside base base' F o o' n m m')
    (hframe : ∀ p, a.callee c = .ok p → a.calleeFrame p c m'.stack = a.calleeFrame p c m.stack)
    (hlink : ∀ p k, a.callee c = .ok p → m.stack.findLevel p.level = .found k →
      base.Open F k) :
    Ending.Alike (Machine.Beside base base' F o o' n) Output.NeverFull
      (a.call limit (room + 1) c m) (a.call limit (room + 1) c m') := by
  rw [call_succ, call_succ]
  cases hp : a.callee c with
  | error e => exact .error e h
  | ok p =>
      dsimp only
      rw [hframe p hp]
      cases hf : a.calleeFrame p c m.stack with
      | error e => exact .error e h
      | ok frame =>
          obtain ⟨-, -, -, i, hi, hi'⟩ := calleeFrame_eq_ok hf
          have hopen : ∀ k, frame.link = some k → base.Open F k := by
            intro k hk
            obtain rfl : i = k := Option.some.inj (hi'.symm.trans hk)
            exact hlink p i hp (CallStack.found_of_frameIndex hi)
          have hentered : Machine.Beside base base' F o o' (n + 1) (m.entered p frame)
              (m'.entered p frame) := ⟨h.isSealed.push hopen, h.outputs⟩
          have hstatements := stepwise_beside (a := a) (hcalls n)
          have hbody := (hstatements.execAll p.block.body fun _ _ => trivial).alike hentered
          dsimp only
          generalize a.execAll (a.call limit room) p.block.body (m.entered p frame) =
            end₁ at hbody
          generalize a.execAll (a.call limit room) p.block.body (m'.entered p frame) =
            end₂ at hbody
          cases hbody with
          | ok _ hend => exact .ok () ⟨hend.isSealed.pop, hend.outputs⟩
          | error e hend => exact .error e ⟨hend.isSealed.pop, hend.outputs⟩
          | full h => exact h.elim

theorem call_zero_alike {R : Machine → Machine → Prop} {limit : Nat} {c : Call}
    {m m' : Machine} (h : R m m') :
    Ending.Alike R Output.NeverFull (a.call limit 0 c m) (a.call limit 0 c m') := by
  rw [call_zero, call_zero]
  cases a.callee c with
  | error e => exact .error e h
  | ok p => exact .error _ h

theorem call_keeps (limit room n : Nat) (c : Call) :
    (a.call limit room c).Keeps (Machine.Beside base base' F o o' (n + 1))
      Output.NeverFull := by
  refine ⟨grows_congruence.call a limit room c, fun m m' h => ?_⟩
  induction room generalizing n c m m' with
  | zero => exact call_zero_alike h
  | succ room ih =>
      refine call_alike (fun n c => ⟨grows_congruence.call a limit room c, ih n c⟩) h ?_ ?_
      · intro p _
        exact calleeFrame_congr (fun e _ => h.isSealed.eval a e)
          (h.isSealed.findLevel p.level).1
      · intro p k _
        exact (h.isSealed.findLevel p.level).2 k

/-- At first all frames on the way outwards are open, and nothing has been written. -/
theorem beside_start {m m' : Machine} {i : Nat} (hsize : m'.stack.size = m.stack.size)
    (hroom : m'.output.room = m.output.room)
    (hagree : ∀ j f f', m.stack.Outward i j → m.stack.get? j = some f →
      m'.stack.get? j = some f' → f.Agrees f') :
    Machine.Beside m.stack m'.stack (m.stack.Outward i) m.output m'.output 0 m m' := by
  refine ⟨⟨rfl, hsize, ?_, ?_, fun _ => rfl, fun _ => rfl⟩, .start hroom.symm⟩
  · rintro j f f' (hj | hj) hf hf'
    · exact absurd (CallStack.lt_size_of_get? hf) (Nat.not_lt.mpr hj)
    · exact hagree j f f' hj hf hf'
  · rintro j k f (hj | hj) hf hk
    · exact absurd (CallStack.lt_size_of_get? hf) (Nat.not_lt.mpr hj)
    · exact .inr (hj.link hf hk)

/-- A call whose frame is linked to the frame at `i` keeps to the way outwards from there. -/
theorem execStatement_call_alike (limit : Nat) {i : Nat} {c : Call} {p : ProcedureSymbol}
    {m m' : Machine} (hp : a.callee c = .ok p) (hi : m.stack.findLevel p.level = .found i)
    (hi' : m'.stack.findLevel p.level = .found i)
    (hargs : ∀ e ∈ c.args, a.eval m'.stack e = a.eval m.stack e)
    (h : Machine.Beside m.stack m'.stack (m.stack.Outward i) m.output m'.output 0 m m') :
    Ending.Alike (Machine.Beside m.stack m'.stack (m.stack.Outward i) m.output m'.output 0)
      Output.NeverFull
      (a.execStatement limit (.call c) m) (a.execStatement limit (.call c) m') := by
  have hrun : ∀ m₁ : Machine, a.execStatement limit (.call c) m₁ =
      a.call limit (limit + 1 - m₁.stack.size) c m₁ := fun _ => rfl
  rw [hrun, hrun, h.isSealed.size'.trans (Nat.add_zero _)]
  cases limit + 1 - m.stack.size with
  | zero => exact call_zero_alike h
  | succ room =>
      refine call_alike (call_keeps limit room) h ?_ ?_
      · intro p' hp'
        cases hp.symm.trans hp'
        exact calleeFrame_congr hargs (hi'.trans hi.symm)
      · intro p' k hp' hk
        cases hp.symm.trans hp'
        cases hi.symm.trans hk
        exact .inr .here

/-- The way of a call beside itself shows what becomes of the other frames. -/
theorem execStatement_call_rest {limit i j : Nat} {c : Call} {p : ProcedureSymbol}
    {m : Machine} (hp : a.callee c = .ok p) (hi : m.stack.findLevel p.level = .found i)
    (hj : ¬ m.stack.Outward i j) (hlt : j < m.stack.size) :
    (Ending.machine (a.execStatement limit (.call c) m)).stack.get? j = m.stack.get? j := by
  have hstart : Machine.Beside m.stack m.stack (m.stack.Outward i) m.output
      m.output 0 m m := by
    refine beside_start rfl rfl fun j f f' _ hf hf' => ?_
    exact Option.some.inj (hf.symm.trans hf') ▸ .refl f
  refine (execStatement_call_alike limit hp hi hi
    (fun _ _ => rfl) hstart).machine.isSealed.rest ?_
  rintro (hle | hj')
  · omega
  · exact hj hj'

end Analysis

/-- **A call touches only its static chain.** For any analysis and limit and any linked stack,
a call that finds no frame to link its own to changes nothing. Otherwise let that frame be at
`i`. However the call ends, all frames that the links from `i` do not lead to are what they
were; such are the frame of the caller, unless its level is that of the procedure's name, and
all other activations of procedures of that level. And on another stack of the same size that
agrees with the first on the way outwards from `i`, where the arguments have the same values,
the call comes to the same result, writes the same and leaves the same behind on this way. -/
theorem call_touches_only_its_static_chain (a : Analysis) (limit : Nat) (c : Call)
    (m : Machine) (hlinked : m.stack.Linked) :
    ((∀ p i, a.callee c = .ok p → m.stack.findLevel p.level ≠ .found i) →
      ∃ e, a.execStatement limit (.call c) m = .error e m) ∧
    ∀ p i after, a.callee c = .ok p → m.stack.findLevel p.level = .found i →
      after = Ending.machine (a.execStatement limit (.call c) m) →
      (∀ j f, m.stack.get? j = some f → ¬ m.stack.Outward i j → after.stack.get? j = some f) ∧
      (∀ f, m.stack.top? = some f → f.level ≠ p.level → after.stack.top? = some f) ∧
      (∀ j f, m.stack.get? j = some f → p.level < f.level → after.stack.get? j = some f) ∧
      ∀ m' after', m'.stack.size = m.stack.size → m'.output.room = m.output.room →
        m'.stack.findLevel p.level = .found i →
        (∀ j f f', m.stack.Outward i j → m.stack.get? j = some f → m'.stack.get? j = some f' →
          f.Agrees f') →
        (∀ e ∈ c.args, a.eval m'.stack e = a.eval m.stack e) →
        after' = Ending.machine (a.execStatement limit (.call c) m') →
        Ending.result (a.execStatement limit (.call c) m') =
          Ending.result (a.execStatement limit (.call c) m) ∧
        (∃ out, after.output.written = m.output.written ++ out ∧
          after'.output.written = m'.output.written ++ out) ∧
        ∀ j f f', m.stack.Outward i j → after.stack.get? j = some f →
        after'.stack.get? j = some f' →
          f.Agrees f' := by
  constructor
  · intro hnone
    apply Analysis.execStatement_of_not_starts
    rintro ⟨p, frame, hp, -, hframe⟩
    obtain ⟨-, -, -, i, hi, -⟩ := Analysis.calleeFrame_eq_ok hframe
    exact hnone p i hp (CallStack.found_of_frameIndex hi)
  · rintro p i after hp hi rfl
    obtain ⟨g, hg, hlevel⟩ := hlinked.exists_of_findLevel hi
    have hkept : ∀ j f, m.stack.get? j = some f → ¬ m.stack.Outward i j →
        (Ending.machine (a.execStatement limit (.call c) m)).stack.get? j = some f := by
      intro j f hf hj
      exact (Analysis.execStatement_call_rest hp hi hj (CallStack.lt_size_of_get? hf)).trans hf
    refine ⟨hkept, ?_, ?_, ?_⟩
    · intro f htop hne
      have hf := CallStack.get?_of_top? htop
      rw [CallStack.top?_eq_get?, CallStack.size_eq_of_shape
        (a.execStatement_keepsShape limit _ m)]
      refine hkept _ f hf fun hj => ?_
      rcases hlinked.outward hj hg hf with rfl | ⟨hlt, -⟩
      · obtain rfl := Option.some.inj (hg.symm.trans hf)
        exact hne hlevel
      · have hlt' := CallStack.lt_size_of_get? hg
        omega
    · intro j f hf hlt
      refine hkept j f hf fun hj => ?_
      rcases hlinked.outward hj hg hf with rfl | ⟨-, hlt'⟩
      · obtain rfl := Option.some.inj (hg.symm.trans hf)
        omega
      · omega
    · rintro m' after' hsize hroom hi' hagree hargs rfl
      have hend := Analysis.execStatement_call_alike limit hp hi hi' hargs
        (Analysis.beside_start hsize hroom hagree)
      exact ⟨hend.result_eq.symm, hend.machine.outputs.written,
        fun j f f' hj => hend.machine.isSealed.agree (.inr hj)⟩

/-!
A procedure `Q` of the program counts up its `X`. The call stands in another procedure, which
has an `X` of its own.
-/

def counter : Variable := ⟨"X", 0, .start⟩

def countCall : Call := ⟨"Q", [], 1, .start⟩

def countProcedure : ProcedureSymbol :=
  ⟨"Q", [],
    .mk [] [] [.assign counter (.binary .add (.var counter) (.literal (.integer 1)) .start)],
    1⟩

def countAnalysis : Analysis where
  scopes := {}
  calls := Std.TreeMap.insert {} 1 countProcedure
  vars := Std.TreeMap.insert {} 0 ⟨1, .integer⟩

def countingFrame : Frame :=
  { name := "P", kind := .program, level := 1, link := none,
    members := .insert {} "X" (.integer 3) }

/-- The frame of the caller, with a value for its own variable. -/
def bystander (v : Value) : Frame :=
  { name := "R", kind := .procedure, level := 2, link := some 0, members := .insert {} "X" v }

def countMachine (v : Value) : Machine where
  stack := ⟨#[countingFrame, bystander v]⟩
  journal := { traces := [], dumps := [] }

theorem countMachine_linked (v : Value) : (countMachine v).stack.Linked := by
  have hprogram : (CallStack.push {} countingFrame).Linked := by
    apply (CallStack.Linked.empty rfl).push
    · intro j hj
      cases hj
    · exact fun _ => ⟨rfl, rfl⟩
  apply hprogram.push (f := bystander v)
  · intro j hj
    cases hj
    exact ⟨countingFrame, rfl, rfl⟩
  · intro hnone
    cases hnone

theorem countCall_spares_caller :
    (countMachine (.integer 5)).stack.Linked ∧
    (Ending.machine (countAnalysis.execStatement 512 (.call countCall)
      (countMachine (.integer 5)))).stack.top? = some (bystander (.integer 5)) ∧
    Ending.result (countAnalysis.execStatement 512 (.call countCall)
      (countMachine (.string "A"))) = .ok () := by
  have hlinked := countMachine_linked (.integer 5)
  obtain ⟨-, hcall⟩ := call_touches_only_its_static_chain countAnalysis 512 countCall _ hlinked
  obtain ⟨-, htop, -, hother⟩ := hcall countProcedure 0 _ rfl rfl rfl
  refine ⟨hlinked, htop _ rfl (by decide), ?_⟩
  refine (hother (countMachine (.string "A")) _ rfl rfl rfl ?_ ?_ rfl).1.trans rfl
  · intro j f f' hj hf hf'
    -- The frame of the program has no link, so nothing is on the way outwards but itself.
    rcases hlinked.outward hj rfl hf with rfl | ⟨hlt, -⟩
    · obtain rfl : f = f' := Option.some.inj (hf.symm.trans hf')
      exact .refl f
    · omega
  · intro e he
    cases he

end MiniPascal

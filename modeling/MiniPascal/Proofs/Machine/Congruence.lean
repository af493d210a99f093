import MiniPascal.Proofs.Machine.Steps

/-!
Relations between actions that follow how actions are built. What a run does is put together
from a few steps: it reads the stack, stores a value, writes a text, makes a note, or runs a
body in a frame of its own. A relation that holds between each of these steps and itself, and
that sequence keeps, holds between whole runs. The induction over statements is made once, for
relations that need not hold of every assignment and of every call.
-/

namespace MiniPascal

/-! ### Statements -/

/-- A relation between statements run with `call` and statements run with `call'`: it holds of
those that have no parts, as far as they are allowed, and sequence keeps it. -/
structure Analysis.Stepwise (a : Analysis) (Allows : Statement → Prop)
    (call call' : Call → Action Unit) (Rel : Action Unit → Action Unit → Prop) : Prop where
  compound {body : List Statement} {s : Statement} : Allows (.compound body) →
    s ∈ body → Allows s
  nothing : Rel (pure ()) (pure ())
  sequence {x x' y y' : Action Unit} :
    Rel x x' → Rel y y' → Rel (x >>= fun _ => y) (x' >>= fun _ => y')
  assign {target : Variable} {value : Expr} : Allows (.assign target value) →
    Rel (a.assign target value) (a.assign target value)
  write {newline : Bool} {args : List Expr} {position : Position} :
    Allows (.write newline args position) → Rel (a.write newline args) (a.write newline args)
  call {c : Call} : Allows (.call c) → Rel (call c) (call' c)

namespace Analysis.Stepwise

variable {a : Analysis} {Allows : Statement → Prop} {call call' : Call → Action Unit}
  {Rel : Action Unit → Action Unit → Prop}

mutual

theorem exec (H : a.Stepwise Allows call call' Rel) :
    ∀ s : Statement, Allows s → Rel (a.exec call s) (a.exec call' s)
  | .compound body, h => execAll H body fun _ hs => H.compound h hs
  | .assign _ _, h => H.assign h
  | .call _, h => H.call h
  | .write _ _ _, h => H.write h
  | .empty, _ => H.nothing

theorem execAll (H : a.Stepwise Allows call call' Rel) :
    ∀ body : List Statement, (∀ s ∈ body, Allows s) →
    Rel (a.execAll call body) (a.execAll call' body)
  | [], _ => H.nothing
  | s :: body, h =>
      H.sequence (exec H s (h s List.mem_cons_self))
        (execAll H body fun t ht => h t (List.mem_cons_of_mem s ht))

end

end Analysis.Stepwise

/-! ### Actions -/

structure Action.Congruence (Rel : {α : Type} → Action α → Action α → Prop) : Prop where
  pure {α : Type} (r : α) : Rel (pure r) (pure r)
  throw {α : Type} (e : RuntimeError) : Rel (throw e : Action α) (throw e)
  bind {α β : Type} {x x' : Action α} {f f' : α → Action β} :
    Rel x x' → (∀ r, Rel (f r) (f' r)) → Rel (x >>= f) (x' >>= f')
  note (message : Unit → String) : Rel (note message) (note message)
  ofStack {α : Type} (g : CallStack → Except RuntimeError α) : Rel (ofStack g) (ofStack g)
  store (index : Nat) (name : String) (v : Value) :
    Rel (modify fun m => { m with stack := m.stack.assign index name v } : Action Unit)
      (modify fun m => { m with stack := m.stack.assign index name v })
  write (text : String) : Rel (write text) (write text)
  inFrame {body body' : Action Unit} (frame : Frame) :
    Rel body body' → Rel (inFrame frame body) (inFrame frame body')
  afterwards {α : Type} {x x' : Action α} (message : Unit → String) :
    Rel x x' → Rel (x.afterwards (·.trace message)) (x'.afterwards (·.trace message))
  /-- How many more calls there may be depends on the size of the stack. -/
  sized {α : Type} {f f' : Nat → Action α} :
    (∀ n, Rel (f n) (f' n)) → Rel (fun m => f m.stack.size m) (fun m => f' m.stack.size m)

namespace Action.Congruence

variable {Rel : {α : Type} → Action α → Action α → Prop}

theorem assign (H : Congruence Rel) (a : Analysis) (target : Variable) (value : Expr) :
    Rel (a.assign target value) (a.assign target value) := by
  refine H.bind (H.ofStack _) fun v => H.bind (H.note _) fun _ => H.bind (H.ofStack _) ?_
  rintro ⟨index, w⟩
  exact H.store index target.name w

theorem writeAll (H : Congruence Rel) (a : Analysis) (newline : Bool) (args : List Expr) :
    Rel (a.write newline args) (a.write newline args) :=
  H.bind (H.ofStack _) fun _ => H.write _

theorem stepwise (H : Congruence Rel) (a : Analysis) {call call' : Call → Action Unit}
    (hcall : ∀ c, Rel (call c) (call' c)) : a.Stepwise (fun _ => True) call call' Rel where
  compound _ _ := trivial
  nothing := H.pure ()
  sequence hx hy := H.bind hx fun _ => hy
  assign _ := H.assign a _ _
  write _ := H.writeAll a _ _
  call _ := hcall _

theorem exec (H : Congruence Rel) (a : Analysis) {call call' : Call → Action Unit}
    (hcall : ∀ c, Rel (call c) (call' c)) (s : Statement) :
    Rel (a.exec call s) (a.exec call' s) :=
  (H.stepwise a hcall).exec s trivial

theorem execAll (H : Congruence Rel) (a : Analysis) {call call' : Call → Action Unit}
    (hcall : ∀ c, Rel (call c) (call' c)) (body : List Statement) :
    Rel (a.execAll call body) (a.execAll call' body) :=
  (H.stepwise a hcall).execAll body fun _ _ => trivial

theorem call (H : Congruence Rel) (a : Analysis) (limit room : Nat) (c : Call) :
    Rel (a.call limit room c) (a.call limit room c) := by
  induction room generalizing c with
  | zero => exact H.bind (H.ofStack _) fun p => H.throw _
  | succ room ih =>
      refine H.bind (H.ofStack _) fun p => H.bind (H.ofStack _) fun frame =>
        H.bind (H.note _) fun _ => ?_
      have hbody := H.execAll a ih p.block.body
      exact H.bind (H.afterwards _ (H.inFrame frame hbody)) fun _ => H.pure ()

theorem interpret (H : Congruence Rel) (a : Analysis) (limit : Nat) (program : Program) :
    Rel (a.interpret limit program) (a.interpret limit program) := by
  have hbody (size : Nat) := H.execAll a (H.call a limit (limit + 1 - size)) program.block.body
  refine H.bind (H.note _) fun _ => H.bind (H.inFrame _ (H.sized hbody)) fun last => ?_
  cases last with
  | some frame => exact H.pure frame
  | none => exact H.throw _

end Action.Congruence

/-! ### Output grows -/

/-- What was written before stays. -/
def Output.Extends (o o' : Output) : Prop := ∃ more, o'.written = o.written ++ more

namespace Output

variable {o o' o'' : Output}

theorem extends_refl (o : Output) : o.Extends o := ⟨.empty, ByteArray.append_empty.symm⟩

theorem Extends.trans (h : o.Extends o') (h' : o'.Extends o'') : o.Extends o'' := by
  obtain ⟨more, hmore⟩ := h
  obtain ⟨more', hmore'⟩ := h'
  exact ⟨more ++ more', by rw [hmore', hmore, ByteArray.append_assoc]⟩

theorem extends_write (o : Output) (text : String) : o.Extends (o.write text).2 := by
  rw [write]
  split
  · exact ⟨_, rfl⟩
  · split
    · exact ⟨_, rfl⟩
    · exact ⟨_, rfl⟩

end Output

/-- However the action ends, it has only added to the output. -/
def Action.Grows {α : Type} (x : Action α) : Prop :=
  ∀ m : Machine, m.output.Extends (Ending.machine (x m)).output

namespace Action

variable {α β : Type} {x : Action α}

theorem Grows.bind {f : α → Action β} (hx : x.Grows) (hf : ∀ r, (f r).Grows) :
    (x >>= f).Grows := by
  intro m
  have hm := hx m
  cases h : x m with
  | ok r m' =>
      rw [h] at hm
      rw [bind_of_ok h]
      exact hm.trans (hf r m')
  | error e m' =>
      rw [h] at hm
      rw [bind_of_error h]
      exact hm

theorem Grows.inFrame {body : Action Unit} (hbody : body.Grows) (frame : Frame) :
    (inFrame frame body).Grows := by
  intro m
  have hm := hbody ((m.push frame).dumpStack "ENTER" frame.name)
  cases h : body ((m.push frame).dumpStack "ENTER" frame.name) with
  | ok u m' => rw [h] at hm; rw [inFrame_of_ok h]; exact hm
  | error e m' => rw [h] at hm; rw [inFrame_of_error h]; exact hm

theorem Grows.afterwards (hx : x.Grows) (message : Unit → String) :
    (x.afterwards (·.trace message)).Grows := by
  intro m
  have hm := hx m
  cases h : x m with
  | ok r m' => rw [h] at hm; rw [afterwards_of_ok h]; exact hm
  | error e m' => rw [h] at hm; rw [afterwards_of_error h]; exact hm

theorem ofStack_grows (g : CallStack → Except RuntimeError α) : (ofStack g).Grows := by
  intro m
  cases h : g m.stack with
  | ok r => rw [ofStack_of_ok h]; exact m.output.extends_refl
  | error e => rw [ofStack_of_error h]; exact m.output.extends_refl

theorem write_grows (text : String) : (write text).Grows := by
  intro m
  have hm := m.output.extends_write text
  rw [write]
  split
  next output h => rw [h] at hm; exact hm
  next output h => rw [h] at hm; exact hm

/-- All that a run is made of adds to the output only. -/
theorem grows_congruence : Congruence fun x _ => x.Grows where
  pure _ m := m.output.extends_refl
  throw _ m := m.output.extends_refl
  bind hx hf := hx.bind hf
  note _ m := m.output.extends_refl
  ofStack := ofStack_grows
  store _ _ _ m := m.output.extends_refl
  write := write_grows
  inFrame frame hbody := hbody.inFrame frame
  afterwards message hx := hx.afterwards message
  sized hf m := hf m.stack.size m

end Action

end MiniPascal

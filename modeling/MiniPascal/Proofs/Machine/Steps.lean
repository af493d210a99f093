import MiniPascal.Machine.Exec
import MiniPascal.Proofs.Sequencing

/-!
What statements and calls do to a machine, written as plain equations. The journal is part of
the machine and changes on the way; nothing else does that the equations do not show.
-/

namespace MiniPascal

namespace Machine

/-- The machine when the body of a call starts. -/
def entered (m : Machine) (p : ProcedureSymbol) (frame : Frame) : Machine :=
  ((m.trace fun _ => s!"ENTER: PROCEDURE {p.name}").push frame).dumpStack "ENTER" frame.name

/-- The machine when a call whose body has ended is over. -/
def left (m : Machine) (p : ProcedureSymbol) (frame : Frame) : Machine :=
  (m.dumpStack "LEAVE" frame.name).pop.trace fun _ => s!"LEAVE: PROCEDURE {p.name}"

/-- The frame of a program that has not started. -/
def programFrame (program : Program) : Frame :=
  { name := program.name, kind := .program, level := 1, link := none }

/-- The machine when the body of a program starts. -/
def started (m : Machine) (program : Program) : Machine :=
  ((m.trace fun _ => s!"ENTER: PROGRAM {program.name}").push (programFrame program)).dumpStack
    "ENTER" program.name

section

variable (m : Machine) (p : ProcedureSymbol) (frame : Frame) (program : Program)

@[simp]
theorem stack_entered : (m.entered p frame).stack = m.stack.push frame := rfl

@[simp]
theorem output_entered : (m.entered p frame).output = m.output := rfl

@[simp]
theorem stack_left : (m.left p frame).stack = m.stack.pop := rfl

@[simp]
theorem output_left : (m.left p frame).output = m.output := rfl

@[simp]
theorem stack_started : (m.started program).stack = m.stack.push (programFrame program) := rfl

@[simp]
theorem output_started : (m.started program).output = m.output := rfl

end

end Machine

/-- The machine in the end, after a failure too. -/
def Ending.machine {α : Type} : Ending α → Machine
  | .ok _ m => m
  | .error _ m => m

@[simp]
theorem Ending.machine_ok {α : Type} (r : α) (m : Machine) : Ending.machine (.ok r m) = m :=
  rfl

@[simp]
theorem Ending.machine_error {α : Type} (e : RuntimeError) (m : Machine) :
    Ending.machine (.error e m : Ending α) = m := rfl

namespace Action

section

variable {α : Type} {g : CallStack → Except RuntimeError α} {m m' : Machine} {r : α}
  {e : RuntimeError}

theorem ofStack_of_ok (h : g m.stack = .ok r) : ofStack g m = .ok r m := by
  rw [ofStack, h]

theorem ofStack_of_error (h : g m.stack = .error e) : ofStack g m = .error e m := by
  rw [ofStack, h]

section

variable {frame : Frame} {body : Action Unit}

theorem inFrame_of_ok {u : Unit}
    (h : body ((m.push frame).dumpStack "ENTER" frame.name) = .ok u m') :
    inFrame frame body m = .ok m'.stack.top? (m'.dumpStack "LEAVE" frame.name).pop := by
  rw [inFrame, h]

theorem inFrame_of_error (h : body ((m.push frame).dumpStack "ENTER" frame.name) =
    .error e m') :
    inFrame frame body m = .error e (m'.dumpStack "LEAVE" frame.name).pop := by
  rw [inFrame, h]

end

theorem afterwards_of_ok {body : Action α} (h : body m = .ok r m') (f : Machine → Machine) :
    body.afterwards f m = .ok r (f m') := by
  rw [afterwards, h]

theorem afterwards_of_error {body : Action α} (h : body m = .error e m')
    (f : Machine → Machine) :
    body.afterwards f m = .error e (f m') := by
  rw [afterwards, h]

theorem note_eq (message : Unit → String) (m : Machine) :
    note message m = .ok () (m.trace message) :=
  rfl

end

end Action

theorem CallStack.frameIndex_eq {stack : CallStack} {level i : Nat}
    (h : stack.findLevel level = .found i) (name : String) (position : Position) :
    stack.frameIndex name level position = .ok i := by
  rw [CallStack.frameIndex, h]

theorem CallStack.found_of_frameIndex {stack : CallStack} {name : String} {level i : Nat}
    {position : Position} (h : stack.frameIndex name level position = .ok i) :
    stack.findLevel level = .found i := by
  rw [CallStack.frameIndex] at h
  split at h
  next j hj => exact Except.ok.inj h ▸ hj
  next => cases h

namespace Analysis

variable (a : Analysis) (limit room : Nat) (c : Call) (m : Machine)

section

variable {a : Analysis} {stack : CallStack} {v : Variable} {b : VarBinding} {i : Nat}

theorem binding_eq (h : a.binding? v.id = some b) : a.binding v = .ok b := by
  rw [binding, h]

theorem load_eq (hb : a.binding? v.id = some b) (hi : stack.findLevel b.level = .found i) :
    a.load stack v = ((stack.get? i).bind (·.get? v.name)).elim
      (.error (.uninitialized v.name v.position)) .ok := by
  rw [load, binding_eq hb, ok_bind, CallStack.frameIndex_eq hi, ok_bind]
  cases (stack.get? i).bind (·.get? v.name) <;> rfl

theorem raise_eq_ok {position : Position} {r : Except ArithmeticFault Value} {v : Value}
    (h : raise position r = .ok v) : r = .ok v := by
  cases r with
  | ok w => exact congrArg Except.ok (Except.ok.inj h)
  | error fault => cases h

theorem raise_eq_error {position : Position} {r : Except ArithmeticFault Value}
    {e : RuntimeError} (h : raise position r = .error e) :
    ∃ fault, r = .error fault ∧ e = .arithmetic fault position := by
  cases r with
  | ok w => cases h
  | error fault => exact ⟨fault, rfl, (Except.error.inj h).symm⟩

theorem callee_eq {c : Call} {p : ProcedureSymbol} (h : a.procedure? c.id = some p)
    (hlength : p.params.length = c.args.length) : a.callee c = .ok p := by
  rw [callee, h]
  exact if_pos hlength

theorem procedure?_of_callee {c : Call} {p : ProcedureSymbol} (h : a.callee c = .ok p) :
    a.procedure? c.id = some p := by
  rw [callee] at h
  split at h
  · cases h
  next q hq =>
    split at h
    · rw [hq, Except.ok.inj h]
    · cases h

/-- Only members of the frame are set. -/
theorem bindParams_eq_ok {position : Position} {params : List VarSymbol} {args : List Expr}
    {frame frame' : Frame} (h : a.bindParams stack position params args frame = .ok frame') :
    frame'.name = frame.name ∧ frame'.kind = frame.kind ∧ frame'.level = frame.level := by
  induction args generalizing params frame with
  | nil => cases params <;> cases h <;> exact ⟨rfl, rfl, rfl⟩
  | cons e args ih =>
      cases params with
      | nil =>
          cases h
          exact ⟨rfl, rfl, rfl⟩
      | cons param params =>
          obtain ⟨v, -, h⟩ := exists_of_bind_eq_ok h
          obtain ⟨w, -, h⟩ := exists_of_bind_eq_ok h
          obtain ⟨hname, hkind, hlevel⟩ := ih h
          exact ⟨hname, hkind, hlevel⟩

theorem calleeFrame_eq_ok {p : ProcedureSymbol} {c : Call} {frame : Frame}
    (h : a.calleeFrame p c stack = .ok frame) :
    frame.name = p.name ∧ frame.kind = .procedure ∧ frame.level = p.level + 1 ∧
      ∃ i, stack.frameIndex p.name p.level c.position = .ok i ∧ frame.link = some i := by
  obtain ⟨frame', hparams, h⟩ := exists_of_bind_eq_ok h
  obtain ⟨i, hi, h⟩ := exists_of_bind_eq_ok h
  cases h
  obtain ⟨hname, hkind, hlevel⟩ := bindParams_eq_ok hparams
  exact ⟨hname, hkind, hlevel, i, hi, rfl⟩

end

/-- Where an assignment stores, and what. -/
def destination (target : Variable) (v : Value) (s : CallStack) :
    Except RuntimeError (Nat × Value) := do
  let binding ← a.binding target
  let v ← store target.name binding.type target.position v
  return (← s.frameIndex target.name binding.level target.position, v)

theorem destination_eq {a : Analysis} {stack : CallStack} {target : Variable}
    {b : VarBinding} {i : Nat} (hb : a.binding? target.id = some b)
    (hi : stack.findLevel b.level = .found i) (v : Value) :
    a.destination target v stack =
      (store target.name b.type target.position v).map fun w => (i, w) := by
  rw [destination, binding_eq hb, ok_bind, CallStack.frameIndex_eq hi]
  cases store target.name b.type target.position v <;> rfl

theorem assign_eq (target : Variable) (value : Expr) :
    a.assign target value m =
      match a.eval m.stack value with
      | .error e => .error e m
      | .ok v =>
          match a.destination target v m.stack with
          | .error e => .error e (m.trace fun _ => s!"{target.name} := {v.text}")
          | .ok (index, w) =>
              .ok () { m.trace fun _ => s!"{target.name} := {v.text}" with
                stack := m.stack.assign index target.name w } := by
  cases hv : a.eval m.stack value with
  | error e => rw [assign, bind_of_error (Action.ofStack_of_error hv)]
  | ok v =>
      rw [assign, bind_of_ok (Action.ofStack_of_ok hv), bind_of_ok (Action.note_eq _ m)]
      dsimp only
      cases hd : a.destination target v m.stack with
      | error e => exact bind_of_error (Action.ofStack_of_error (m := m.trace _) hd)
      | ok r => exact bind_of_ok (Action.ofStack_of_ok (m := m.trace _) hd)

theorem write_eq (newline : Bool) (args : List Expr) :
    a.write newline args m =
      match a.evalAll m.stack args with
      | .error e => .error e m
      | .ok values =>
          Action.write (String.join (values.map Value.text) ++ if newline then "\n"
            else "") m := by
  cases hvalues : a.evalAll m.stack args with
  | error e => rw [write, bind_of_error (Action.ofStack_of_error hvalues)]
  | ok values => rw [write, bind_of_ok (Action.ofStack_of_ok hvalues)]

theorem call_zero :
    a.call limit 0 c m =
      match a.callee c with
      | .error e => .error e m
      | .ok p => .error (.callDepthExceeded p.name limit c.position) m := by
  cases hp : a.callee c with
  | error e => rw [call, bind_of_error (Action.ofStack_of_error hp)]
  | ok p =>
      rw [call, bind_of_ok (Action.ofStack_of_ok hp)]
      rfl

theorem call_succ :
    a.call limit (room + 1) c m =
      match a.callee c with
      | .error e => .error e m
      | .ok p =>
          match a.calleeFrame p c m.stack with
          | .error e => .error e m
          | .ok frame =>
              match a.execAll (a.call limit room) p.block.body (m.entered p frame) with
              | .error e m' => .error e (m'.left p frame)
              | .ok _ m' => .ok () (m'.left p frame) := by
  cases hp : a.callee c with
  | error e => rw [call, bind_of_error (Action.ofStack_of_error hp)]
  | ok p =>
      rw [call, bind_of_ok (Action.ofStack_of_ok hp)]
      dsimp only
      cases hframe : a.calleeFrame p c m.stack with
      | error e => rw [bind_of_error (Action.ofStack_of_error hframe)]
      | ok frame =>
          rw [bind_of_ok (Action.ofStack_of_ok hframe), bind_of_ok (Action.note_eq _ m)]
          dsimp only
          cases hbody : a.execAll (a.call limit room) p.block.body (m.entered p frame) with
          | error e m' =>
              exact bind_of_error
                (Action.afterwards_of_error (Action.inFrame_of_error hbody) _)
          | ok _ m' =>
              exact bind_of_ok (Action.afterwards_of_ok (Action.inFrame_of_ok hbody) _)

/-- The frame of the program is the one that is taken off in the end. -/
theorem interpret_eq_top? (program : Program) :
    a.interpret limit program m =
      match a.execAll (a.call limit (limit - m.stack.size)) program.block.body
          (m.started program) with
      | .error e m' => .error e (m'.dumpStack "LEAVE" program.name).pop
      | .ok _ m' =>
          match m'.stack.top? with
          | some frame => .ok frame (m'.dumpStack "LEAVE" program.name).pop
          | none =>
              .error (.missingFrame program.name 1 program.position)
                (m'.dumpStack "LEAVE" program.name).pop := by
  have hroom : limit + 1 - (m.started program).stack.size = limit - m.stack.size := by
    rw [Machine.stack_started, CallStack.size_push, Nat.add_sub_add_right]
  rw [← hroom, interpret, bind_of_ok (Action.note_eq _ m)]
  cases hbody : a.execAll (a.call limit (limit + 1 - (m.started program).stack.size))
      program.block.body (m.started program) with
  | error e m' => exact bind_of_error (Action.inFrame_of_error hbody)
  | ok _ m' =>
      refine (bind_of_ok (Action.inFrame_of_ok hbody)).trans ?_
      dsimp only
      cases m'.stack.top? <;> rfl

end Analysis

end MiniPascal

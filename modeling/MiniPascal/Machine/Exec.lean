import MiniPascal.Journal
import MiniPascal.Machine.Eval
import MiniPascal.Machine.Output

/-!
Running statements. A call puts a frame on the stack, linked to the frame of the scope that
declares the procedure, runs the body and takes the frame off again, also when the body fails.

A call is told how many more frames may be put on the stack, and the recursion follows that
number; inside one activation it follows the statement.
-/

namespace MiniPascal

/-- A program being run. -/
structure Machine where
  stack : CallStack := {}
  output : Output := {}
  journal : Journal

namespace Machine

def trace (m : Machine) (message : Unit → String) : Machine :=
  { m with journal := m.journal.trace .interpreter message }

def dumpStack (m : Machine) (event name : String) : Machine :=
  { m with journal := m.journal.dump .stack fun _ => s!"{event}: {name}\n{m.stack.text}" }

def push (m : Machine) (f : Frame) : Machine := { m with stack := m.stack.push f }

def pop (m : Machine) : Machine := { m with stack := m.stack.pop }

section

variable (m : Machine) (message : Unit → String) (event name : String) (f : Frame)

@[simp]
theorem stack_trace : (m.trace message).stack = m.stack := rfl

@[simp]
theorem output_trace : (m.trace message).output = m.output := rfl

@[simp]
theorem stack_dumpStack : (m.dumpStack event name).stack = m.stack := rfl

@[simp]
theorem output_dumpStack : (m.dumpStack event name).output = m.output := rfl

@[simp]
theorem stack_push : (m.push f).stack = m.stack.push f := rfl

@[simp]
theorem output_push : (m.push f).output = m.output := rfl

@[simp]
theorem stack_pop : m.pop.stack = m.stack.pop := rfl

@[simp]
theorem output_pop : m.pop.output = m.output := rfl

end

end Machine

/-- A part of a run, which leaves the machine as it is when it fails. -/
abbrev Action := EStateM RuntimeError Machine

/-- How a part of a run ends. -/
abbrev Ending (α : Type) := EStateM.Result RuntimeError Machine α

namespace Action

def note (message : Unit → String) : Action Unit := modify (·.trace message)

/-- A result that depends on the stack alone. -/
def ofStack {α : Type} (f : CallStack → Except RuntimeError α) : Action α := fun m =>
  match f m.stack with
  | .ok a => .ok a m
  | .error e => .error e m

/-- Runs `body` with a frame of its own on the stack. The result is the frame that is taken off
in the end, if there is one. -/
def inFrame (frame : Frame) (body : Action Unit) : Action (Option Frame) := fun m =>
  match body ((m.push frame).dumpStack "ENTER" frame.name) with
  | .ok _ m => .ok m.stack.top? (m.dumpStack "LEAVE" frame.name).pop
  | .error e m => .error e (m.dumpStack "LEAVE" frame.name).pop

/-- Does something to the machine when `body` has ended, however it ended. -/
def afterwards {α : Type} (body : Action α) (f : Machine → Machine) : Action α := fun m =>
  match body m with
  | .ok a m => .ok a (f m)
  | .error e m => .error e (f m)

def write (text : String) : Action Unit := fun m =>
  match m.output.write text with
  | (true, output) => .ok () { m with output }
  | (false, output) => .error (.output Output.fullMessage) { m with output }

end Action

namespace Analysis

/-- The value is evaluated before the target is looked for. -/
def assign (a : Analysis) (target : Variable) (value : Expr) : Action Unit := do
  let v ← Action.ofStack (a.eval · value)
  Action.note fun _ => s!"{target.name} := {v.text}"
  let (index, v) ← Action.ofStack fun s => do
    let binding ← a.binding target
    let v ← store target.name binding.type target.position v
    return (← s.frameIndex target.name binding.level target.position, v)
  modify fun m => { m with stack := m.stack.assign index target.name v }

/-- All arguments are evaluated before anything is written. -/
def write (a : Analysis) (newline : Bool) (args : List Expr) : Action Unit := do
  let values ← Action.ofStack (a.evalAll · args)
  Action.write (String.join (values.map Value.text) ++ if newline then "\n" else "")

mutual

/-- Runs a statement, given how calls are run. -/
def exec (a : Analysis) (call : Call → Action Unit) : Statement → Action Unit
  | .compound body => a.execAll call body
  | .assign target value => a.assign target value
  | .call c => call c
  | .write newline args _ => a.write newline args
  | .empty => return ()

def execAll (a : Analysis) (call : Call → Action Unit) : List Statement → Action Unit
  | [] => return ()
  | s :: statements => do
      a.exec call s
      a.execAll call statements

end

/-- The procedure that a call means, which must have as many parameters as there are
arguments. -/
def callee (a : Analysis) (c : Call) : Except RuntimeError ProcedureSymbol :=
  match a.procedure? c.id with
  | none => .error (.unresolved c.name c.position)
  | some p =>
      if p.params.length = c.args.length then .ok p
      else .error (.argumentCount p.name p.params.length c.args.length c.position)

/-- The frame of a call: its arguments under the names of the parameters, and its link. -/
def calleeFrame (a : Analysis) (p : ProcedureSymbol) (c : Call) (s : CallStack) :
    Except RuntimeError Frame := do
  let frame : Frame :=
    { name := p.name, kind := .procedure, level := p.level + 1, link := none }
  let frame ← a.bindParams s c.position p.params c.args frame
  return { frame with link := some (← s.frameIndex p.name p.level c.position) }

/-- Runs a call when `room` more frames may be put on the stack. The limit itself is for the
error, which comes before any argument is evaluated. -/
def call (a : Analysis) (limit : Nat) : (room : Nat) → Call → Action Unit
  | 0, c => do
      let p ← Action.ofStack fun _ => a.callee c
      throw (.callDepthExceeded p.name limit c.position)
  | room + 1, c => do
      let p ← Action.ofStack fun _ => a.callee c
      let frame ← Action.ofStack (a.calleeFrame p c)
      Action.note fun _ => s!"ENTER: PROCEDURE {p.name}"
      let _ ← (Action.inFrame frame (a.execAll (a.call limit room) p.block.body)).afterwards
        (·.trace fun _ => s!"LEAVE: PROCEDURE {p.name}")

/-- Runs a statement on the stack as it is. The frame of the program does not count for the
limit. -/
def execStatement (a : Analysis) (limit : Nat) (s : Statement) : Action Unit := fun m =>
  a.exec (a.call limit (limit + 1 - m.stack.size)) s m

/-- Runs a program. The result is the frame of the program as it is in the end. -/
def interpret (a : Analysis) (limit : Nat) (program : Program) : Action Frame := do
  Action.note fun _ => s!"ENTER: PROGRAM {program.name}"
  let frame : Frame := { name := program.name, kind := .program, level := 1, link := none }
  let last ← Action.inFrame frame fun m =>
    a.execAll (a.call limit (limit + 1 - m.stack.size)) program.block.body m
  match last with
  | some frame => return frame
  | none => throw (.missingFrame program.name 1 program.position)

end Analysis

end MiniPascal

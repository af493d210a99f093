import MiniPascal.Machine.Eval
import MiniPascal.Machine.Output

/-!
A reference evaluator, which gives programs their meaning by lexical scoping alone. It has no
analysis, no levels, no numbers of uses and no call stack. An environment binds names, the
latest first; variables are bound to locations in a store that only grows; a procedure is bound
together with the environment of its declaration.
-/

namespace MiniPascal

namespace Reference

/-- What a name is bound to. A procedure comes with the environment before its declaration. -/
inductive Binding where
  | var (type : DataType) (location : Nat)
  | procedure (p : Procedure) (env : List (String × Binding))

abbrev Env := List (String × Binding)

/-- A location without a value is not assigned. -/
abbrev Store := List (Option Value)

namespace Env

/-- Names are found by their spelling, innermost first. -/
def lookup? (name : String) : Env → Option Binding
  | [] => none
  | (other, binding) :: env => if other = name then some binding else lookup? name env

/-- Binds variables to the locations from `next` on. -/
def declareVars : List VarDecl → (next : Nat) → Env → Env
  | [], _, env => env
  | d :: decls, next, env => declareVars decls (next + 1) ((d.name, .var d.type next) :: env)

def declareProcedure (p : Procedure) (env : Env) : Env := (p.name, .procedure p env) :: env

def declareProcedures : List Procedure → Env → Env
  | [], env => env
  | p :: procedures, env => declareProcedures procedures (declareProcedure p env)

/-- The environment of the body of a block, whose variables come after the parameters
`params`. -/
def enter (params : List VarDecl) (block : Block) (next : Nat) (env : Env) : Env :=
  declareProcedures block.procedures (declareVars (params ++ block.vars) next env)

/-- The value of the variable of that name. -/
def value? (env : Env) (store : Store) (name : String) : Option Value :=
  match env.lookup? name with
  | some (.var _ location) => store[location]?.join
  | _ => none

end Env

/-! ### Expressions -/

/-- Operands are evaluated from left to right. -/
def eval (env : Env) (store : Store) : Expr → Except RuntimeError Value
  | .var v =>
      match env.lookup? v.name with
      | some (.var _ location) =>
          match store[location]?.join with
          | some value => .ok value
          | none => .error (.uninitialized v.name v.position)
      | _ => .error (.unresolved v.name v.position)
  | .binary op left right position => do
      let l ← eval env store left
      let r ← eval env store right
      Analysis.raise position (op.apply l r)
  | .unary op operand position => do
      let v ← eval env store operand
      Analysis.raise position (op.apply v)
  | .literal v => .ok v

def evalAll (env : Env) (store : Store) : List Expr → Except RuntimeError (List Value)
  | [] => .ok []
  | e :: es => do
      let v ← eval env store e
      return v :: (← evalAll env store es)

/-- The values of parameters. An argument is evaluated and made a value of the type of its
parameter before the next one is evaluated. -/
def evalArgs (env : Env) (store : Store) (position : Position) :
    List VarDecl → List Expr → Except RuntimeError (List Value)
  | param :: params, arg :: args => do
      let v ← eval env store arg
      let v ← Analysis.store param.name param.type position v
      return v :: (← evalArgs env store position params args)
  | _, _ => .ok []

/-! ### Statements -/

structure State where
  store : Store
  output : Output

abbrev Run := EStateM RuntimeError State

namespace Run

/-- A result that depends on the store alone. -/
def ofStore {α : Type} (f : Store → Except RuntimeError α) : Run α := fun st =>
  match f st.store with
  | .ok a => .ok a st
  | .error e => .error e st

def write (text : String) : Run Unit := fun st =>
  match st.output.write text with
  | (true, output) => .ok () { st with output }
  | (false, output) => .error (.output Output.fullMessage) { st with output }

end Run

/-- The value is evaluated before the target is looked for. -/
def assign (env : Env) (target : Variable) (value : Expr) : Run Unit := do
  let v ← Run.ofStore (eval env · value)
  match env.lookup? target.name with
  | some (.var type location) =>
      let v ← Run.ofStore fun _ => Analysis.store target.name type target.position v
      modify fun st => { st with store := st.store.set location (some v) }
  | _ => throw (.unresolved target.name target.position)

/-- All arguments are evaluated before anything is written. -/
def write (env : Env) (newline : Bool) (args : List Expr) : Run Unit := do
  let values ← Run.ofStore (evalAll env · args)
  Run.write (String.join (values.map Value.text) ++ if newline then "\n" else "")

mutual

/-- Runs a statement, given how calls are run. -/
def exec (env : Env) (call : Env → Call → Run Unit) : Statement → Run Unit
  | .compound body => execAll env call body
  | .assign target value => assign env target value
  | .call c => call env c
  | .write newline args _ => write env newline args
  | .empty => return ()

def execAll (env : Env) (call : Env → Call → Run Unit) : List Statement → Run Unit
  | [] => return ()
  | s :: statements => do
      exec env call s
      execAll env call statements

end

/-- The procedure that a call means, and the environment of its declaration, with itself in
it. -/
def callee (env : Env) (c : Call) : Except RuntimeError (Procedure × Env) :=
  match env.lookup? c.name with
  | some (.procedure p outer) =>
      if p.params.length = c.args.length then .ok (p, Env.declareProcedure p outer)
      else .error (.argumentCount p.name p.params.length c.args.length c.position)
  | _ => .error (.unresolved c.name c.position)

/-- Runs a call when `room` more procedures may become active. The parameters and the variables
of the procedure get locations of their own, and the variables are not assigned. -/
def call (limit : Nat) : (room : Nat) → Env → Call → Run Unit
  | 0, env, c => do
      let (p, _) ← Run.ofStore fun _ => callee env c
      throw (.callDepthExceeded p.name limit c.position)
  | room + 1, env, c => do
      let (p, outer) ← Run.ofStore fun _ => callee env c
      let values ← Run.ofStore (evalArgs env · c.position p.params c.args)
      let next := (← get).store.length
      modify fun st =>
        { st with store := st.store ++ (values.map some ++ p.block.vars.map fun _ => none) }
      execAll (Env.enter p.params p.block next outer) (call limit room) p.block.body

/-- The environment of the body of a program. -/
def globalEnv (program : Program) : Env := Env.enter [] program.block 0 []

/-- Runs a program. -/
def interpret (limit : Nat) (program : Program) : Run Unit := do
  modify fun st => { st with store := program.block.vars.map fun _ => none }
  execAll (globalEnv program) (call limit limit) program.block.body

end Reference

end MiniPascal

import MiniPascal.Proofs.Reference.Agreement
import MiniPascal.Proofs.Renaming.Capture

/-!
The reference evaluator on a program with other names. Environments are looked up by spelling;
as long as uses are kept apart from the names in front of what they mean, the evaluator finds
the same locations and the same procedures under the names that they become. So it does the
same, and its errors differ in their names alone.
-/

namespace MiniPascal

/-- The error about other names. -/
def RuntimeError.mapNames (f : String → String) : RuntimeError → RuntimeError
  | .arithmetic fault position => .arithmetic fault position
  | .incompatibleAssignment name declared actual position =>
      .incompatibleAssignment (f name) declared actual position
  | .uninitialized name position => .uninitialized (f name) position
  | .argumentCount name expected found position =>
      .argumentCount (f name) expected found position
  | .unresolved name position => .unresolved (f name) position
  | .missingFrame name level position => .missingFrame (f name) level position
  | .callDepthExceeded name limit position => .callDepthExceeded (f name) limit position
  | .output reason => .output reason

theorem mapError_bind {ε ε' α β : Type} (h : ε → ε') (x : Except ε α) (g : α → Except ε β) :
    (x >>= g).mapError h = x.mapError h >>= fun r => (g r).mapError h := by
  cases x <;> rfl

namespace Reference

/-! ### Environments -/

mutual

def Binding.mapNames (f : String → String) : Binding → Binding
  | .var type location => .var type location
  | .procedure p env => .procedure (p.mapNames f) (Env.mapNames f env)

def Env.mapNames (f : String → String) : List (String × Binding) → List (String × Binding)
  | [] => []
  | entry :: env => Env.mapEntry f entry :: Env.mapNames f env

def Env.mapEntry (f : String → String) : String × Binding → String × Binding
  | (name, b) => (f name, b.mapNames f)

end

variable {f : String → String} {tail : List String}

namespace Env

variable {env outer : Env} {name : String}

/-- The names that are bound, the latest first. -/
def names (env : Env) : List String := env.map Prod.fst

@[simp]
theorem mapNames_declareVars (f : String → String) (decls : List VarDecl) (next : Nat)
    (env : Env) :
    mapNames f (declareVars decls next env) =
      declareVars (decls.map (VarDecl.mapNames f)) next (mapNames f env) := by
  induction decls generalizing next env with
  | nil => rfl
  | cons d decls ih => exact ih (next + 1) ((d.name, .var d.type next) :: env)

@[simp]
theorem mapNames_declareProcedure (f : String → String) (p : Procedure) (env : Env) :
    mapNames f (declareProcedure p env) = declareProcedure (p.mapNames f)
      (mapNames f env) := by
  rw [declareProcedure, declareProcedure, p.name_mapNames]
  rfl

@[simp]
theorem mapNames_declareProcedures (f : String → String) (procedures : List Procedure)
    (env : Env) :
    mapNames f (declareProcedures procedures env) =
      declareProcedures (procedures.map (Procedure.mapNames f)) (mapNames f env) := by
  induction procedures generalizing env with
  | nil => rfl
  | cons p procedures ih =>
      rw [declareProcedures, ih, mapNames_declareProcedure, List.map_cons, declareProcedures]

@[simp]
theorem mapNames_enter (f : String → String) (params : List VarDecl) (block : Block)
    (next : Nat) (env : Env) :
    mapNames f (enter params block next env) =
      enter (params.map (VarDecl.mapNames f)) (block.mapNames f) next (mapNames f env) := by
  rw [enter, mapNames_declareProcedures, mapNames_declareVars, enter,
    Block.procedures_mapNames, Block.vars_mapNames, List.map_append]

@[simp]
theorem names_declareVars (decls : List VarDecl) (next : Nat) (env : Env) :
    names (declareVars decls next env) = (decls.map VarDecl.name).reverse ++ env.names := by
  induction decls generalizing next env with
  | nil => rfl
  | cons d decls ih =>
      rw [declareVars, ih, List.map_cons, List.reverse_cons, List.append_assoc]
      rfl

@[simp]
theorem names_declareProcedures (procedures : List Procedure) (env : Env) :
    names (declareProcedures procedures env) =
      (procedures.map Procedure.name).reverse ++ env.names := by
  induction procedures generalizing env with
  | nil => rfl
  | cons p procedures ih =>
      rw [declareProcedures, ih, List.map_cons, List.reverse_cons, List.append_assoc]
      rfl

theorem names_enter (params : List VarDecl) (block : Block) (next : Nat) (env : Env) :
    names (enter params block next env) = (block.procedures.map Procedure.name).reverse ++
      ((block.vars.map VarDecl.name).reverse ++
        ((params.map VarDecl.name).reverse ++ env.names)) := by
  rw [enter, names_declareProcedures, names_declareVars, List.map_append, List.reverse_append,
    List.append_assoc]

/-- Further out there may be other names, which are bound to nothing here. -/
theorem lookup?_mapNames (h : Apart f (env.names ++ tail) name) :
    lookup? (f name) (mapNames f env) = (lookup? name env).map (Binding.mapNames f) := by
  induction env with
  | nil => rfl
  | cons entry env ih =>
      obtain ⟨other, b⟩ := entry
      rw [mapNames, mapEntry]
      rcases h with rfl | ⟨hne, hrest⟩
      · rw [lookup?_cons_self, lookup?_cons_self, Option.map_some]
      · have hne' : other ≠ name := fun heq => hne (congrArg f heq)
        rw [lookup?_cons_of_ne hne, lookup?_cons_of_ne hne', ih hrest]

theorem value?_mapNames (h : MiniPascal.Apart f (env.names ++ tail) name) (store : Store) :
    value? (mapNames f env) store (f name) = value? env store name := by
  rw [value?, value?, lookup?_mapNames h]
  rcases lookup? name env with _ | ⟨type, location⟩ | ⟨p, outer⟩ <;> rfl

/-- The procedures that are bound keep their uses apart. -/
inductive Apart (f : String → String) (tail : List String) : Env → Prop
  | nil : Apart f tail []
  | var {name : String} {type : DataType} {location : Nat} {env : Env} :
      Apart f tail env → Apart f tail ((name, .var type location) :: env)
  | procedure {p : Procedure} {env : Env} :
      Apart f tail env → p.Apart f (env.names ++ tail) → Apart f tail (declareProcedure p env)

theorem Apart.of_lookup? {p : Procedure} (h : Apart f tail env)
    (hp : lookup? name env = some (.procedure p outer)) :
    Apart f tail outer ∧ p.Apart f (outer.names ++ tail) := by
  induction h with
  | nil => cases hp
  | @var other type location env _ ih =>
      by_cases hname : other = name
      · rw [hname, lookup?_cons_self] at hp
        cases hp
      · rw [lookup?_cons_of_ne hname] at hp
        exact ih hp
  | @procedure q env henv hq ih =>
      rw [declareProcedure] at hp
      by_cases hname : q.name = name
      · rw [hname, lookup?_cons_self] at hp
        cases hp
        exact ⟨henv, hq⟩
      · rw [lookup?_cons_of_ne hname] at hp
        exact ih hp

theorem Apart.declareVars (h : Apart f tail env) (decls : List VarDecl) (next : Nat) :
    Apart f tail (declareVars decls next env) := by
  induction decls generalizing next env with
  | nil => exact h
  | cons d decls ih => exact ih h.var (next + 1)

theorem Apart.declareProcedures {procedures : List Procedure} (h : Apart f tail env)
    (hprocedures : Procedure.ApartAll f (env.names ++ tail) procedures) :
    Apart f tail (declareProcedures procedures env) := by
  induction procedures generalizing env with
  | nil => exact h
  | cons p procedures ih => exact ih (h.procedure hprocedures.1) hprocedures.2

/-- In the environment of a body its uses are kept apart, too. -/
theorem Apart.enter {params : List VarDecl} {block : Block} (h : Apart f tail env)
    (hblock : block.Apart f ((params.map VarDecl.name).reverse ++ (env.names ++ tail)))
    (next : Nat) :
    Apart f tail (enter params block next env) ∧
      ∀ u ∈ Statement.usesAll block.body,
        MiniPascal.Apart f (names (Env.enter params block next env) ++ tail) u.name := by
  obtain ⟨vars, procedures, body⟩ := block
  obtain ⟨hprocedures, hbody⟩ := hblock
  constructor
  · refine (h.declareVars _ _).declareProcedures ?_
    rw [names_declareVars, List.map_append, List.reverse_append, List.append_assoc,
      List.append_assoc]
    exact hprocedures
  · rw [names_enter, List.append_assoc, List.append_assoc, List.append_assoc]
    exact hbody

end Env

/-! ### Expressions -/

section Expressions

variable {env : Env} {name : String} {position : Position} {type : DataType}

@[simp]
theorem mapError_raise (position : Position) (r : Except ArithmeticFault Value) :
    (Analysis.raise position r).mapError (RuntimeError.mapNames f) =
      Analysis.raise position r := by
  cases r <;> rfl

theorem store_mapNames (f : String → String) (name : String) (type : DataType)
    (position : Position) (v : Value) :
    Analysis.store (f name) type position v =
      (Analysis.store name type position v).mapError (RuntimeError.mapNames f) := by
  rw [Analysis.store, Analysis.store]
  cases v.coerce? type <;> rfl

theorem eval_mapNames {e : Expr} (h : ∀ u ∈ e.uses, Apart f (env.names ++ tail) u.name)
    (store : Store) :
    eval (Env.mapNames f env) store (e.mapNames f) =
      (eval env store e).mapError (RuntimeError.mapNames f) := by
  induction e with
  | var v =>
      have hlookup : Env.lookup? (v.mapNames f).name (Env.mapNames f env) =
          (env.lookup? v.name).map (Binding.mapNames f) :=
        Env.lookup?_mapNames (h (.var v) List.mem_cons_self)
      rw [Expr.mapNames, eval, eval, hlookup]
      rcases env.lookup? v.name with _ | ⟨type, location⟩ | ⟨p, outer⟩
      · rfl
      · simp only [Option.map_some, Binding.mapNames]
        cases store[location]?.join <;> rfl
      · rfl
  | binary op left right position ihl ihr =>
      obtain ⟨hl, hr⟩ := List.forall_mem_append.mp h
      rw [Expr.mapNames, eval, eval, ihl hl, mapError_bind, ihr hr]
      simp only [mapError_bind, mapError_raise]
  | unary op operand position ih =>
      rw [Expr.mapNames, eval, eval, ih h]
      simp only [mapError_bind, mapError_raise]
  | literal v => rfl

theorem evalAll_mapNames {args : List Expr}
    (h : ∀ u ∈ args.flatMap Expr.uses, Apart f (env.names ++ tail) u.name) (store : Store) :
    evalAll (Env.mapNames f env) store (args.map (Expr.mapNames f)) =
      (evalAll env store args).mapError (RuntimeError.mapNames f) := by
  induction args with
  | nil => rfl
  | cons arg args ih =>
      rw [List.flatMap_cons, List.forall_mem_append] at h
      rw [List.map_cons, evalAll, evalAll, eval_mapNames h.1, ih h.2]
      simp only [mapError_bind]
      rfl

theorem evalArgs_mapNames {args : List Expr}
    (h : ∀ u ∈ args.flatMap Expr.uses, Apart f (env.names ++ tail) u.name) (store : Store)
    (position : Position) (params : List VarDecl) :
    evalArgs (Env.mapNames f env) store position (params.map (VarDecl.mapNames f))
        (args.map (Expr.mapNames f)) =
      (evalArgs env store position params args).mapError (RuntimeError.mapNames f) := by
  induction params generalizing args with
  | nil => cases args <;> rfl
  | cons param params ih =>
      cases args with
      | nil => rfl
      | cons arg args =>
          rw [List.flatMap_cons, List.forall_mem_append] at h
          rw [List.map_cons, List.map_cons, evalArgs, evalArgs, eval_mapNames h.1, ih h.2]
          simp only [VarDecl.mapNames, store_mapNames, mapError_bind]
          rfl

end Expressions

/-! ### Statements -/

/-- The run whose error, if it ends with one, is about other names. -/
def Run.mapNames {α : Type} (f : String → String) (x : Run α) : Run α := fun st =>
  match x st with
  | .ok r st' => .ok r st'
  | .error e st' => .error (e.mapNames f) st'

namespace Run

variable {α β : Type} {x : Run α} {g : α → Run β} {st st' : State}

theorem mapNames_of_ok {r : α} (h : x st = .ok r st') : mapNames f x st = .ok r st' := by
  rw [mapNames, h]

theorem mapNames_of_error {e : RuntimeError} (h : x st = .error e st') :
    mapNames f x st = .error (e.mapNames f) st' := by
  rw [mapNames, h]

theorem mapNames_bind (f : String → String) (x : Run α) (g : α → Run β) :
    mapNames f (x >>= g) = mapNames f x >>= fun r => mapNames f (g r) := by
  funext st
  cases hx : x st with
  | ok r st' => rw [bind_of_ok (mapNames_of_ok hx), mapNames, mapNames, bind_of_ok hx]
  | error e st' =>
      rw [bind_of_error (mapNames_of_error hx), mapNames_of_error (bind_of_error hx)]

theorem mapNames_ofStore (f : String → String) (g : Store → Except RuntimeError α) :
    mapNames f (ofStore g) = ofStore fun store =>
      (g store).mapError (RuntimeError.mapNames f) := by
  funext st
  rw [mapNames, ofStore, ofStore]
  cases g st.store <;> rfl

@[simp]
theorem mapNames_write (f : String → String) (text : String) :
    mapNames f (write text) = write text := by
  funext st
  rw [mapNames, write]
  rcases st.output.write text with ⟨_ | _, output⟩ <;> rfl

end Run

section Statements

variable {env : Env}

theorem assign_mapNames {target : Variable} {value : Expr}
    (h : ∀ u ∈ (Statement.assign target value).uses, Apart f (env.names ++ tail) u.name) :
    assign (Env.mapNames f env) (target.mapNames f) (value.mapNames f) =
      Run.mapNames f (assign env target value) := by
  obtain ⟨htarget, hvalue⟩ := List.forall_mem_cons.mp h
  have hlookup : Env.lookup? (target.mapNames f).name (Env.mapNames f env) =
      (env.lookup? target.name).map (Binding.mapNames f) := Env.lookup?_mapNames htarget
  rw [assign, assign, Run.mapNames_bind, Run.mapNames_ofStore, hlookup]
  simp only [eval_mapNames hvalue]
  congr 1
  funext v
  rcases env.lookup? target.name with _ | ⟨type, location⟩ | ⟨p, outer⟩
  · rfl
  · simp only [Option.map_some, Binding.mapNames, Run.mapNames_bind, Run.mapNames_ofStore,
      Variable.mapNames, store_mapNames]
    rfl
  · rfl

theorem write_mapNames {args : List Expr}
    (h : ∀ u ∈ args.flatMap Expr.uses, Apart f (env.names ++ tail) u.name) (newline : Bool) :
    write (Env.mapNames f env) newline (args.map (Expr.mapNames f)) =
      Run.mapNames f (write env newline args) := by
  rw [write, write, Run.mapNames_bind, Run.mapNames_ofStore]
  simp only [evalAll_mapNames h, Run.mapNames_write]

mutual

theorem exec_mapNames {call : Env → Call → Run Unit}
    (hcall : ∀ c, (∀ u ∈ (Statement.call c).uses, Apart f (env.names ++ tail) u.name) →
      call (Env.mapNames f env) (c.mapNames f) = Run.mapNames f (call env c)) :
    ∀ s : Statement, (∀ u ∈ s.uses, Apart f (env.names ++ tail) u.name) →
      exec (Env.mapNames f env) call (s.mapNames f) = Run.mapNames f (exec env call s)
  | .compound body, h => by
      rw [Statement.mapNames, exec, exec, execAll_mapNames hcall body h]
  | .assign target value, h => by
      rw [Statement.mapNames, exec, exec, assign_mapNames h]
  | .call c, h => by
      rw [Statement.mapNames, exec, exec, hcall c h]
  | .write newline args position, h => by
      rw [Statement.mapNames, exec, exec, write_mapNames h]
  | .empty, _ => rfl

theorem execAll_mapNames {call : Env → Call → Run Unit}
    (hcall : ∀ c, (∀ u ∈ (Statement.call c).uses, Apart f (env.names ++ tail) u.name) →
      call (Env.mapNames f env) (c.mapNames f) = Run.mapNames f (call env c)) :
    ∀ body : List Statement,
      (∀ u ∈ Statement.usesAll body, Apart f (env.names ++ tail) u.name) →
      execAll (Env.mapNames f env) call (Statement.mapNamesAll f body) =
        Run.mapNames f (execAll env call body)
  | [], _ => rfl
  | s :: body, h => by
      obtain ⟨hs, hbody⟩ := List.forall_mem_append.mp h
      rw [Statement.mapNamesAll, execAll, execAll, Run.mapNames_bind, exec_mapNames hcall s hs,
        execAll_mapNames hcall body hbody]

end

end Statements

/-! ### Calls -/

section Calls

variable {env outer : Env} {c : Call} {p : Procedure} {st : State}

theorem callee_mapNames (h : Apart f (env.names ++ tail) c.name) :
    callee (Env.mapNames f env) (c.mapNames f) =
      ((callee env c).map fun r => (r.1.mapNames f, Env.mapNames f r.2)).mapError
        (RuntimeError.mapNames f) := by
  have hlookup : Env.lookup? (c.mapNames f).name (Env.mapNames f env) =
      (env.lookup? c.name).map (Binding.mapNames f) := Env.lookup?_mapNames h
  rw [callee, callee, hlookup]
  rcases env.lookup? c.name with _ | ⟨type, location⟩ | ⟨p, outer⟩
  · rfl
  · rfl
  · simp only [Option.map_some, Binding.mapNames, Procedure.params_mapNames,
      Procedure.name_mapNames, Call.mapNames, List.length_map, ← Env.mapNames_declareProcedure]
    split <;> rfl

theorem exists_of_callee (h : callee env c = .ok (p, outer)) :
    ∃ env', env.lookup? c.name = some (.procedure p env') ∧
    outer = Env.declareProcedure p env' := by
  rw [callee] at h
  split at h
  next p' env' hlookup =>
    split at h <;> cases h
    exact ⟨env', hlookup, rfl⟩
  next => cases h

theorem call_of_error {e : RuntimeError} (h : callee env c = .error e) (limit room : Nat) :
    call limit room env c st = .error e st := by
  cases room <;> rw [call, bind_of_error (Run.ofStore_of_error h)]

/-- A body in the environment that its block makes. -/
theorem execAll_enter_mapNames {call : Env → Call → Run Unit} {params : List VarDecl}
    {block : Block} (hcall : ∀ (env : Env) (c : Call), env.Apart f tail →
      (∀ u ∈ (Statement.call c).uses, Apart f (env.names ++ tail) u.name) →
      call (Env.mapNames f env) (c.mapNames f) = Run.mapNames f (call env c))
    (henv : env.Apart f tail)
    (hblock : block.Apart f ((params.map VarDecl.name).reverse ++ (env.names ++ tail)))
    (next : Nat) :
    execAll (Env.enter (params.map (VarDecl.mapNames f)) (block.mapNames f) next
      (Env.mapNames f env))
        call (block.mapNames f).body =
      Run.mapNames f (execAll (Env.enter params block next env) call block.body) := by
  obtain ⟨hentered, hbody⟩ := henv.enter hblock next
  rw [← Env.mapNames_enter, Block.body_mapNames]
  exact execAll_mapNames (fun c hc => hcall _ c hentered hc) block.body hbody

theorem unassigned_mapNames (f : String → String) (b : Block) :
    ((b.mapNames f).vars.map fun _ => (none : Option Value)) = b.vars.map fun _ => none := by
  rw [b.vars_mapNames, List.map_map]
  rfl

/-- By induction on the room: the body of the callee is run with less of it. -/
theorem call_mapNames (limit room : Nat) (henv : env.Apart f tail)
    (h : ∀ u ∈ (Statement.call c).uses, Apart f (env.names ++ tail) u.name) :
    call limit room (Env.mapNames f env) (c.mapNames f) =
      Run.mapNames f (call limit room env c) := by
  induction room using Nat.strongRecOn generalizing env c with
  | ind room ih =>
      obtain ⟨hargs, hname⟩ := List.forall_mem_append.mp h
      have hcallee := callee_mapNames (hname (.call c) List.mem_cons_self)
      funext st
      cases hp : callee env c with
      | error e =>
          rw [hp] at hcallee
          rw [call_of_error hcallee, Run.mapNames_of_error (call_of_error hp limit room)]
      | ok r =>
          obtain ⟨p, outer⟩ := r
          rw [hp] at hcallee
          cases room with
          | zero =>
              rw [call_zero limit hcallee, Run.mapNames_of_error (call_zero limit hp),
                p.name_mapNames]
              rfl
          | succ room =>
              obtain ⟨env', hlookup, rfl⟩ := exists_of_callee hp
              obtain ⟨henv', hapart⟩ := henv.of_lookup? hlookup
              have hvalues : evalArgs (Env.mapNames f env) st.store (c.mapNames f).position
                  (p.mapNames f).params (c.mapNames f).args =
                    (evalArgs env st.store c.position p.params c.args).mapError
                      (RuntimeError.mapNames f) := by
                rw [p.params_mapNames]
                exact evalArgs_mapNames hargs st.store c.position p.params
              rw [call_succ limit room hcallee, Run.mapNames, call_succ limit room hp, hvalues]
              cases evalArgs env st.store c.position p.params c.args with
              | error e => rfl
              | ok values =>
                  have hbody := execAll_enter_mapNames
                    (fun env c henv hc => ih room (Nat.lt_succ_self room) henv hc)
                    (henv'.procedure hapart) hapart.block st.store.length
                  dsimp only [Except.mapError]
                  rw [p.params_mapNames, p.block_mapNames, unassigned_mapNames, hbody]
                  rfl

end Calls

/-! ### Programs -/

section Programs

variable {program : Program}

@[simp]
theorem mapNames_globalEnv (f : String → String) (program : Program) :
    Env.mapNames f (globalEnv program) = globalEnv (program.mapNames f) :=
  Env.mapNames_enter f [] program.block 0 []

theorem interpret_mapNames (h : program.Apart f) (limit : Nat) :
    interpret limit (program.mapNames f) = Run.mapNames f (interpret limit program) := by
  have hblock : program.block.Apart f ((([] : List VarDecl).map VarDecl.name).reverse ++
      (Env.names [] ++ View.names [Declaration.predeclared])) := h
  have hbody : execAll (globalEnv (program.mapNames f)) (call limit limit)
      (program.block.mapNames f).body =
        Run.mapNames f (execAll (globalEnv program) (call limit limit) program.block.body) :=
    execAll_enter_mapNames (fun env c henv hc => call_mapNames limit limit henv hc)
      .nil hblock 0
  rw [interpret, interpret, Run.mapNames_bind, ← hbody, Program.mapNames, unassigned_mapNames]
  rfl

end Programs

end Reference

end MiniPascal

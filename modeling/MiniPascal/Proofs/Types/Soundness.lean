import Mathlib.Data.List.Nodup
import MiniPascal.Proofs.Machine.Points
import MiniPascal.Proofs.Types.Typing

/-!
Type soundness. On every stack of a run the members of a frame are variables of the scope that
the frame runs, with values of the types that they are declared with; so the value of an
expression has the type that the declarations tell, and a program that is well typed never
fails because of a type.
-/

namespace MiniPascal

/-- Errors that come from the types of values. -/
inductive RuntimeError.OfTypes : RuntimeError → Prop
  | operation {fault : ArithmeticFault} (position : Position) :
      fault.OfTypes → OfTypes (.arithmetic fault position)
  | assignment (name : String) (declared actual : DataType) (position : Position) :
      OfTypes (.incompatibleAssignment name declared actual position)

/-! ### Frames -/

namespace Frame

/-- Every member is a variable that the scope of the path declares, with a value of its
type. -/
def Typed (program : Program) (path : List Nat) (f : Frame) : Prop :=
  ∀ name v, f.get? name = some v →
    ∃ d, program.Declares path (.var d) ∧ d.name = name ∧ v.type = d.type

theorem typed_empty {program : Program} {path : List Nat} {f : Frame} (h : f.members = {}) :
    f.Typed program path := by
  intro name v hv
  simp [get?, h] at hv

theorem Typed.set {program : Program} {path : List Nat} {f : Frame} {d : VarDecl} {v : Value}
    (h : f.Typed program path) (hd : program.Declares path (.var d)) (hv : v.type = d.type) :
    (f.set d.name v).Typed program path := by
  intro name w hw
  rcases get?_set_eq_some hw with ⟨rfl, rfl⟩ | hw
  · exact ⟨d, hd, rfl, hv⟩
  · exact h name w hw

end Frame

/-- In a program without errors a scope declares a variable once. -/
theorem Analysis.Resolves.eq_of_name {a : Analysis} {program : Program} {path : List Nat}
    {d d' : VarDecl} (h : a.Resolves program) (hd : program.Declares path (.var d))
    (hd' : program.Declares path (.var d')) (hname : d.name = d'.name) : d = d' := by
  obtain ⟨s, hs, hd⟩ := hd
  obtain ⟨s', hs', hd'⟩ := hd'
  obtain rfl := Option.some.inj (hs.symm.trans hs')
  exact Declaration.var.inj (List.inj_on_of_nodup_map (h.distinct hs) hd hd' hname)

/-! ### Stacks -/

/-- The frames run the scopes of the place, and their members are typed. -/
structure StandsTyped (a : Analysis) (program : Program) (place : Place) (stack : CallStack) :
    Prop where
  stands : Stands a program place.paths place.path place.site stack
  blocks : place.paths.map (fun path => (program.site? path).map Site.block) =
    place.blocks.map some
  typed {i : Nat} {f : Frame} {path : List Nat} :
    stack.get? i = some f → place.paths[i]? = some path → f.Typed program path

namespace StandsTyped

variable {a : Analysis} {program : Program} {place : Place} {stack : CallStack}

/-- A variable of the body is declared with the type of its binding, in the scope of the frame
that it lives in. -/
theorem var (h : StandsTyped a program place stack) {v : Variable}
    (hv : .var v ∈ Statement.usesAll place.site.block.body) :
    ∃ path d i, program.Declares path (.var d) ∧ d.name = v.name ∧
      a.binding? v.id = some ⟨path.length + 1, d.type⟩ ∧
      stack.findLevel (path.length + 1) = .found i ∧ place.paths[i]? = some path := by
  obtain ⟨path, d, i, -, hd, hname, hb, hi, hpath⟩ := h.stands.var hv
  exact ⟨path, d, i, hd, View.name_of_resolve? hname, hb, hi, hpath⟩

/-- What is read from a variable has the type of its binding. -/
theorem load_ok (h : StandsTyped a program place stack) {v : Variable} {value : Value}
    (hv : .var v ∈ Statement.usesAll place.site.block.body)
    (hload : a.load stack v = .ok value) :
    (a.binding? v.id).map VarBinding.type = some value.type := by
  obtain ⟨path, d, i, hd, hname, hb, hi, hpath⟩ := h.var hv
  rw [Analysis.load_eq hb hi] at hload
  cases hget : (stack.get? i).bind (·.get? v.name) with
  | none =>
      rw [hget] at hload
      cases hload
  | some w =>
      rw [hget] at hload
      cases hload
      obtain ⟨f, hf, hmember⟩ := Option.bind_eq_some_iff.mp hget
      obtain ⟨d', hd', hname', htype⟩ := h.typed hf hpath _ _ hmember
      obtain rfl := h.stands.resolves.eq_of_name hd hd' (hname.trans hname'.symm)
      rw [hb, htype]
      rfl

theorem load_error (h : StandsTyped a program place stack) {v : Variable} {e : RuntimeError}
    (hv : .var v ∈ Statement.usesAll place.site.block.body)
    (hload : a.load stack v = .error e) :
    ¬ e.OfTypes := by
  obtain ⟨path, d, i, -, -, hb, hi, -⟩ := h.var hv
  rw [Analysis.load_eq hb hi] at hload
  cases hget : (stack.get? i).bind (·.get? v.name) with
  | none =>
      rw [hget] at hload
      cases hload
      rintro ⟨⟩
  | some w =>
      rw [hget] at hload
      cases hload

/-- The value of an expression has its type. -/
theorem eval_ok (h : StandsTyped a program place stack) {e : Expr} {v : Value}
    (he : e.uses ⊆ Statement.usesAll place.site.block.body) (heval : a.eval stack e = .ok v) :
    a.type? e = some v.type := by
  induction e generalizing v with
  | var x => exact h.load_ok (he (List.mem_singleton.mpr rfl)) heval
  | literal w =>
      cases heval
      rfl
  | unary op operand position ih =>
      obtain ⟨w, hw, heval⟩ := exists_of_bind_eq_ok heval
      rw [Analysis.type?, ih he hw]
      exact UnaryOp.type?_of_apply (Analysis.raise_eq_ok heval)
  | binary op left right position ihl ihr =>
      obtain ⟨hleft, hright⟩ := List.append_subset.mp he
      obtain ⟨l, hl, heval⟩ := exists_of_bind_eq_ok heval
      obtain ⟨r, hr, heval⟩ := exists_of_bind_eq_ok heval
      rw [Analysis.type?, ihl hleft hl, ihr hright hr]
      exact BinaryOp.type?_of_apply (Analysis.raise_eq_ok heval)

/-- An expression that fails because of a type has no type. -/
theorem eval_error (h : StandsTyped a program place stack) {e : Expr} {err : RuntimeError}
    (he : e.uses ⊆ Statement.usesAll place.site.block.body)
    (heval : a.eval stack e = .error err) (herr : err.OfTypes) : a.type? e = none := by
  induction e with
  | var x => exact absurd herr (h.load_error (he (List.mem_singleton.mpr rfl)) heval)
  | literal w => cases heval
  | unary op operand position ih =>
      rcases error_of_bind_eq_error heval with heval | ⟨w, hw, heval⟩
      · rw [Analysis.type?, ih he heval]
        rfl
      · obtain ⟨fault, hfault, rfl⟩ := Analysis.raise_eq_error heval
        obtain ⟨_, htypes⟩ := herr
        have hoperand : a.type? operand = some w.type := h.eval_ok (e := operand) he hw
        rw [Analysis.type?, hoperand]
        exact UnaryOp.type?_of_apply_error hfault htypes
  | binary op left right position ihl ihr =>
      obtain ⟨hleft, hright⟩ := List.append_subset.mp he
      rcases error_of_bind_eq_error heval with heval | ⟨l, hl, heval⟩
      · rw [Analysis.type?, ihl hleft heval]
        rfl
      · rcases error_of_bind_eq_error heval with heval | ⟨r, hr, heval⟩
        · rw [Analysis.type?, h.eval_ok hleft hl, ihr hright heval]
          rfl
        · obtain ⟨fault, hfault, rfl⟩ := Analysis.raise_eq_error heval
          obtain ⟨_, htypes⟩ := herr
          rw [Analysis.type?, h.eval_ok hleft hl, h.eval_ok hright hr]
          exact BinaryOp.type?_of_apply_error hfault htypes

theorem evalAll_error (h : StandsTyped a program place stack) {args : List Expr}
    {err : RuntimeError} (hargs : args.flatMap Expr.uses ⊆
      Statement.usesAll place.site.block.body)
    (heval : a.evalAll stack args = .error err) (herr : err.OfTypes) :
    ∃ e ∈ args, a.type? e = none := by
  induction args with
  | nil => cases heval
  | cons e args ih =>
      rw [List.flatMap_cons] at hargs
      obtain ⟨he, hrest⟩ := List.append_subset.mp hargs
      rcases error_of_bind_eq_error heval with heval | ⟨v, -, heval⟩
      · exact ⟨e, List.mem_cons_self, h.eval_error he heval herr⟩
      · rcases error_of_bind_eq_error heval with heval | ⟨vs, -, heval⟩
        · obtain ⟨e', he', hnone⟩ := ih hrest heval
          exact ⟨e', List.mem_cons_of_mem e he', hnone⟩
        · cases heval

end StandsTyped

/-! ### Storing -/

theorem Analysis.store_ok {name : String} {type : DataType} {position : Position} {v w : Value}
    (h : Analysis.store name type position v = .ok w) : w.type = type := by
  rw [Analysis.store] at h
  split at h
  next hcoerce =>
    cases h
    exact Value.type_of_coerce? hcoerce
  next => cases h

theorem Analysis.store_error {name : String} {type : DataType}
    {position : Position} {v : Value} {e : RuntimeError}
    (h : Analysis.store name type position v = .error e) :
    type.accepts v.type = false := by
  rw [Analysis.store] at h
  split at h
  next => cases h
  next hcoerce =>
    rw [DataType.accepts_iff_coerce?, hcoerce]
    rfl

theorem CallStack.not_ofTypes_of_frameIndex {stack : CallStack} {name : String} {level : Nat}
    {position : Position} {e : RuntimeError}
    (h : stack.frameIndex name level position = .error e) :
    ¬ e.OfTypes := by
  rw [CallStack.frameIndex] at h
  split at h
  · cases h
  · cases h
    rintro ⟨⟩

namespace StandsTyped

variable {a : Analysis} {program : Program} {place : Place} {stack : CallStack}

/-- An argument or a value that is stored and fails because of a type does not fit. -/
theorem store_error (h : StandsTyped a program place stack) {e : Expr} {name : String}
    {type : DataType} {position : Position} {err : RuntimeError}
    (he : e.uses ⊆ Statement.usesAll place.site.block.body)
    (hstore : (a.eval stack e >>= Analysis.store name type position) = .error err)
    (herr : err.OfTypes) : a.fits type e = false := by
  rcases error_of_bind_eq_error hstore with heval | ⟨v, hv, hstore⟩
  · exact Analysis.fits_eq_false_of_none (h.eval_error he heval herr)
  · rw [Analysis.fits_eq_of_some (h.eval_ok he hv)]
    exact Analysis.store_error hstore

theorem bindParams_error (h : StandsTyped a program place stack) {position : Position}
    {params : List VarSymbol} {args : List Expr} {frame : Frame} {err : RuntimeError}
    (hargs : args.flatMap Expr.uses ⊆ Statement.usesAll place.site.block.body)
    (hbind : a.bindParams stack position params args frame = .error err) (herr : err.OfTypes) :
    ∃ r ∈ params.zip args, a.fits r.1.type r.2 = false := by
  induction args generalizing params frame with
  | nil => cases params <;> cases hbind
  | cons e args ih =>
      cases params with
      | nil => cases hbind
      | cons param params =>
          rw [List.flatMap_cons] at hargs
          obtain ⟨he, hrest⟩ := List.append_subset.mp hargs
          rw [List.zip_cons_cons]
          rw [Analysis.bindParams, ← bind_assoc] at hbind
          rcases error_of_bind_eq_error hbind with hstore | ⟨v, -, hbind⟩
          · exact ⟨_, List.mem_cons_self, h.store_error he hstore herr⟩
          · obtain ⟨r, hr, hfits⟩ := ih hrest hbind
            exact ⟨r, List.mem_cons_of_mem _ hr, hfits⟩

/-- Assigning to a variable of the body. -/
theorem assign (h : StandsTyped a program place stack) {target : Variable}
    {v w : Value} {i : Nat} (htarget : .var target ∈ Statement.usesAll place.site.block.body)
    (hdestination : a.destination target v stack = .ok (i, w)) :
    StandsTyped a program place (stack.assign i target.name w) := by
  obtain ⟨path, d, j, hd, hname, hb, hj, hpath⟩ := h.var htarget
  rw [Analysis.destination_eq hb hj] at hdestination
  cases hstore : Analysis.store target.name d.type target.position v with
  | error e =>
      rw [hstore] at hdestination
      cases hdestination
  | ok w' =>
      rw [hstore] at hdestination
      cases hdestination
      refine ⟨h.stands.assign _ _ _, h.blocks, ?_⟩
      intro k f path' hf hpath'
      obtain ⟨f₀, hf₀, rfl⟩ := CallStack.exists_of_get?_assign hf
      split
      next hjk =>
        subst hjk
        obtain rfl := Option.some.inj (hpath.symm.trans hpath')
        rw [← hname]
        exact (h.typed hf₀ hpath).set hd (Analysis.store_ok hstore)
      next => exact h.typed hf₀ hpath'

end StandsTyped

/-- A frame is typed when parameters that its scope declares have been bound in it. -/
theorem Analysis.bindParams_typed {a : Analysis} {stack : CallStack} {position : Position}
    {program : Program} {path : List Nat} {params : List VarDecl} {args : List Expr}
    {frame frame' : Frame} (hparams : ∀ d ∈ params, program.Declares path (.var d))
    (hframe : frame.Typed program path)
    (h : a.bindParams stack position (params.map VarDecl.symbol) args frame = .ok frame') :
    frame'.Typed program path := by
  induction args generalizing params frame with
  | nil => cases params <;> cases h <;> exact hframe
  | cons e args ih =>
      cases params with
      | nil =>
          cases h
          exact hframe
      | cons d params =>
          obtain ⟨v, -, h⟩ := exists_of_bind_eq_ok h
          obtain ⟨w, hw, h⟩ := exists_of_bind_eq_ok h
          refine ih (fun d' hd' => hparams d' (List.mem_cons_of_mem d hd')) ?_ h
          exact hframe.set (hparams d List.mem_cons_self) (Analysis.store_ok hw)

theorem Site.declares_param {program : Program} {path : List Nat} {s : Site} {k : Nat}
    {p : Procedure} (hs : program.site? path = some s) (hp : s.block.procedures[k]? = some p)
    {d : VarDecl} (hd : d ∈ p.params) : program.Declares (k :: path) (.var d) := by
  refine ⟨s.inside k p, Program.site?_cons hs hp, ?_⟩
  exact List.mem_append_left _ (List.mem_append_left _ (List.mem_map_of_mem hd))

/-! ### The discipline of types -/

namespace StandsTyped

variable {a : Analysis} {program : Program} {place : Place} {stack : CallStack}

/-- The place in the body of a call, when its frame is on the stack. -/
theorem enter (h : StandsTyped a program place stack) {c : Call} {p : ProcedureSymbol}
    {frame : Frame} (hc : .call c ∈ Statement.usesAll place.site.block.body)
    (hp : a.callee c = .ok p) (hframe : a.calleeFrame p c stack = .ok frame) :
    ∃ path s, s.block = p.block ∧ program.site? path = some s ∧
      StandsTyped a program ⟨place.blocks ++ [p.block], place.paths ++ [path], path, s⟩
        (stack.push frame) := by
  obtain ⟨declaring, s₀, k, q, hs₀, hq, rfl, hstands⟩ := h.stands.enter_inside hc hp hframe
  refine ⟨k :: declaring, s₀.inside k q, rfl, hstands.site, hstands,
    Program.map_site?_concat h.blocks hstands.site, ?_⟩
  intro i f path hf hpath
  have hsize := h.stands.chain.size
  rcases CallStack.get?_push_eq_some hf with hf | ⟨rfl, rfl⟩
  · have hlt : i < place.paths.length := hsize ▸ CallStack.lt_size_of_get? hf
    rw [List.getElem?_append_left hlt] at hpath
    exact h.typed hf hpath
  · rw [hsize, List.getElem?_concat_length] at hpath
    obtain rfl := Option.some.inj hpath
    obtain ⟨frame', hbind, hlink⟩ := exists_of_bind_eq_ok hframe
    obtain ⟨j, -, hlink⟩ := exists_of_bind_eq_ok hlink
    cases hlink
    have htyped : frame'.Typed program (k :: declaring) :=
      Analysis.bindParams_typed (fun d hd => Site.declares_param hs₀ hq hd)
        (Frame.typed_empty rfl) hbind
    exact htyped

/-- The top frame is typed by the scope of the place. -/
theorem top_typed (h : StandsTyped a program place stack) {frame : Frame}
    (hframe : stack.top? = some frame) : frame.Typed program place.path := by
  refine h.typed (CallStack.get?_of_top? hframe) ?_
  rw [h.stands.chain.size, ← List.getLast?_eq_getElem?]
  exact h.stands.top

theorem leave {blocks : List Block} {path : List Nat} {s : Site} {stack' : CallStack}
    (h : StandsTyped a program place stack)
    (h' : StandsTyped a program ⟨blocks, place.paths ++ [path], path, s⟩ stack') :
    StandsTyped a program place stack'.pop := by
  refine ⟨h.stands.leave h'.stands, h.blocks, ?_⟩
  intro i f path' hf hpath'
  have hlt := (List.getElem?_eq_some_iff.mp hpath').1
  exact h'.typed (CallStack.get?_of_get?_pop hf) ((List.getElem?_append_left hlt).trans hpath')

end StandsTyped

/-- Scopes of a well-typed program have well-typed bodies. -/
theorem Analysis.typesBlock_site {a : Analysis} {program : Program}
    (h : a.typesBlock program.block = true) {path : List Nat} {s : Site}
    (hs : program.site? path = some s) : a.typesBlock s.block = true :=
  Program.site_block (P := fun b => a.typesBlock b = true)
    (fun _ p hp hb => (typesBlock_iff.mp hb).1 p hp) h hs

section Discipline

variable (a : Analysis) (program : Program)

/-- A statement of the body of the place, well typed if the program is. -/
def Place.Allows (place : Place) (s : Statement) : Prop :=
  s.uses ⊆ Statement.usesAll place.site.block.body ∧
    (a.typesBlock program.block = true → a.types s = true)

/-- A well-typed program has no error of types. -/
def RuntimeError.Tolerable (e : RuntimeError) : Prop :=
  a.typesBlock program.block = true → ¬ e.OfTypes

variable {a program} {place : Place}

theorem Place.allows_body {path : List Nat} {s : Site} (hs : program.site? path = some s)
    (hsite : place.site = s) : ∀ t ∈ s.block.body, place.Allows a program t := by
  intro t ht
  refine ⟨Place.owns_of_mem (congrArg (·.block.body) hsite) ht, fun htyped => ?_⟩
  exact (Analysis.typesBlock_iff.mp (Analysis.typesBlock_site htyped hs)).2 t ht

theorem Place.Allows.of_mem {body : List Statement} {s : Statement}
    (h : place.Allows a program (.compound body)) (hs : s ∈ body) : place.Allows a program s :=
  ⟨Place.Owns.compound h.1 hs, fun htyped => Analysis.typesAll_iff.mp (h.2 htyped) s hs⟩

theorem Place.Allows.assign_obeys {target : Variable} {value : Expr}
    (h : place.Allows a program (.assign target value)) :
    (a.assign target value).Obeys (StandsTyped a program place)
      (RuntimeError.Tolerable a program) := by
  obtain ⟨huses, htypes⟩ := h
  obtain ⟨htarget, hvalue⟩ := List.cons_subset.mp huses
  apply Analysis.assign_obeys
  · intro stack v i w hstands _ hdestination
    exact hstands.assign htarget hdestination
  · intro stack e hstands hfails htyped herr
    obtain ⟨path, d, i, hd, -, hb, hi, -⟩ := hstands.var htarget
    -- Either the value fails, or it cannot be stored; a value that fits does neither.
    have hstore :
        (a.eval stack value >>= Analysis.store target.name d.type target.position) =
          .error e := by
      rcases error_of_bind_eq_error hfails with heval | ⟨v, heval, hdestination⟩
      · rw [heval]
        rfl
      · rw [Analysis.destination_eq hb hi] at hdestination
        rw [heval, ok_bind]
        cases hstore : Analysis.store target.name d.type target.position v with
        | error e' =>
            rw [hstore] at hdestination
            exact congrArg Except.error (Except.error.inj hdestination)
        | ok w =>
            rw [hstore] at hdestination
            cases hdestination
    have hfits := htypes htyped
    rw [Analysis.types, hb, Option.any_some, hstands.store_error hvalue hstore herr] at hfits
    cases hfits

theorem Place.Allows.write_obeys {newline : Bool} {args : List Expr} {position : Position}
    (h : place.Allows a program (.write newline args position)) :
    (a.write newline args).Obeys (StandsTyped a program place)
      (RuntimeError.Tolerable a program) := by
  obtain ⟨huses, htypes⟩ := h
  apply Analysis.write_obeys
  · intro _
    rintro ⟨⟩
  · intro stack e hstands heval htyped herr
    obtain ⟨arg, harg, hnone⟩ := hstands.evalAll_error huses heval herr
    have hsome := List.all_eq_true.mp (htypes htyped) arg harg
    rw [hnone] at hsome
    cases hsome

theorem Place.Allows.callee_tolerable {c : Call} {e : RuntimeError}
    (h : a.callee c = .error e) :
    e.Tolerable a program := by
  intro _
  rw [Analysis.callee] at h
  split at h
  · cases h
    rintro ⟨⟩
  · split at h
    · cases h
    · cases h
      rintro ⟨⟩

theorem Place.Allows.frame_tolerable {c : Call} {p : ProcedureSymbol} {stack : CallStack}
    {e : RuntimeError} (h : place.Allows a program (.call c))
    (hstands : StandsTyped a program place stack) (hp : a.callee c = .ok p)
    (hframe : a.calleeFrame p c stack = .error e) : e.Tolerable a program := by
  intro htyped herr
  obtain ⟨huses, htypes⟩ := h
  obtain ⟨hargs, -⟩ := List.append_subset.mp huses
  have hprocedure := Analysis.procedure?_of_callee hp
  rcases error_of_bind_eq_error hframe with hbind | ⟨frame, -, hframe⟩
  · obtain ⟨⟨param, arg⟩, hr, hfits⟩ := hstands.bindParams_error hargs hbind herr
    have hall := htypes htyped
    rw [Analysis.types, hprocedure, Option.any_some] at hall
    have htrue : a.fits param.type arg = true := List.all_eq_true.mp hall _ hr
    exact Bool.noConfusion (htrue.symm.trans hfits)
  · rcases error_of_bind_eq_error hframe with hindex | ⟨i, -, hframe⟩
    · exact CallStack.not_ofTypes_of_frameIndex hindex herr
    · cases hframe

theorem Place.Allows.enter {c : Call} {p : ProcedureSymbol} {stack : CallStack} {frame : Frame}
    (h : place.Allows a program (.call c)) (hstands : StandsTyped a program place stack)
    (hp : a.callee c = .ok p) (hframe : a.calleeFrame p c stack = .ok frame) :
    ∃ place' : Place, place'.blocks = place.blocks ++ [p.block] ∧
      (∀ s ∈ p.block.body, place'.Allows a program s) ∧
      StandsTyped a program place' (stack.push frame) ∧
      ∀ stack', StandsTyped a program place' stack' →
      StandsTyped a program place stack'.pop := by
  obtain ⟨path, s, hblock, hs, hentered⟩ := hstands.enter (Place.Owns.call h.1) hp hframe
  refine ⟨_, rfl, ?_, hentered, fun stack' h' => hstands.leave h'⟩
  rw [← hblock]
  exact Place.allows_body hs rfl

variable (a program)

def typeDiscipline : Discipline a where
  Scope := Place
  blocks := Place.blocks
  Allows := Place.Allows a program
  Holds := StandsTyped a program
  Tolerates := RuntimeError.Tolerable a program
  compound := Place.Allows.of_mem
  assign := Place.Allows.assign_obeys
  write := Place.Allows.write_obeys
  callee _ := Place.Allows.callee_tolerable
  depth _ _ _ := fun _ => by rintro ⟨⟩
  frame := Place.Allows.frame_tolerable
  enter := Place.Allows.enter

variable {a program}

/-- A run starts where nothing has a value yet. -/
theorem typeDiscipline_start (hres : a.Resolves program) {m : Machine} (hm : m.stack = {})
    (limit : Nat) :
    (typeDiscipline a program).HoldsAt (Discipline.startPoint limit program m)
      ⟨[program.block], [[]], [], program.root⟩ := by
  have hroot : program.site? [] = some program.root := rfl
  refine ⟨rfl, ⟨.start hres hm, rfl, ?_⟩, Place.allows_body hroot rfl⟩
  intro i f path hf hpath
  have hget : (m.stack.push (Machine.programFrame program)).get? i = some f := hf
  rw [hm] at hget
  rcases CallStack.get?_push_eq_some hget with hnone | ⟨-, rfl⟩
  · cases hnone
  · exact Frame.typed_empty rfl

end Discipline

/-- **Runs are type sound.** Take a program that is read from a text and analyzed without
errors, and any state of a run of it, under any limit. The frames run scopes of the program.
Every member of a frame is a variable or a parameter that the scope of the frame declares, and
its value has the declared type. An expression of the body of the top frame that has a value
has a type, which is the type of the value. The members of the frame that a run returns have
their declared types too. If every expression of the program has a type, and everything that is
assigned or passed fits, no run fails because of a type. -/
theorem runs_are_type_sound (settings : Settings) (text : String) (j j' : Journal)
    (program : Program) (a : Analysis) (hparse : (parse settings text j).1 = .ok program)
    (hanalyze : (analyze program j').1 = .ok a) (limit : Nat) (output : Output)
    (journal : Journal) :
    (∀ blocks m, a.Passes limit program { output, journal } blocks m →
      ∃ paths path s, StaticChain program paths m.stack ∧
        paths.map (fun path => (program.site? path).map Site.block) = blocks.map some ∧
        paths.getLast? = some path ∧ program.site? path = some s ∧
        (∀ i f path, m.stack.get? i = some f → paths[i]? = some path → ∀ name v,
          f.get? name = some v →
            ∃ d, program.Declares path (.var d) ∧ d.name = name ∧ v.type = d.type) ∧
        ∀ e v, e.uses ⊆ Statement.usesAll s.block.body → a.eval m.stack e = .ok v →
          a.type? e = some v.type) ∧
    (∀ frame m, a.interpret limit program { output, journal } = .ok frame m → ∀ name v,
      frame.get? name = some v →
        ∃ d, program.Declares [] (.var d) ∧ d.name = name ∧ v.type = d.type) ∧
    (a.typesBlock program.block = true →
      ∀ e m, a.interpret limit program { output, journal } = .error e m →
        (∀ op left right position, e ≠ .arithmetic (.invalidOperands op left right) position) ∧
        (∀ op operand position, e ≠ .arithmetic (.invalidOperand op operand) position) ∧
        ∀ name declared actual position,
          e ≠ .incompatibleAssignment name declared actual position) := by
  have hstart := typeDiscipline_start (Analysis.resolves hparse hanalyze)
    (m := { output, journal }) rfl limit
  refine ⟨?_, ?_, ?_⟩
  · intro blocks m hm
    obtain ⟨place, rfl, hstands⟩ := Discipline.exists_holds _ hstart hm
    refine ⟨place.paths, place.path, place.site, hstands.stands.chain, hstands.blocks,
      hstands.stands.top, hstands.stands.site,
      fun i f path hf hpath => hstands.typed hf hpath, ?_⟩
    exact fun e v he heval => hstands.eval_ok he heval
  · intro frame m hrun
    obtain ⟨stack, hstands, hframe⟩ := Discipline.interpret_ok _ hstart hrun
    cases htop : stack.top? with
    | some f =>
        rw [htop, Option.getD_some] at hframe
        exact hframe ▸ hstands.top_typed htop
    | none =>
        rw [htop, Option.getD_none] at hframe
        exact hframe ▸ Frame.typed_empty rfl
  · intro htyped e m hrun
    have htolerable : ¬ e.OfTypes := Discipline.interpret_error _ hstart hrun htyped
    refine ⟨?_, ?_, ?_⟩
    · rintro op left right position rfl
      exact htolerable (.operation position (.operands op left right))
    · rintro op operand position rfl
      exact htolerable (.operation position (.operand op operand))
    · rintro name declared actual position rfl
      exact htolerable (.assignment name declared actual position)

/-- An integer is widened where a procedure and a variable want a real, and strings are
joined. -/
def typedText : String :=
  "PROGRAM P; VAR X : REAL; S : STRING; PROCEDURE Q(N : REAL; T : STRING); " ++
    "VAR K : INTEGER; BEGIN K := 7 DIV 2; X := K; X := X / N; S := S + T END; " ++
    "BEGIN S := 'A'; X := 1; Q(2, S); WRITELN(X, -X, S) END."

theorem typedText_sound :
    ∃ program a, (parse {} typedText { traces := [], dumps := [] }).1 = .ok program ∧
      (analyze program { traces := [], dumps := [] }).1 = .ok a ∧
      a.typesBlock program.block = true ∧
      ∀ limit e m, a.interpret limit program { journal := { traces := [], dumps := [] } } =
        .error e m → ∀ name declared actual position,
          e ≠ .incompatibleAssignment name declared actual position := by
  obtain ⟨program, a, hparse, hanalyze, htyped⟩ :=
    exists_analysis_any {} typedText { traces := [], dumps := [] }
      { traces := [], dumps := [] }
      (fun program a => a.typesBlock program.block) (by decide +kernel)
  refine ⟨program, a, hparse, hanalyze, htyped, fun limit e m hrun => ?_⟩
  have hsound := runs_are_type_sound {} typedText _ _ program a hparse hanalyze limit {}
    { traces := [], dumps := [] }
  exact (hsound.2.2 htyped e m hrun).2.2

end MiniPascal

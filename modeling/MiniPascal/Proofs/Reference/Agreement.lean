import MiniPascal.Proofs.Machine.Shape
import MiniPascal.Proofs.Preparation
import MiniPascal.Proofs.Reference.Environment

/-!
The machine and the reference evaluator agree. Both start with the variables of the program,
all of them unassigned, and run the same statements; at every statement the stack represents
the store, so both find the same values and the same procedures. The proof follows the
statements, and at a call the room that is left.
-/

namespace MiniPascal

open Reference (Env Store State)

/-! ### What the reference evaluator does -/

namespace Reference

variable {env : Env} {st : State}

theorem Run.ofStore_of_ok {α : Type} {f : Store → Except RuntimeError α} {r : α}
    (h : f st.store = .ok r) : Run.ofStore f st = .ok r st := by
  rw [Run.ofStore, h]

theorem Run.ofStore_of_error {α : Type} {f : Store → Except RuntimeError α} {e : RuntimeError}
    (h : f st.store = .error e) : Run.ofStore f st = .error e st := by
  rw [Run.ofStore, h]

theorem assign_eq {target : Variable} {type : DataType} {location : Nat}
    (h : env.lookup? target.name = some (.var type location)) (value : Expr) :
    assign env target value st =
      match eval env st.store value with
      | .error e => .error e st
      | .ok v =>
          match Analysis.store target.name type target.position v with
          | .error e => .error e st
          | .ok w => .ok () { st with store := st.store.set location (some w) } := by
  cases hv : eval env st.store value with
  | error e => rw [assign, bind_of_error (Run.ofStore_of_error hv)]
  | ok v =>
      rw [assign, bind_of_ok (Run.ofStore_of_ok hv), h]
      dsimp only
      cases Analysis.store target.name type target.position v with
      | error e => exact bind_of_error (Run.ofStore_of_error rfl)
      | ok w => exact bind_of_ok (Run.ofStore_of_ok rfl)

theorem write_eq (newline : Bool) (args : List Expr) :
    write env newline args st =
      match evalAll env st.store args with
      | .error e => .error e st
      | .ok values =>
          Run.write (String.join (values.map Value.text) ++ if newline then "\n"
            else "") st := by
  cases hvalues : evalAll env st.store args with
  | error e => rw [write, bind_of_error (Run.ofStore_of_error hvalues)]
  | ok values => rw [write, bind_of_ok (Run.ofStore_of_ok hvalues)]

section Calls

variable {c : Call} {p : Procedure} {outer : Env} (limit room : Nat)

theorem callee_eq (h : env.lookup? c.name = some (.procedure p outer))
    (hlength : p.params.length = c.args.length) :
    callee env c = .ok (p, Env.declareProcedure p outer) := by
  rw [callee, h]
  exact if_pos hlength

theorem call_zero (h : callee env c = .ok (p, outer)) :
    call limit 0 env c st = .error (.callDepthExceeded p.name limit c.position) st := by
  rw [call, bind_of_ok (Run.ofStore_of_ok h)]
  rfl

theorem call_succ (h : callee env c = .ok (p, outer)) :
    call limit (room + 1) env c st =
      match evalArgs env st.store c.position p.params c.args with
      | .error e => .error e st
      | .ok values =>
          execAll (Env.enter p.params p.block st.store.length outer)
            (call limit room) p.block.body
            { st with store :=
                st.store ++ (values.map some ++ p.block.vars.map fun _ => none) } := by
  rw [call, bind_of_ok (Run.ofStore_of_ok h)]
  cases hvalues : evalArgs env st.store c.position p.params c.args with
  | error e => exact bind_of_error (Run.ofStore_of_error hvalues)
  | ok values => exact bind_of_ok (Run.ofStore_of_ok hvalues)

end Calls

theorem length_evalArgs {store : Store} {position : Position} {params : List VarDecl}
    {args : List Expr} {values : List Value} (hlength : params.length = args.length)
    (h : evalArgs env store position params args = .ok values) :
    values.length = params.length := by
  induction params generalizing args values with
  | nil =>
      cases h
      rfl
  | cons param params ih =>
      cases args with
      | nil => cases hlength
      | cons arg args =>
          obtain ⟨v, -, h⟩ := exists_of_bind_eq_ok h
          obtain ⟨w, -, h⟩ := exists_of_bind_eq_ok h
          obtain ⟨ws, hws, h⟩ := exists_of_bind_eq_ok h
          cases h
          rw [List.length_cons, List.length_cons, ih (Nat.succ.inj hlength) hws]

end Reference

/-! ### Expressions -/

section Expressions

variable {a : Analysis} {program : Program} {acts : List Activation} {act : Activation}
  {stack : CallStack} {store : Store}

theorem Represents.eval_eq (hres : a.Resolves program)
    (h : Represents program acts stack store) (htop : acts.getLast? = some act) {e : Expr}
    (he : e.uses ⊆ Statement.usesAll act.site.block.body) :
    a.eval stack e = Reference.eval act.env store e := by
  induction e with
  | var v =>
      obtain ⟨j, n, act', d, hact', hd, hname, hb, hj, hlookup⟩ :=
        h.exists_var hres htop (he (List.mem_singleton.mpr rfl))
      obtain ⟨f, hf, -⟩ := h.exists_frame hact'
      have hvalue := (h.holds hact' hf).value hd
      rw [Analysis.eval, Analysis.load_eq hb hj, Reference.eval, hlookup, hf,
        Option.bind_some, ← hname]
      dsimp only
      rw [hvalue]
      cases f.get? d.name <;> rfl
  | binary op left right position ihl ihr =>
      obtain ⟨hl, hr⟩ := List.append_subset.mp he
      rw [Analysis.eval, Reference.eval, ihl hl, ihr hr]
  | unary op operand position ih => rw [Analysis.eval, Reference.eval, ih he]
  | literal v => rfl

theorem Represents.evalAll_eq (hres : a.Resolves program)
    (h : Represents program acts stack store) (htop : acts.getLast? = some act)
    {args : List Expr}
    (hargs : args.flatMap Expr.uses ⊆ Statement.usesAll act.site.block.body) :
    a.evalAll stack args = Reference.evalAll act.env store args := by
  induction args with
  | nil => rfl
  | cons e args ih =>
      rw [List.flatMap_cons] at hargs
      obtain ⟨he, hrest⟩ := List.append_subset.mp hargs
      rw [Analysis.evalAll, Reference.evalAll, h.eval_eq hres htop he, ih hrest]

/-- The frame with the values of the declarations set. -/
def Frame.setAll (f : Frame) : List VarDecl → List Value → Frame
  | d :: decls, v :: values => (f.set d.name v).setAll decls values
  | _, _ => f

theorem Represents.bindParams_eq (hres : a.Resolves program)
    (h : Represents program acts stack store) (htop : acts.getLast? = some act)
    (position : Position) (params : List VarDecl)
    {args : List Expr} (hargs : args.flatMap Expr.uses ⊆ Statement.usesAll act.site.block.body)
    (f : Frame) :
    a.bindParams stack position (params.map VarDecl.symbol) args f =
      (Reference.evalArgs act.env store position params args).map (f.setAll params) := by
  induction params generalizing args f with
  | nil => rfl
  | cons param params ih =>
      cases args with
      | nil => rfl
      | cons e args =>
          rw [List.flatMap_cons] at hargs
          obtain ⟨he, hrest⟩ := List.append_subset.mp hargs
          rw [List.map_cons, Analysis.bindParams, Reference.evalArgs, h.eval_eq hres htop he]
          cases Reference.eval act.env store e with
          | error err => rfl
          | ok v =>
              change (Analysis.store param.name param.type position v >>= _) =
                Except.map _ (Analysis.store param.name param.type position v >>= _)
              cases Analysis.store param.name param.type position v with
              | error err => rfl
              | ok w =>
                  refine (ih hrest (f.set param.name w)).trans ?_
                  cases Reference.evalArgs act.env store position params args <;> rfl

/-- The frame of a call before its parameters are set. -/
def Procedure.emptyFrame (p : Procedure) (level : Nat) : Frame :=
  { name := p.name, kind := .procedure, level := level + 1, link := none }

theorem Represents.calleeFrame_eq (hres : a.Resolves program)
    (h : Represents program acts stack store) (htop : acts.getLast? = some act) {c : Call}
    {p : Procedure} {level j : Nat}
    (hargs : c.args.flatMap Expr.uses ⊆ Statement.usesAll act.site.block.body)
    (hj : stack.findLevel level = .found j) :
    a.calleeFrame (p.symbol level) c stack =
      (Reference.evalArgs act.env store c.position p.params c.args).map fun values =>
        { (p.emptyFrame level).setAll p.params values with link := some j } := by
  change (a.bindParams stack c.position (p.params.map VarDecl.symbol) c.args
    (p.emptyFrame level) >>= fun f => stack.frameIndex p.name level c.position >>= fun index =>
      .ok { f with link := some index }) = _
  rw [h.bindParams_eq hres htop c.position p.params hargs, CallStack.frameIndex_eq hj]
  cases Reference.evalArgs act.env store c.position p.params c.args <;> rfl

end Expressions

/-! ### Calls -/

namespace Frame

theorem get?_setAll_of_notMem {decls : List VarDecl} {name : String}
    (h : name ∉ decls.map VarDecl.name) (f : Frame) (values : List Value) :
    (f.setAll decls values).get? name = f.get? name := by
  induction decls generalizing f values with
  | nil => rfl
  | cons d decls ih =>
      rw [List.map_cons, List.mem_cons, not_or] at h
      cases values with
      | nil => rfl
      | cons v values => rw [setAll, ih h.2, get?_set_of_ne f (Ne.symm h.1)]

theorem get?_setAll {decls : List VarDecl} {values : List Value} {n : Nat}
    {d : VarDecl} {v : Value} (hnodup : (decls.map VarDecl.name).Nodup)
    (hd : decls[n]? = some d) (hv : values[n]? = some v)
    (f : Frame) : (f.setAll decls values).get? d.name = some v := by
  induction decls generalizing f values n with
  | nil => cases hd
  | cons d' decls ih =>
      rw [List.map_cons, List.nodup_cons] at hnodup
      cases values with
      | nil => cases hv
      | cons v' values =>
          rw [setAll]
          cases n with
          | zero =>
              cases hd
              cases hv
              rw [get?_setAll_of_notMem hnodup.1, get?_set_self]
          | succ n => exact ih hnodup.2 hd hv _

/-- A frame that holds nothing but the values of the parameters, while the variables are
unassigned. -/
theorem holds_setAll {f : Frame} {params vars : List VarDecl} {values : List Value}
    (hf : ∀ name, f.get? name = none) (hnodup : ((params ++ vars).map VarDecl.name).Nodup)
    (hlength : values.length = params.length) (store : Store) :
    (f.setAll params values).Holds (params ++ vars) store.length
      (store ++ (values.map some ++ vars.map fun _ => none)) := by
  rw [List.map_append] at hnodup
  obtain ⟨hparams, -, hapart⟩ := List.nodup_append.mp hnodup
  constructor
  case value =>
    intro n d hd
    rw [List.getElem?_append_right (Nat.le_add_right _ _), Nat.add_sub_cancel_left]
    by_cases hn : n < params.length
    · rw [List.getElem?_append_left hn] at hd
      obtain ⟨v, hv⟩ : ∃ v, values[n]? = some v := ⟨_, List.getElem?_eq_getElem (hlength ▸ hn)⟩
      rw [List.getElem?_append_left (by simpa [hlength] using hn), List.getElem?_map, hv,
        get?_setAll hparams hd hv, Option.map_some]
    · have hle : params.length ≤ n := Nat.le_of_not_lt hn
      rw [List.getElem?_append_right hle] at hd
      have hfree : d.name ∉ params.map VarDecl.name := fun hmem =>
        hapart _ hmem _ (List.mem_map_of_mem (List.mem_of_getElem? hd)) rfl
      rw [List.getElem?_append_right (by simpa [hlength] using hle), List.length_map, hlength,
        List.getElem?_map, hd, get?_setAll_of_notMem hfree, hf, Option.map_some]
  case other =>
    intro name hname
    rw [List.map_append, List.mem_append, not_or] at hname
    rw [get?_setAll_of_notMem hname.1, hf]

end Frame

/-- The frame of a call whose arguments have values, and what the stack represents when its
body starts. -/
theorem Represents.exists_calleeFrame {a : Analysis} {program : Program}
    {acts : List Activation} {act act' : Activation} {stack : CallStack} {store : Store}
    {c : Call} {p : Procedure} {j n : Nat}
    {values : List Value} (hres : a.Resolves program) (h : Represents program acts stack store)
    (htop : acts.getLast? = some act) (hact' : acts[j]? = some act')
    (hp : act'.site.block.procedures[n]? = some p)
    (hj : stack.findLevel (act'.path.length + 1) = .found j)
    (hargs : c.args.flatMap Expr.uses ⊆ Statement.usesAll act.site.block.body)
    (hlength : p.params.length = c.args.length)
    (hvalues : Reference.evalArgs act.env store c.position p.params c.args = .ok values) :
    ∃ frame, a.calleeFrame (p.symbol (act'.path.length + 1)) c stack = .ok frame ∧
      Represents program (acts ++ [act'.inside n p store.length]) (stack.push frame)
        (store ++ (values.map some ++ p.block.vars.map fun _ => none)) := by
  have hframe : a.calleeFrame (p.symbol (act'.path.length + 1)) c stack = _ :=
    h.calleeFrame_eq hres htop hargs hj
  rw [hvalues] at hframe
  obtain ⟨hname, hkind, hlevel, -⟩ := Analysis.calleeFrame_eq_ok hframe
  refine ⟨_, hframe, h.enter hact' hp hname hkind hlevel rfl ?_⟩
  have hnodup : ((p.params ++ p.block.vars).map VarDecl.name).Nodup := by
    have hdistinct := hres.distinct (Program.site?_cons (h.site hact') hp)
    rw [← Site.locals_inside act'.site n p]
    exact (List.nodup_append.mp (Site.nodup_names hdistinct 0)).1
  have hempty : ∀ name, (p.emptyFrame (act'.path.length + 1)).get? name = none := by
    intro name
    simp [Procedure.emptyFrame, Frame.get?]
  -- The link is no member, so it does not matter here.
  have hholds :=
    Frame.holds_setAll hempty hnodup (Reference.length_evalArgs hlength hvalues) store
  exact ⟨hholds.value, hholds.other⟩

/-! ### Statements -/

/-- Both runs end well, in a stack and a store with the property `I`, or both end in the same
error. In any case they have written the same. -/
inductive Agree (I : CallStack → Store → Prop) :
    EStateM.Result RuntimeError Machine Unit → EStateM.Result RuntimeError State Unit → Prop
  | ok {m : Machine} {st : State} : I m.stack st.store → m.output = st.output →
      Agree I (.ok () m) (.ok () st)
  | error {e : RuntimeError} {m : Machine} {st : State} : m.output = st.output →
      Agree I (.error e m) (.error e st)

/-- The two parts of a run agree wherever they start with the property `I`. -/
def Simulates (I : CallStack → Store → Prop) (x : Action Unit) (y : Reference.Run Unit) :
    Prop :=
  ∀ (m : Machine) (st : State), I m.stack st.store → m.output = st.output →
  Agree I (x m) (y st)

section Statements

variable {I : CallStack → Store → Prop}

theorem Simulates.pure : Simulates I (pure ()) (pure ()) := by
  intro m st hI hout
  exact .ok hI hout

theorem Simulates.bind {x x' : Action Unit} {y y' : Reference.Run Unit} (hxy : Simulates I x y)
    (hxy' : Simulates I x' y') : Simulates I (x >>= fun _ => x') (y >>= fun _ => y') := by
  intro m st hI hout
  have hfirst := hxy m st hI hout
  generalize hx : x m = r at hfirst
  generalize hy : y st = r' at hfirst
  cases hfirst with
  | ok hI' hout' =>
      rw [bind_of_ok hx, bind_of_ok hy]
      exact hxy' _ _ hI' hout'
  | error hout' =>
      rw [bind_of_error hx, bind_of_error hy]
      exact .error hout'

variable {a : Analysis} {program : Program} {acts : List Activation} {act : Activation}

theorem assign_simulates (hres : a.Resolves program) (htop : acts.getLast? = some act)
    {target : Variable} {value : Expr}
    (h : (Statement.assign target value).uses ⊆ Statement.usesAll act.site.block.body) :
    Simulates (Represents program acts) (a.assign target value)
      (Reference.assign act.env target value) := by
  intro m st hI hout
  obtain ⟨htarget, hvalue⟩ := List.cons_subset.mp h
  obtain ⟨j, n, act', d, hact', hd, hname, hb, hj, hlookup⟩ := hI.exists_var hres htop htarget
  rw [Analysis.assign_eq, Reference.assign_eq hlookup, hI.eval_eq hres htop hvalue]
  cases Reference.eval act.env st.store value with
  | error e => exact .error hout
  | ok v =>
      dsimp only
      rw [Analysis.destination_eq hb hj]
      dsimp only
      cases Analysis.store target.name d.type target.position v with
      | error e => exact .error hout
      | ok w =>
          have hnodup :=
            (List.nodup_append.mp (Site.nodup_names (hres.distinct (hI.site hact')) 0)).1
          refine .ok ?_ hout
          rw [← hname]
          exact hI.assign hact' hnodup hd w

theorem write_simulates (hres : a.Resolves program) (htop : acts.getLast? = some act)
    {newline : Bool} {args : List Expr}
    (h : args.flatMap Expr.uses ⊆ Statement.usesAll act.site.block.body) :
    Simulates (Represents program acts) (a.write newline args)
      (Reference.write act.env newline args) := by
  intro m st hI hout
  rw [Analysis.write_eq, Reference.write_eq, hI.evalAll_eq hres htop h]
  cases Reference.evalAll act.env st.store args with
  | error e => exact .error hout
  | ok values =>
      dsimp only
      rw [Action.write, Reference.Run.write, hout]
      generalize st.output.write _ = written
      obtain ⟨complete, output⟩ := written
      cases complete with
      | true => exact .ok hI rfl
      | false => exact .error rfl

mutual

/-- Statements of a body agree if its calls do. -/
theorem exec_simulates (hres : a.Resolves program) (htop : acts.getLast? = some act)
    {call : Call → Action Unit} {call' : Env → Call → Reference.Run Unit}
    (hcall : ∀ c, (Statement.call c).uses ⊆ Statement.usesAll act.site.block.body →
      Simulates (Represents program acts) (call c) (call' act.env c)) :
    ∀ t : Statement, t.uses ⊆ Statement.usesAll act.site.block.body →
      Simulates (Represents program acts) (a.exec call t) (Reference.exec act.env call' t)
  | .compound body, h => execAll_simulates hres htop hcall body h
  | .assign _ _, h => assign_simulates hres htop h
  | .call c, h => hcall c h
  | .write _ _ _, h => write_simulates hres htop h
  | .empty, _ => .pure

theorem execAll_simulates (hres : a.Resolves program) (htop : acts.getLast? = some act)
    {call : Call → Action Unit} {call' : Env → Call → Reference.Run Unit}
    (hcall : ∀ c, (Statement.call c).uses ⊆ Statement.usesAll act.site.block.body →
      Simulates (Represents program acts) (call c) (call' act.env c)) :
    ∀ ts : List Statement, Statement.usesAll ts ⊆ Statement.usesAll act.site.block.body →
      Simulates (Represents program acts) (a.execAll call ts)
        (Reference.execAll act.env call' ts)
  | [], _ => .pure
  | t :: ts, h => by
      obtain ⟨ht, hts⟩ := List.append_subset.mp h
      exact (exec_simulates hres htop hcall t ht).bind
        (execAll_simulates hres htop hcall ts hts)

end

/-- Calls in the body of any scope agree, whatever room is left. -/
theorem call_simulates (hres : a.Resolves program) (limit room : Nat)
    (htop : acts.getLast? = some act) {c : Call}
    (h : (Statement.call c).uses ⊆ Statement.usesAll act.site.block.body) :
    Simulates (Represents program acts) (a.call limit room c)
      (Reference.call limit room act.env c) := by
  induction room generalizing acts act c with
  | zero =>
      intro m st hI hout
      obtain ⟨hargs, hc⟩ := List.append_subset.mp h
      obtain ⟨j, n, act', p, -, -, hlength, hentry, -, hlookup⟩ :=
        hI.exists_procedure hres htop (hc (List.mem_singleton.mpr rfl))
      rw [Analysis.call_zero, Analysis.callee_eq hentry
        ((p.length_params_symbol _).trans hlength),
        Reference.call_zero limit (Reference.callee_eq hlookup hlength)]
      exact .error hout
  | succ room ih =>
      intro m st hI hout
      obtain ⟨hargs, hc⟩ := List.append_subset.mp h
      obtain ⟨j, n, act', p, hact', hp, hlength, hentry, hj, hlookup⟩ :=
        hI.exists_procedure hres htop (hc (List.mem_singleton.mpr rfl))
      rw [Analysis.call_succ, Analysis.callee_eq hentry
        ((p.length_params_symbol _).trans hlength),
        Reference.call_succ limit room (Reference.callee_eq hlookup hlength)]
      dsimp only
      cases hvalues : Reference.evalArgs act.env st.store c.position p.params c.args with
      | error e =>
          have hframe : a.calleeFrame (p.symbol (act'.path.length + 1)) c m.stack = _ :=
            hI.calleeFrame_eq hres htop hargs hj
          rw [hframe, hvalues]
          exact .error hout
      | ok values =>
          obtain ⟨frame, hframe, hentered⟩ :=
            hI.exists_calleeFrame hres htop hact' hp hj hargs hlength hvalues
          have hlast : (acts ++ [act'.inside n p st.store.length]).getLast? =
              some (act'.inside n p st.store.length) := List.getLast?_concat
          -- When the body has ended, its frame goes, and its locations stay in the store.
          have hbody := execAll_simulates hres hlast (fun c hc => ih hlast hc) p.block.body
            (List.Subset.refl _) (m.entered (p.symbol (act'.path.length + 1)) frame)
            { st with store :=
                st.store ++ (values.map some ++ p.block.vars.map fun _ => none) }
            hentered hout
          rw [Activation.env_inside hp] at hbody
          rw [hframe, Procedure.block_symbol]
          dsimp only
          generalize Reference.execAll _ _ _ _ = r' at hbody ⊢
          generalize a.execAll _ _ _ = r at hbody ⊢
          cases hbody with
          | ok hI' hout' => exact .ok hI'.pop hout'
          | error hout' => exact .error hout'

end Statements

/-! ### Programs -/

/-- The activation of a program. -/
def Activation.root (program : Program) : Activation := ⟨[], program.root, 0, []⟩

section Programs

variable {a : Analysis} {program : Program} {stack : CallStack} {store : Store}

theorem Activation.env_root (program : Program) :
    (Activation.root program).env = Reference.globalEnv program := by
  rw [Activation.env, Activation.envAt, List.take_length]
  rfl

/-- A program starts. -/
theorem Represents.start (hres : a.Resolves program) :
    Represents program [Activation.root program]
      (({} : CallStack).push (Machine.programFrame program))
      (program.block.vars.map fun _ => none) := by
  have hnone : Represents program [] {} [] := by
    refine ⟨⟨rfl, ?_⟩, ?_, ?_, ?_, ?_⟩ <;> intros <;> contradiction
  have hempty : ∀ name, (Machine.programFrame program).get? name = none := by
    intro name
    simp [Machine.programFrame, Frame.get?]
  have hroot : program.site? [] = some program.root := rfl
  have hnodup := (List.nodup_append.mp (Site.nodup_names (hres.distinct hroot) 0)).1
  have hholds : ((Machine.programFrame program).setAll [] []).Holds
      ([] ++ program.block.vars) 0
      ([] ++ (([] : List Value).map some ++ program.block.vars.map fun _ => none)) :=
    Frame.holds_setAll hempty hnodup rfl []
  have hruns : (Machine.programFrame program).Runs program [] 0
      (Activation.root program).path :=
    .program rfl rfl rfl rfl rfl
  refine hnone.push hruns hroot rfl ?_ hholds
  intro j k act' hlink
  cases hlink

/-- The frame of the program holds the values of its variables, and nothing else. -/
theorem Represents.get?_eq_value? {f : Frame} (hres : a.Resolves program)
    (h : Represents program [Activation.root program] stack store) (hf : stack.get? 0 = some f)
    (name : String) : f.get? name = (Reference.globalEnv program).value? store name := by
  have hact : [Activation.root program][0]? = some (Activation.root program) := rfl
  have hdistinct := hres.distinct (h.site hact)
  have hholds := h.holds hact hf
  rw [← Activation.env_root, Env.value?]
  by_cases hlocal : name ∈ (Activation.root program).site.locals.map VarDecl.name
  · obtain ⟨d, hd, rfl⟩ := List.mem_map.mp hlocal
    obtain ⟨n, hn⟩ := List.mem_iff_getElem?.mp hd
    rw [Activation.env, Activation.lookup?_var hdistinct hn]
    dsimp only
    rw [hholds.value hn, Option.join_some]
  · rw [hholds.other hlocal]
    by_cases hprocedure : name ∈ (Activation.root program).site.block.procedures.map
      Procedure.name
    · obtain ⟨p, hp, rfl⟩ := List.mem_map.mp hprocedure
      obtain ⟨n, hn⟩ := List.mem_iff_getElem?.mp hp
      have hlt := (List.getElem?_eq_some_iff.mp hn).1
      rw [Activation.env, Activation.lookup?_procedure hdistinct hlt hn]
    · rw [Activation.env, Activation.envAt, List.take_length,
        Env.lookup?_declareProcedures_of_notMem hprocedure,
        Env.lookup?_declareVars_of_notMem hlocal]
      rfl

theorem Represents.top?_eq {f : Frame}
    (h : Represents program [Activation.root program] stack store)
    (hf : stack.get? 0 = some f) : stack.top? = some f := by
  have hsize : stack.frames.size = 1 := h.size_eq
  rw [CallStack.top?, Array.back?_eq_getElem?, hsize]
  exact hf

/-- What the two make of a program from the same start: a frame with the values that are
stored, or the same error. -/
theorem interpret_agrees (hres : a.Resolves program) (limit : Nat) (output : Output)
    (journal : Journal) :
    (∃ globals m st, a.interpret limit program { output, journal } = .ok globals m ∧
      Reference.interpret limit program { store := [], output } = .ok () st ∧
      m.output = st.output ∧
      ∀ name, globals.get? name = (Reference.globalEnv program).value? st.store name) ∨
    ∃ e m st, a.interpret limit program { output, journal } = .error e m ∧
      Reference.interpret limit program { store := [], output } = .error e st ∧
      m.output = st.output := by
  have htop : [Activation.root program].getLast? = some (Activation.root program) := rfl
  have hbody :=
    execAll_simulates hres htop (fun c hc => call_simulates hres limit limit htop hc)
      program.block.body (List.Subset.refl _) (Machine.started { output, journal } program)
      { store := program.block.vars.map fun _ => none, output } (.start hres) rfl
  rw [Activation.env_root] at hbody
  have hreference : Reference.interpret limit program { store := [], output } =
      Reference.execAll (Reference.globalEnv program) (Reference.call limit limit)
        program.block.body { store := program.block.vars.map fun _ => none, output } := rfl
  rw [Analysis.interpret_eq, hreference]
  change Agree _ (a.execAll (a.call limit (limit - ({} : CallStack).size)) _ _) _ at hbody
  generalize Reference.execAll _ _ _ _ = r' at hbody ⊢
  generalize a.execAll _ _ _ = r at hbody ⊢
  cases hbody with
  | @ok m st hI hout =>
      obtain ⟨f, hf, -⟩ := hI.exists_frame (i := 0) rfl
      refine .inl ⟨f, (m.dumpStack "LEAVE" program.name).pop, st, ?_, rfl, hout,
        hI.get?_eq_value? hres hf⟩
      dsimp only
      rw [hI.top?_eq hf, Option.getD_some]
  | error hout => exact .inr ⟨_, _, _, rfl, rfl, hout⟩

end Programs

section Runs

variable {settings : Settings} {text : String} {output : Output} {j j₁ j₂ : Journal}
  {program : Program} {a : Analysis} {m : Machine}

theorem run_of_ok {globals : Frame} (hstage : settings.stage = .interpret)
    (hparse : parse settings text j = (.ok program, j₁))
    (hanalyze : analyze program j₁ = (.ok a, j₂))
    (h : a.interpret settings.maxDepth program { output, journal := j₂ } = .ok globals m) :
    run settings text output j =
      ⟨.ok { program, analysis := some a, globals := some globals }, m.output, m.journal⟩ := by
  rw [run_of_ready (prepare_eq_ready_iff.mpr ⟨hstage, j₁, hparse, hanalyze⟩), h]
  rfl

theorem run_of_error {e : RuntimeError} (hstage : settings.stage = .interpret)
    (hparse : parse settings text j = (.ok program, j₁))
    (hanalyze : analyze program j₁ = (.ok a, j₂))
    (h : a.interpret settings.maxDepth program { output, journal := j₂ } = .error e m) :
    run settings text output j = ⟨.error (.runtime e), m.output, m.journal⟩ := by
  rw [run_of_ready (prepare_eq_ready_iff.mpr ⟨hstage, j₁, hparse, hanalyze⟩), h]
  rfl

end Runs

/-- **Runs agree with lexical scoping.** Take a text that is read and analyzed without errors,
any limit on calls and any output. The run of the text and the reference evaluator write the
same; and either both come to an end, with the same values for the variables of the program, or
both stop with the same error, at the same position. -/
theorem run_agrees_with_lexical_scoping (settings : Settings) (text : String) (output : Output)
    (j : Journal) (program : Program) (a : Analysis) (hstage : settings.stage = .interpret)
    (hparse : (parse settings text j).1 = .ok program)
    (hanalyze : (analyze program (parse settings text j).2).1 = .ok a) :
    (∃ globals st,
      (run settings text output j).result =
        .ok { program, analysis := some a, globals := some globals } ∧
      Reference.interpret settings.maxDepth program { store := [], output } = .ok () st ∧
      (run settings text output j).output = st.output ∧
      ∀ name, globals.get? name = (Reference.globalEnv program).value? st.store name) ∨
    ∃ e st,
      (run settings text output j).result = .error (.runtime e) ∧
      Reference.interpret settings.maxDepth program { store := [], output } = .error e st ∧
      (run settings text output j).output = st.output := by
  have hres := Analysis.resolves hparse hanalyze
  rcases interpret_agrees hres settings.maxDepth output
      (analyze program (parse settings text j).2).2 with
    ⟨globals, m, st, hmachine, hreference, hout, hglobals⟩ |
      ⟨e, m, st, hmachine, hreference, hout⟩
  · rw [run_of_ok hstage (Prod.ext hparse rfl) (Prod.ext hanalyze rfl) hmachine]
    exact .inl ⟨globals, st, rfl, hreference, hout, hglobals⟩
  · rw [run_of_error hstage (Prod.ext hparse rfl) (Prod.ext hanalyze rfl) hmachine]
    exact .inr ⟨e, st, rfl, hreference, hout⟩

/-- A procedure calls itself through one inside it, whose parameter hides a variable of the
program. -/
def nestedText : String :=
  "PROGRAM P; VAR X : REAL; PROCEDURE Q(N : INTEGER); VAR Y : INTEGER; " ++
    "PROCEDURE R(X : REAL); BEGIN Y := N; WRITELN(X, Y); Q(N - 1) END; " ++
    "BEGIN R(N) END; BEGIN X := 1; Q(2) END."

theorem nestedText_agrees :
    ∃ program a, (parse {} nestedText { traces := [], dumps := [] }).1 = .ok program ∧
      (analyze program (parse {} nestedText { traces := [], dumps := [] }).2).1 = .ok a ∧
      ((∃ globals st,
        (run {} nestedText {} { traces := [], dumps := [] }).result =
          .ok { program, analysis := some a, globals := some globals } ∧
        Reference.interpret ({} : Settings).maxDepth program
          { store := [], output := {} } = .ok () st ∧
        (run {} nestedText {} { traces := [], dumps := [] }).output = st.output ∧
        ∀ name, globals.get? name = (Reference.globalEnv program).value? st.store name) ∨
      ∃ e st,
        (run {} nestedText {} { traces := [], dumps := [] }).result = .error (.runtime e) ∧
        Reference.interpret ({} : Settings).maxDepth program { store := [], output := {} } =
          .error e st ∧
        (run {} nestedText {} { traces := [], dumps := [] }).output = st.output) := by
  obtain ⟨program, a, hparse, hanalyze⟩ :=
    exists_analysis {} nestedText { traces := [], dumps := [] }
      (parse {} nestedText { traces := [], dumps := [] }).2 (by decide +kernel)
  refine ⟨program, a, hparse, hanalyze, ?_⟩
  exact run_agrees_with_lexical_scoping {} nestedText {} _ program a rfl hparse hanalyze

end MiniPascal

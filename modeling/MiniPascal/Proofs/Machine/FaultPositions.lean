import MiniPascal.Proofs.Analysis.Resolution
import MiniPascal.Proofs.Grammar.Nodes
import MiniPascal.Proofs.Machine.Discipline

/-!
Where runs fail. An error names the position of a node of the tree that was being run: of the
variable, of the operator or of the call. Only an error of the output has no position.
-/

namespace MiniPascal

variable {α β : Type} {ps : List Position}

/-- If the error has a position, it is one of `ps`. -/
def RuntimeError.Within (ps : List Position) (e : RuntimeError) : Prop :=
  ∀ p, e.position? = some p → p ∈ ps

/-- An error at a given position. -/
theorem RuntimeError.within_of_eq {e : RuntimeError} {p : Position} (h : e.position? = some p)
    (hp : p ∈ ps) : e.Within ps := by
  intro p' hp'
  obtain rfl := Option.some.inj (h.symm.trans hp')
  exact hp

theorem RuntimeError.position?_eq_none_iff {e : RuntimeError} :
    e.position? = none ↔ ∃ reason, e = .output reason := by
  cases e with
  | output reason => exact ⟨fun _ => ⟨reason, rfl⟩, fun _ => rfl⟩
  | _ => simp [position?]

/-! ### Values -/

/-- The result is no error, or one within `ps`. -/
def FailsWithin (ps : List Position) (r : Except RuntimeError α) : Prop :=
  ∀ e, r = .error e → e.Within ps

theorem failsWithin_ok (r : α) : FailsWithin ps (.ok r) := by
  intro e h
  cases h

theorem failsWithin_error {e : RuntimeError} {p : Position} (h : e.position? = some p)
    (hp : p ∈ ps) :
    FailsWithin ps (.error e : Except RuntimeError α) := by
  intro e' h'
  cases h'
  exact RuntimeError.within_of_eq h hp

theorem FailsWithin.bind {x : Except RuntimeError α} {f : α → Except RuntimeError β}
    (hx : FailsWithin ps x) (hf : ∀ r, FailsWithin ps (f r)) : FailsWithin ps (x >>= f) := by
  intro e h
  rcases error_of_bind_eq_error h with hfirst | ⟨r, -, hsecond⟩
  · exact hx e hfirst
  · exact hf r e hsecond

theorem CallStack.frameIndex_failsWithin {position : Position} (h : position ∈ ps)
    (s : CallStack) (name : String) (level : Nat) :
    FailsWithin ps (s.frameIndex name level position) := by
  rw [frameIndex]
  split
  · exact failsWithin_ok _
  · exact failsWithin_error rfl h

namespace Analysis

variable {a : Analysis}

theorem binding_failsWithin {v : Variable} (h : v.position ∈ ps) :
    FailsWithin ps (a.binding v) := by
  rw [binding]
  split
  · exact failsWithin_ok _
  · exact failsWithin_error rfl h

theorem load_failsWithin {v : Variable} (h : v.position ∈ ps) (s : CallStack) :
    FailsWithin ps (a.load s v) := by
  refine (binding_failsWithin h).bind fun b =>
    (s.frameIndex_failsWithin h _ _).bind fun i => ?_
  split
  · exact failsWithin_ok _
  · exact failsWithin_error rfl h

theorem raise_failsWithin {position : Position} (h : position ∈ ps)
    (r : Except ArithmeticFault Value) :
    FailsWithin ps (raise position r) := by
  cases r with
  | ok v => exact failsWithin_ok v
  | error fault => exact failsWithin_error rfl h

theorem eval_failsWithin (s : CallStack) {e : Expr} (h : e.positions ⊆ ps) :
    FailsWithin ps (a.eval s e) := by
  induction e with
  | var v => exact load_failsWithin (h (List.mem_singleton_self _)) s
  | binary op left right position ihleft ihright =>
      obtain ⟨hleft, hright⟩ := List.append_subset.mp h
      obtain ⟨hposition, hright⟩ := List.cons_subset.mp hright
      exact (ihleft hleft).bind fun l => (ihright hright).bind
        fun r => raise_failsWithin hposition _
  | unary op operand position ih =>
      obtain ⟨hposition, hoperand⟩ := List.cons_subset.mp h
      exact (ih hoperand).bind fun v => raise_failsWithin hposition _
  | literal v => exact failsWithin_ok v

theorem evalAll_failsWithin (s : CallStack) {es : List Expr}
    (h : es.flatMap Expr.positions ⊆ ps) :
    FailsWithin ps (a.evalAll s es) := by
  induction es with
  | nil => exact failsWithin_ok _
  | cons e es ih =>
      obtain ⟨he, hes⟩ := List.append_subset.mp h
      exact (eval_failsWithin s he).bind fun v => (ih hes).bind fun vs => failsWithin_ok _

theorem store_failsWithin {position : Position} (h : position ∈ ps) (name : String)
    (type : DataType) (v : Value) : FailsWithin ps (store name type position v) := by
  rw [store]
  split
  · exact failsWithin_ok _
  · exact failsWithin_error rfl h

theorem bindParams_failsWithin (s : CallStack) {position : Position} (h : position ∈ ps)
    {args : List Expr} (hargs : args.flatMap Expr.positions ⊆ ps) (params : List VarSymbol)
    (frame : Frame) : FailsWithin ps (a.bindParams s position params args frame) := by
  induction params generalizing args frame with
  | nil =>
      rw [bindParams]
      · exact failsWithin_ok _
      · simp
  | cons param params ih =>
      cases args with
      | nil => exact failsWithin_ok _
      | cons arg args =>
          obtain ⟨harg, hargs⟩ := List.append_subset.mp hargs
          exact (eval_failsWithin s harg).bind fun v =>
            (store_failsWithin h _ _ v).bind fun w => ih hargs _

theorem callee_failsWithin {c : Call} (h : c.position ∈ ps) : FailsWithin ps (a.callee c) := by
  rw [callee]
  split
  · exact failsWithin_error rfl h
  · split
    · exact failsWithin_ok _
    · exact failsWithin_error rfl h

theorem calleeFrame_failsWithin {c : Call} (h : (Statement.call c).positions ⊆ ps)
    (p : ProcedureSymbol) (s : CallStack) : FailsWithin ps (a.calleeFrame p c s) := by
  obtain ⟨hposition, hargs⟩ := List.cons_subset.mp h
  exact (bindParams_failsWithin s hposition hargs _ _).bind fun frame =>
    (s.frameIndex_failsWithin hposition _ _).bind fun link => failsWithin_ok _

end Analysis

/-! ### Statements and calls -/

namespace Analysis

variable {a : Analysis}

theorem assign_failsWithin {target : Variable} {value : Expr}
    (h : (Statement.assign target value).positions ⊆ ps) (s : CallStack) :
    FailsWithin ps (a.eval s value >>= (a.destination target · s)) := by
  obtain ⟨htarget, hvalue⟩ := List.cons_subset.mp h
  exact (eval_failsWithin s hvalue).bind fun v => (binding_failsWithin htarget).bind fun b =>
    (store_failsWithin htarget _ _ v).bind fun w => (s.frameIndex_failsWithin htarget _ _).bind
      fun i => failsWithin_ok _

/-- The positions in the bodies of all procedures that calls mean are among `ps`. -/
def BodiesWithin (ps : List Position) (a : Analysis) : Prop :=
  ∀ id p, a.procedure? id = some p → Statement.positionsAll p.block.body ⊆ ps

/-- Statements whose positions are among `ps` may be run on any stack. -/
def positionDiscipline (h : a.BodiesWithin ps) : Discipline a where
  Scope := List Block
  blocks := id
  Allows _ s := s.positions ⊆ ps
  Holds _ _ := True
  Tolerates := RuntimeError.Within ps
  compound h hs := List.Subset.trans (Statement.positions_subset_of_mem hs) h
  assign h :=
    assign_obeys (fun _ _ _ => trivial) fun _ hfails => assign_failsWithin h _ _ hfails
  write h := write_obeys (fun _ hp => nomatch hp)
    fun _ hfails => evalAll_failsWithin _ (List.cons_subset.mp h).2 _ hfails
  callee h hfails := callee_failsWithin (List.cons_subset.mp h).1 _ hfails
  depth _ h _ := RuntimeError.within_of_eq rfl (List.cons_subset.mp h).1
  frame h _ _ hfails := calleeFrame_failsWithin h _ _ _ hfails
  enter {blocks c p _ _} _ _ hp _ := by
    refine ⟨blocks ++ [p.block], rfl, fun s hs => ?_, trivial, fun _ _ => trivial⟩
    exact List.Subset.trans (Statement.positions_subset_of_mem hs)
      (h c.id p (procedure?_of_callee hp))

theorem interpret_failsWithin (h : a.BodiesWithin ps) {limit : Nat} {program : Program}
    (hbody : Statement.positionsAll program.block.body ⊆ ps) {m m' : Machine}
    {e : RuntimeError} (he : a.interpret limit program m = .error e m') : e.Within ps := by
  have hstart : (positionDiscipline h).HoldsAt (Discipline.startPoint limit program m)
      [program.block] :=
    ⟨rfl, trivial, fun _ hs => List.Subset.trans (Statement.positions_subset_of_mem hs) hbody⟩
  exact Discipline.interpret_error _ hstart he

end Analysis

/-! ### Programs that are read from a text -/

theorem Block.body_positions_subset (b : Block) :
    Statement.positionsAll b.body ⊆ b.positions := by
  obtain ⟨vars, procedures, body⟩ := b
  exact List.subset_append_of_subset_right _ (List.subset_append_right _ _)

theorem Program.site_positions_subset {program : Program} {path : List Nat} {s : Site}
    (h : program.site? path = some s) : s.block.positions ⊆ program.block.positions := by
  refine site_block (P := fun b => b.positions ⊆ program.block.positions) ?_
    (List.Subset.refl _) h
  rintro ⟨vars, procedures, body⟩ ⟨name, position, params, block⟩ hp hb q hq
  refine hb (List.mem_append_right _ (List.mem_append_left _ ?_))
  rw [Procedure.positionsAll_eq_flatMap]
  exact List.mem_flatMap.mpr ⟨_, hp, List.mem_cons_of_mem _ (List.mem_append_right _ hq)⟩

/-- A run of a program that was read and analyzed fails at one of its positions. -/
theorem Program.interpret_failsWithin {settings : Settings} {text : String} {j j' : Journal}
    {program : Program} {a : Analysis} (hparse : (parse settings text j).1 = .ok program)
    (hanalyze : (analyze program j').1 = .ok a) {limit : Nat} {m m' : Machine}
    {e : RuntimeError} (he : a.interpret limit program m = .error e m') :
    e.Within program.block.positions := by
  refine Analysis.interpret_failsWithin ?_ program.block.body_positions_subset he
  intro id p hp
  obtain ⟨declaring, q, hq, rfl⟩ :=
    (Program.regular_of_parse hparse).exists_of_procedure? hanalyze hp
  obtain ⟨s, k, hs, hk⟩ := hq.exists_procedure
  exact List.Subset.trans q.block.body_positions_subset
    (Program.site_positions_subset (Program.site?_cons hs hk))

end MiniPascal

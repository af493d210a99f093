import MiniPascal.Proofs.Decimal.Finite
import MiniPascal.Proofs.Listing.RoundTrip
import MiniPascal.Proofs.Machine.Rows

/-!
No infinity, and nothing that is not a number, gets into a run. A literal that is out of range
is not read, an operator whose result is not finite fails, and widening and signs keep numbers
finite; so the members of all frames are finite, and so are the values of all statements that
write.
-/

namespace MiniPascal

/-! ### Values -/

/-- If it is a real, it is a finite number. -/
def Value.IsFinite : Value → Prop
  | .real x => x.isFinite = true
  | .integer _ => True
  | .string _ => True

namespace Value

theorem isFinite_of_ofInt {n : Int} {v : Value} (h : Value.ofInt n = .ok v) : v.IsFinite := by
  rw [Value.ofInt] at h
  split at h <;> cases h
  trivial

theorem isFinite_of_ofFloat {op : BinaryOp} {x : Float} {v : Value}
    (h : Value.ofFloat op x = .ok v) : v.IsFinite := by
  rw [Value.ofFloat] at h
  split at h
  next hfinite =>
    cases h
    exact hfinite
  next => cases h

theorem isFinite_of_coerce? {v w : Value} {type : DataType} (hv : v.IsFinite)
    (h : v.coerce? type = some w) : w.IsFinite := by
  unfold coerce? at h
  split at h
  next n =>
    cases h
    exact Decimal.isFinite_ofInt n
  next =>
    split at h
    · cases h
      exact hv
    · cases h

/-- The text of a finite real. -/
theorem mem_text_real {x : Float} (h : (Value.real x).IsFinite) {c : Char}
    (hc : c ∈ (Value.real x).text.toList) : c.isDigit = true ∨ c = '-' ∨ c = '.' :=
  Decimal.mem_plain h hc

end Value

theorem BinaryOp.isFinite_of_applyReals {op : BinaryOp} {a b : Float} {v : Value}
    (h : op.applyReals a b = .ok v) : v.IsFinite := by
  cases op with
  | add => exact Value.isFinite_of_ofFloat h
  | sub => exact Value.isFinite_of_ofFloat h
  | mul => exact Value.isFinite_of_ofFloat h
  | realDiv =>
      simp only [applyReals] at h
      split at h
      · cases h
      · exact Value.isFinite_of_ofFloat h
  | integerDiv =>
      simp only [applyReals] at h
      split at h
      · cases h
      · split at h
        · exact Value.isFinite_of_ofInt h
        · cases h

/-- The result is checked, whatever the operands are. -/
theorem BinaryOp.isFinite_of_apply {op : BinaryOp} {left right v : Value}
    (h : op.apply left right = .ok v) : v.IsFinite := by
  unfold apply at h
  split at h
  · cases h
    trivial
  · exact Value.isFinite_of_ofInt h
  · exact Value.isFinite_of_ofInt h
  · exact Value.isFinite_of_ofInt h
  · split at h
    · cases h
    · exact Value.isFinite_of_ofInt h
  · split at h
    · exact isFinite_of_applyReals h
    · cases h

theorem UnaryOp.isFinite_of_apply {op : UnaryOp} {v w : Value} (hv : v.IsFinite)
    (h : op.apply v = .ok w) : w.IsFinite := by
  unfold apply at h
  split at h
  · cases h
  · cases h
    exact hv
  · exact Value.isFinite_of_ofInt h
  · cases h
    exact Decimal.isFinite_neg hv

/-! ### Stacks -/

def Frame.IsFinite (f : Frame) : Prop := ∀ name v, f.get? name = some v → v.IsFinite

def CallStack.IsFinite (s : CallStack) : Prop := ∀ i f, s.get? i = some f → f.IsFinite

theorem Frame.isFinite_of_empty {f : Frame} (h : f.members = {}) : f.IsFinite := by
  intro name v hv
  rw [Frame.get?, h] at hv
  simp at hv

theorem Frame.IsFinite.set {f : Frame} (h : f.IsFinite) (name : String) {v : Value}
    (hv : v.IsFinite) : (f.set name v).IsFinite := by
  intro name' w hw
  rcases Frame.get?_set_eq_some hw with ⟨-, rfl⟩ | hw
  · exact hv
  · exact h name' w hw

namespace CallStack.IsFinite

variable {s : CallStack}

theorem push (h : s.IsFinite) {f : Frame} (hf : f.IsFinite) : (s.push f).IsFinite := by
  intro i g hg
  rcases get?_push_eq_some hg with hg | ⟨-, rfl⟩
  · exact h i g hg
  · exact hf

theorem pop (h : s.IsFinite) : s.pop.IsFinite := fun i f hf => h i f (get?_of_get?_pop hf)

theorem assign (h : s.IsFinite) (i : Nat) (name : String) {v : Value} (hv : v.IsFinite) :
    (s.assign i name v).IsFinite := by
  intro j f hf
  obtain ⟨f₀, hf₀, rfl⟩ := exists_of_get?_assign hf
  split
  · exact (h j f₀ hf₀).set name hv
  · exact h j f₀ hf₀

variable {a : Analysis}

theorem load (h : s.IsFinite) {x : Variable} {v : Value} (hload : a.load s x = .ok v) :
    v.IsFinite := by
  obtain ⟨b, -, hload⟩ := exists_of_bind_eq_ok hload
  obtain ⟨i, -, hload⟩ := exists_of_bind_eq_ok hload
  split at hload
  next w hw =>
    cases hload
    obtain ⟨f, hf, hmember⟩ := Option.bind_eq_some_iff.mp hw
    exact h i f hf x.name v hmember
  next => cases hload

theorem eval (h : s.IsFinite) {e : Expr} (he : ∀ w ∈ e.literals, w.IsFinite) {v : Value}
    (heval : a.eval s e = .ok v) : v.IsFinite := by
  induction e generalizing v with
  | var x => exact h.load heval
  | literal w =>
      cases heval
      exact he w List.mem_cons_self
  | unary op operand position ih =>
      obtain ⟨w, hw, heval⟩ := exists_of_bind_eq_ok heval
      exact UnaryOp.isFinite_of_apply (ih he hw) (Analysis.raise_eq_ok heval)
  | binary op left right position _ _ =>
      obtain ⟨l, -, heval⟩ := exists_of_bind_eq_ok heval
      obtain ⟨r, -, heval⟩ := exists_of_bind_eq_ok heval
      exact BinaryOp.isFinite_of_apply (Analysis.raise_eq_ok heval)

theorem evalAll (h : s.IsFinite) {es : List Expr}
    (hes : ∀ w ∈ es.flatMap Expr.literals, w.IsFinite) {vs : List Value}
    (heval : a.evalAll s es = .ok vs) : ∀ v ∈ vs, v.IsFinite := by
  induction es generalizing vs with
  | nil =>
      cases heval
      simp
  | cons e es ih =>
      rw [List.flatMap_cons] at hes
      obtain ⟨he, hes⟩ := List.forall_mem_append.mp hes
      obtain ⟨v, hv, heval⟩ := exists_of_bind_eq_ok heval
      obtain ⟨vs', hvs', heval⟩ := exists_of_bind_eq_ok heval
      cases heval
      exact List.forall_mem_cons.mpr ⟨h.eval he hv, ih hes hvs'⟩

theorem store {name : String} {type : DataType} {position : Position} {v w : Value}
    (hv : v.IsFinite) (h : Analysis.store name type position v = .ok w) : w.IsFinite := by
  rw [Analysis.store] at h
  split at h
  next hcoerce =>
    cases h
    exact Value.isFinite_of_coerce? hv hcoerce
  next => cases h

theorem bindParams (h : s.IsFinite) {position : Position} {params : List VarSymbol}
    {args : List Expr} (hargs : ∀ w ∈ args.flatMap Expr.literals, w.IsFinite) {f g : Frame}
    (hf : f.IsFinite) (hbind : a.bindParams s position params args f = .ok g) :
    g.IsFinite := by
  induction args generalizing params f with
  | nil =>
      cases params <;> cases hbind <;> exact hf
  | cons e args ih =>
      cases params with
      | nil =>
          cases hbind
          exact hf
      | cons param params =>
          rw [List.flatMap_cons] at hargs
          obtain ⟨he, hargs⟩ := List.forall_mem_append.mp hargs
          obtain ⟨v, hv, hbind⟩ := exists_of_bind_eq_ok hbind
          obtain ⟨w, hw, hbind⟩ := exists_of_bind_eq_ok hbind
          exact ih hargs (hf.set param.name (store (h.eval he hv) hw)) hbind

theorem calleeFrame (h : s.IsFinite) {p : ProcedureSymbol} {c : Call}
    (hargs : ∀ w ∈ c.args.flatMap Expr.literals, w.IsFinite) {f : Frame}
    (hframe : a.calleeFrame p c s = .ok f) : f.IsFinite := by
  obtain ⟨f', hparams, hframe⟩ := exists_of_bind_eq_ok hframe
  obtain ⟨i, -, hframe⟩ := exists_of_bind_eq_ok hframe
  cases hframe
  have hf' : f'.IsFinite := h.bindParams hargs (Frame.isFinite_of_empty rfl) hparams
  exact hf'

end CallStack.IsFinite

/-! ### Runs -/

namespace Analysis

variable {a : Analysis}

/-- All procedures that a call can mean have finite literals in their bodies. -/
def FiniteBodies (a : Analysis) : Prop :=
  ∀ id p, a.procedure? id = some p → ∀ v ∈ Statement.literalsAll p.block.body, v.IsFinite

theorem isFinite_of_destination {s : CallStack} {target : Variable} {v w : Value} {i : Nat}
    (hv : v.IsFinite) (h : a.destination target v s = .ok (i, w)) : w.IsFinite := by
  obtain ⟨b, -, h⟩ := exists_of_bind_eq_ok h
  obtain ⟨w', hw', h⟩ := exists_of_bind_eq_ok h
  obtain ⟨i', -, h⟩ := exists_of_bind_eq_ok h
  cases h
  exact CallStack.IsFinite.store hv hw'

/-- Statements with finite literals keep all values on the stack finite. -/
def finiteDiscipline (h : a.FiniteBodies) : Discipline a where
  Scope := List Block
  blocks := id
  Allows _ s := ∀ v ∈ s.literals, v.IsFinite
  Holds _ stack := stack.IsFinite
  Tolerates _ := True
  compound h hs v hv := h v (Statement.literals_subset_of_mem hs hv)
  assign hvalue := assign_obeys (fun hs heval hdestination =>
    hs.assign _ _ (isFinite_of_destination (hs.eval hvalue heval) hdestination))
      fun _ _ => trivial
  write _ := write_obeys trivial fun _ _ => trivial
  callee _ _ := trivial
  depth _ _ _ := trivial
  frame _ _ _ _ := trivial
  enter {blocks c p _ _} hargs hs hp hframe := by
    refine ⟨blocks ++ [p.block], rfl, ?_, hs.push (hs.calleeFrame hargs hframe), fun _ => .pop⟩
    intro s hs v hv
    exact h c.id p (procedure?_of_callee hp) v (Statement.literals_subset_of_mem hs hv)

variable {limit : Nat} {program : Program} {m₀ : Machine}

theorem finiteDiscipline_start (h : a.FiniteBodies) (hm₀ : m₀.stack.IsFinite)
    (hbody : ∀ v ∈ Statement.literalsAll program.block.body, v.IsFinite) (limit : Nat) :
    (finiteDiscipline h).HoldsAt (Discipline.startPoint limit program m₀) [program.block] := by
  refine ⟨rfl, hm₀.push (Frame.isFinite_of_empty rfl), fun s hs v hv => ?_⟩
  exact hbody v (Statement.literals_subset_of_mem hs hv)

end Analysis

/-! ### Programs that are read from a text -/

theorem Block.body_literals_subset (b : Block) :
    Statement.literalsAll b.body ⊆ b.literals := by
  obtain ⟨vars, procedures, body⟩ := b
  exact List.subset_append_right _ _

theorem Program.site_literals_subset {program : Program} {path : List Nat} {s : Site}
    (h : program.site? path = some s) : s.block.literals ⊆ program.block.literals := by
  refine site_block (P := fun b => b.literals ⊆ program.block.literals) ?_
    (List.Subset.refl _) h
  rintro ⟨vars, procedures, body⟩ ⟨name, position, params, block⟩ hp hb v hv
  refine hb (List.mem_append_left _ ?_)
  rw [Procedure.literalsAll_eq_flatMap]
  exact List.mem_flatMap.mpr ⟨_, hp, hv⟩

/-- A literal that is out of range is not read. -/
theorem isFinite_of_parse {settings : Settings} {text : String} {j : Journal}
    {program : Program} (hparse : (parse settings text j).1 = .ok program) :
    ∀ v ∈ program.block.literals, v.IsFinite := by
  obtain ⟨pieces, hpieces, d, -, hprogram⟩ := parse_eq_ok_iff.mp hparse
  intro v hv
  have hreadable := readable_of_isProgram hpieces hprogram hv
  cases v with
  | integer _ => trivial
  | real _ => exact hreadable.1
  | string _ => trivial

theorem finiteBodies_of_parse {settings : Settings} {text : String} {j j' : Journal}
    {program : Program} {a : Analysis} (hparse : (parse settings text j).1 = .ok program)
    (hanalyze : (analyze program j').1 = .ok a) : a.FiniteBodies := by
  intro id p hp v hv
  obtain ⟨declaring, q, hq, rfl⟩ :=
    (Program.regular_of_parse hparse).exists_of_procedure? hanalyze hp
  obtain ⟨s, k, hs, hk⟩ := hq.exists_procedure
  exact isFinite_of_parse hparse v
    (Program.site_literals_subset (Program.site?_cons hs hk) (q.block.body_literals_subset hv))

theorem CallStack.isFinite_empty : CallStack.IsFinite {} := by
  intro i f hf
  cases hf

theorem body_isFinite_of_parse {settings : Settings} {text : String} {j : Journal}
    {program : Program} (hparse : (parse settings text j).1 = .ok program) :
    ∀ v ∈ Statement.literalsAll program.block.body, v.IsFinite := fun v hv =>
  isFinite_of_parse hparse v (program.block.body_literals_subset hv)

theorem finiteDiscipline_of_parse {settings : Settings} {text : String} {j j' : Journal}
    {program : Program} {a : Analysis} (hparse : (parse settings text j).1 = .ok program)
    (hanalyze : (analyze program j').1 = .ok a) (limit : Nat) (output : Output)
    (journal : Journal) :
    (Analysis.finiteDiscipline (finiteBodies_of_parse hparse hanalyze)).HoldsAt
      (Discipline.startPoint limit program { output, journal }) [program.block] :=
  Analysis.finiteDiscipline_start _ CallStack.isFinite_empty
    (body_isFinite_of_parse hparse) limit

/-- Where a statement that writes comes next, its values are finite. -/
theorem isFinite_of_mem_rowsWritten {settings : Settings} {text : String} {output : Output}
    {j : Journal} {row : Row} (h : row ∈ rowsWritten settings text output j) :
    ∀ v ∈ row.values, v.IsFinite := by
  rcases hprepare : prepare settings text j with ⟨result | ⟨program, a⟩, J⟩
  · rw [rowsWritten, hprepare] at h
    cases h
  obtain ⟨-, j₁, hparse, hanalyze⟩ := prepare_eq_ready_iff.mp hprepare
  have hstart :=
    finiteDiscipline_of_parse (congrArg Prod.fst hparse) (congrArg Prod.fst hanalyze)
      settings.maxDepth output J
  obtain ⟨blocks, room, args, position, rest, m, hreaches, hvalues⟩ :=
    (mem_rowsWritten_iff hprepare output row).mp h
  obtain ⟨σ, -, hstack, htodo⟩ := Discipline.exists_holdsAt _ hstart hreaches
  exact CallStack.IsFinite.evalAll hstack (htodo _ List.mem_cons_self) hvalues

theorem isFinite_of_globals {settings : Settings} {text : String} {output : Output}
    {j : Journal} {outcome : Outcome} {globals : Frame}
    (h : (run settings text output j).result = .ok outcome)
    (hglobals : outcome.globals = some globals) : globals.IsFinite := by
  obtain ⟨program, a, J, m, hprepare, hrun⟩ := exists_of_globals h hglobals
  obtain ⟨-, j₁, hparse, hanalyze⟩ := prepare_eq_ready_iff.mp hprepare
  have hstart :=
    finiteDiscipline_of_parse (congrArg Prod.fst hparse) (congrArg Prod.fst hanalyze)
      settings.maxDepth output J
  obtain ⟨stack, hstack, rfl⟩ := Discipline.interpret_ok _ hstart hrun
  cases htop : stack.top? with
  | none => exact Frame.isFinite_of_empty rfl
  | some f => exact hstack _ f (CallStack.get?_of_top? htop)

/-- **Reals stay finite.** Whatever the text, the settings and the output are: a run writes its
rows one after the other, as far as there is room for them. These are the values of the
statements that write, as each has them when it comes next. Every real among them is finite and
shown with digits, a sign and a point alone; and the variables of the program hold no other
reals in the end. In all states of the run the same is true of the members of all frames, and
of the values of all expressions whose literals are literals of the program. -/
theorem reals_stay_finite (settings : Settings) (text : String) (output : Output)
    (j : Journal) :
    (run settings text output j).output =
        (rowsWritten settings text output j).foldl Output.put output ∧
    (∀ program a journal, prepare settings text j = (.ready program a, journal) →
      ∀ row, row ∈ rowsWritten settings text output j ↔
        ∃ blocks room args position rest m,
          a.Reaches settings.maxDepth program { output, journal }
            ⟨blocks, room, .write row.newline args position :: rest, m⟩ ∧
          a.evalAll m.stack args = .ok row.values) ∧
    (∀ row ∈ rowsWritten settings text output j,
      ∀ x, .real x ∈ row.values → x.isFinite = true ∧
      ∀ c ∈ (Value.real x).text.toList, c.isDigit = true ∨ c = '-' ∨ c = '.') ∧
    (∀ outcome globals, (run settings text output j).result = .ok outcome →
      outcome.globals = some globals →
      ∀ name x, globals.get? name = some (.real x) → x.isFinite = true) ∧
    ∀ program a j' journal, (parse settings text j).1 = .ok program →
      (analyze program j').1 = .ok a →
      ∀ blocks m, a.Passes settings.maxDepth program { output, journal } blocks m →
        (∀ i f name x, m.stack.get? i = some f → f.get? name = some (.real x) →
          x.isFinite = true) ∧
        ∀ e x, e.literals ⊆ program.block.literals → a.eval m.stack e = .ok (.real x) →
          x.isFinite = true := by
  refine ⟨run_output_eq settings text output j, ?_, ?_, ?_, ?_⟩
  · exact fun program a journal hprepare row => mem_rowsWritten_iff hprepare output row
  · intro row hrow x hx
    have hfinite : (Value.real x).IsFinite := isFinite_of_mem_rowsWritten hrow _ hx
    exact ⟨hfinite, fun c hc => Value.mem_text_real hfinite hc⟩
  · intro outcome globals hresult hglobals name x
    exact isFinite_of_globals hresult hglobals name (.real x)
  · intro program a j' journal hparse hanalyze blocks m hm
    have hstart := finiteDiscipline_of_parse hparse hanalyze settings.maxDepth output journal
    obtain ⟨σ, -, hstack⟩ := Discipline.exists_holds _ hstart hm
    refine ⟨fun i f name x hf => hstack i f hf name (.real x), fun e x he heval => ?_⟩
    exact CallStack.IsFinite.eval hstack (fun v hv => isFinite_of_parse hparse v (he hv)) heval

/-- Reals that are widened, passed on, negated, divided and written; in the end they are
large. -/
def growingText : String :=
  "PROGRAM P; VAR X : REAL; PROCEDURE Q(N : REAL); BEGIN X := -N * 1.5; " ++
    "WRITELN(X, N / 3) END; BEGIN X := 9223372036854775807; Q(X); Q(2); X := X * X END."

theorem growingText_finite :
    let r := run {} growingText {} { traces := [], dumps := [] }
    let rows := rowsWritten {} growingText {} { traces := [], dumps := [] }
    (rows.map fun row => (row.values.map Value.type, row.newline)) =
        [([.real, .real], true), ([.real, .real], true)] ∧
      r.output = rows.foldl Output.put {} ∧
      (∀ row ∈ rows, ∀ x, .real x ∈ row.values → x.isFinite = true) ∧
      ∃ outcome globals x, r.result = .ok outcome ∧ outcome.globals = some globals ∧
        globals.get? "X" = some (.real x) ∧ x.isFinite = true := by
  intro r rows
  obtain ⟨houtput, -, hrows, hglobals, -⟩ :=
    reals_stay_finite {} growingText {} { traces := [], dumps := [] }
  refine ⟨by decide +kernel, houtput, fun row hrow x hx => (hrows row hrow x hx).1, ?_⟩
  have htest : (r.result.toOption.any fun outcome => outcome.globals.any fun globals =>
      (globals.get? "X").any (·.type = .real)) = true := by decide +kernel
  cases hresult : r.result with
  | error e =>
      rw [hresult] at htest
      cases htest
  | ok outcome =>
      rw [hresult, Except.toOption, Option.any_some] at htest
      obtain ⟨globals, hsome, htest⟩ := (Option.any_eq_true _ _).mp htest
      obtain ⟨v, hv, htype⟩ := (Option.any_eq_true _ _).mp htest
      cases v with
      | real x =>
          exact ⟨outcome, globals, x, rfl, hsome, hv,
            hglobals outcome globals hresult hsome "X" x hv⟩
      | integer n => cases htype
      | string s => cases htype

end MiniPascal

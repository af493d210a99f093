import MiniPascal.Proofs.Grammar.Congruence
import MiniPascal.Proofs.Machine.Lockstep
import MiniPascal.Run

/-!
No stage of a run looks at its journal. Two runs that differ in their journals make the same
notes in the same order and do the same in everything else; so whatever relation between
journals a note keeps, if it is made in both, is kept by every stage: by reading tokens, by
every rule of the grammar, by the walk that resolves names, and by every action of the machine.
-/

namespace MiniPascal

/-- A relation that is kept when the same note is made in both journals. -/
def Journal.Parallel (R : Journal → Journal → Prop) : Prop :=
  ∀ ⦃j j' : Journal⦄ (topic : Topic) (message : Unit → String), R j j' →
    R (j.note topic message) (j'.note topic message)

variable {R : Journal → Journal → Prop}

/-! ### Tokens -/

theorem Journal.Parallel.step (hR : Journal.Parallel R) {j j' : Journal} (h : R j j')
    (s : Step) :
    R (j.step s) (j'.step s) := by
  have htraced := hR (.trace .lexer) (fun _ => s!"next_token() at {s.start.text}") h
  unfold Journal.step
  cases s.result with
  | ok t => exact hR (.trace .token) _ htraced
  | error e => exact htraced

theorem Journal.Parallel.steps (hR : Journal.Parallel R) {j j' : Journal} (h : R j j')
    (steps : List Step) : R (steps.foldl Journal.step j) (steps.foldl Journal.step j') := by
  induction steps generalizing j j' with
  | nil => exact h
  | cons s steps ih => exact ih (hR.step h s)

theorem readTokens_heedless (hR : Journal.Parallel R) {j j' : Journal} (h : R j j')
    (text : String) :
    ∃ J J', R J J' ∧ readTokens text j = (tokens text, J) ∧
    readTokens text j' = (tokens text, J') :=
  ⟨_, _,
    hR.steps (hR (.trace .lexer) (fun _ => s!"Lexer::new() over {text.utf8ByteSize} chars") h)
    (Cursor.ofText text).steps, rfl, rfl⟩

/-! ### Rules of the grammar -/

namespace Rule

variable {α β : Type}

/-- Two results that differ in the journal only. -/
inductive Beside (R : Journal → Journal → Prop) :
    EStateM.Result SyntaxError Parser α → EStateM.Result SyntaxError Parser α → Prop
  | ok (a : α) {q : Parser} {j : Journal} : R q.journal j →
      Beside R (.ok a q) (.ok a { q with journal := j })
  | error (e : SyntaxError) {q : Parser} {j : Journal} : R q.journal j →
      Beside R (.error e q) (.error e { q with journal := j })

/-- The rules do the same, whatever is in the journal. -/
def Heedless (R : Journal → Journal → Prop) (x x' : Rule α) : Prop :=
  ∀ ⦃p : Parser⦄ ⦃j : Journal⦄, R p.journal j → Beside R (x p) (x' { p with journal := j })

theorem Heedless.bind {x x' : Rule α} {f f' : α → Rule β} (hx : Heedless R x x')
    (hf : ∀ a, Heedless R (f a) (f' a)) : Heedless R (x >>= f) (x' >>= f') := by
  intro p j h
  have hend := hx h
  generalize hr : x p = r at hend
  generalize hr' : x' { p with journal := j } = r' at hend
  cases hend with
  | ok a hq =>
      rw [bind_of_ok hr, bind_of_ok hr']
      exact hf a hq
  | error e hq =>
      rw [bind_of_error hr, bind_of_error hr']
      exact .error e hq

theorem pure_heedless (a : α) : Heedless R (pure a : Rule α) (pure a) := fun _ _ h => .ok a h

theorem current_heedless : Heedless R current current := fun _ _ h => .ok _ h

theorem advance_heedless : Heedless R advance advance := by
  rintro ⟨current, ahead, total, nextId, maxNesting, journal⟩ j h
  cases ahead with
  | nil => exact .ok _ h
  | cons t ts =>
      rw [advance, advance]
      dsimp only
      split
      · exact .ok _ h
      · exact .ok _ h

theorem peekKind_heedless : Heedless R peekKind peekKind := by
  rintro ⟨current, ahead, total, nextId, maxNesting, journal⟩ j h
  cases ahead with
  | nil => exact .ok _ h
  | cons t ts => exact .ok _ h

theorem literal_heedless : Heedless R literal literal := by
  apply advance_heedless.bind
  intro t p j h
  cases t.value with
  | none => exact .error _ h
  | some v => exact .ok _ h

theorem heedless_congruence (hR : Journal.Parallel R) : Congruence (Heedless R) where
  pure := pure_heedless
  bind hx hf := hx.bind hf
  note message _ _ h := .ok () (hR _ message h)
  current := current_heedless
  check _ _ _ h := .ok _ h
  peekKind := peekKind_heedless
  advance := advance_heedless
  unexpected _ _ _ h := .error _ h
  newId p j h := .ok p.nextId (q := { p with nextId := p.nextId + 1 }) h
  bounded hf p _ h := hf p.total h
  factorOf hsigned hparenthesized hvariable := by
    apply current_heedless.bind
    intro t
    cases t.kind
    case plus => exact hsigned .plus
    case minus => exact hsigned .minus
    case leftParen => exact hparenthesized
    case integerLiteral => exact literal_heedless
    case realLiteral => exact literal_heedless
    case stringLiteral => exact literal_heedless
    case identifier => exact hvariable.bind fun v => pure_heedless (Expr.var v)
    all_goals exact fun _ _ h => .error _ h

end Rule

/-! ### Actions of the machine -/

/-- Two machines that differ in the journal only. -/
structure Machine.Heedless (R : Journal → Journal → Prop) (m m' : Machine) : Prop where
  stack : m.stack = m'.stack
  output : m.output = m'.output
  journal : R m.journal m'.journal

theorem lockstep_heedless (hR : Journal.Parallel R) :
    Lockstep (Machine.Heedless R) Output.NeverFull where
  stack h := h.stack
  restack _ h := ⟨rfl, h.output, h.journal⟩
  trace message h := ⟨h.stack, h.output, hR (.trace .interpreter) message h.journal⟩
  dumpStack {m m'} event name h := by
    refine ⟨h.stack, h.output, ?_⟩
    have hdump := hR (.dump .stack) (fun _ => s!"{event}: {name}\n{m.stack.text}") h.journal
    rw [Machine.dumpStack, Machine.dumpStack, ← h.stack]
    exact hdump
  lasting := Output.neverFull_lasting
  write text h := by
    rw [Action.write, Action.write, h.output]
    split
    · exact .ok () ⟨h.stack, rfl, h.journal⟩
    · exact .error _ ⟨h.stack, rfl, h.journal⟩

/-! ### The walk that resolves names -/

namespace Walk

/-- Two states of the walk that differ in the journal only. -/
def Beside (R : Journal → Journal → Prop) (w w' : Walk) : Prop :=
  ∃ j, R w.journal j ∧ w' = { w with journal := j }

/-- The function does the same, whatever is in the journal. -/
def Heedless (R : Journal → Journal → Prop) (f : Walk → Walk) : Prop :=
  ∀ ⦃w w' : Walk⦄, Beside R w w' → Beside R (f w) (f w')

theorem Heedless.comp {f g : Walk → Walk} (hf : Heedless R f) (hg : Heedless R g) :
    Heedless R fun w => g (f w) :=
  fun _ _ h => hg (hf h)

theorem Heedless.foldl {α : Type} {f : Walk → α → Walk} (items : List α)
    (hf : ∀ item, Heedless R (f · item)) : Heedless R (items.foldl f) := by
  intro w w' h
  induction items generalizing w w' with
  | nil => exact h
  | cons item items ih => exact ih (hf item h)

/-- What leaves the journal alone. -/
theorem Heedless.quiet {f : Walk → Walk}
    (hf : ∀ w j, f { w with journal := j } = { f w with journal := j })
    (hjournal : ∀ w, (f w).journal = w.journal) : Heedless R f := by
  rintro w _ ⟨j, h, rfl⟩
  exact ⟨j, hjournal w ▸ h, hf w j⟩

theorem Beside.trace (hR : Journal.Parallel R) {w w' : Walk} (h : Beside R w w') (t : Trace)
    (message : Unit → String) : Beside R (w.trace t message) (w'.trace t message) := by
  obtain ⟨j, h, rfl⟩ := h
  exact ⟨_, hR (.trace t) message h, rfl⟩

theorem fail_heedless (e : SemanticError) : Heedless R (·.fail e) :=
  .quiet (fun _ _ => rfl) fun _ => rfl

/-- A function with a result that is the same too. -/
def HeedlessWith {α : Type} (R : Journal → Journal → Prop) (f : Walk → α × Walk) : Prop :=
  ∀ ⦃w w' : Walk⦄, Beside R w w' → ∃ r v v', f w = (r, v) ∧ f w' = (r, v') ∧ Beside R v v'

theorem lookup_heedless (hR : Journal.Parallel R) (name : String) :
    HeedlessWith R (·.lookup name) := by
  rintro w _ ⟨j, h, rfl⟩
  exact ⟨_, _, _, rfl, rfl, Beside.trace hR ⟨j, h, rfl⟩ .symbolTable
    fun _ => s!"Lookup: {name}. (Scope name: {w.scopeName})"⟩

theorem declare_heedless (hR : Journal.Parallel R) (symbol : Symbol) (position : Position) :
    Heedless R (·.declare symbol position) := by
  intro w w' h
  obtain ⟨j, hj, hw'⟩ := h.trace hR .symbolTable fun _ => s!"Insert({symbol.text})"
  simp only [declare, hw']
  split
  · exact ⟨j, hj, rfl⟩
  · exact ⟨j, hj, rfl⟩

theorem enter_heedless (name : String) : Heedless R (·.enter name) := by
  apply Heedless.quiet
  · intro w j
    simp only [enter]
    split <;> rfl
  · intro w
    simp only [enter]
    split <;> rfl

theorem leave_heedless (hR : Journal.Parallel R) : Heedless R leave := by
  rintro w _ ⟨j, h, rfl⟩
  have hdumped := hR (.dump .symbols) (fun _ => (w.scope?.map w.scopes.render).getD "") h
  exact ⟨_, hR (.trace .analyzer) (fun _ => s!"LEAVE scope: {w.scopeName}") hdumped, rfl⟩

theorem visitVariable_heedless (hR : Journal.Parallel R) (v : Variable) :
    Heedless R (·.visitVariable v) := by
  intro w w' h
  obtain ⟨found, w₁, w₁', hw, hw', h₁⟩ := lookup_heedless hR v.name h
  simp only [visitVariable, hw, hw']
  match found with
  | none => exact fail_heedless _ h₁
  | some (.var symbol, owner) =>
      obtain ⟨j, hj, rfl⟩ := h₁
      exact ⟨j, hj, rfl⟩
  | some (.type _, _) => exact fail_heedless _ h₁
  | some (.procedure _, _) => exact fail_heedless _ h₁

theorem visitExpr_heedless (hR : Journal.Parallel R) (e : Expr) :
    Heedless R (·.visitExpr e) := by
  induction e with
  | var v => exact visitVariable_heedless hR v
  | binary op left right position ihl ihr => exact ihl.comp ihr
  | unary op operand position ih => exact ih
  | literal v => exact fun _ _ h => h

theorem visitCall_heedless (hR : Journal.Parallel R) (c : Call) :
    Heedless R (·.visitCall c) := by
  intro w w' h
  have hargs := Heedless.foldl c.args (visitExpr_heedless hR) h
  obtain ⟨found, w₁, w₁', hw, hw', h₁⟩ := lookup_heedless hR c.name hargs
  simp only [visitCall, hw, hw']
  match found with
  | none => exact fail_heedless _ h₁
  | some (.procedure p, _) =>
      dsimp only
      split
      · obtain ⟨j, hj, rfl⟩ := h₁
        exact ⟨j, hj, rfl⟩
      · obtain ⟨j, hj, rfl⟩ := h₁
        exact ⟨j, hj, rfl⟩
  | some (.type _, _) => exact fail_heedless _ h₁
  | some (.var _, _) => exact fail_heedless _ h₁

mutual

theorem visitStatement_heedless (hR : Journal.Parallel R) :
    ∀ s : Statement, Heedless R (·.visitStatement s)
  | .compound body => visitStatements_heedless hR body
  | .assign target value =>
      (visitExpr_heedless hR value).comp (visitVariable_heedless hR target)
  | .call c => visitCall_heedless hR c
  | .write _ args _ => Heedless.foldl args (visitExpr_heedless hR)
  | .empty => fun _ _ h => h

theorem visitStatements_heedless (hR : Journal.Parallel R) :
    ∀ body : List Statement, Heedless R (·.visitStatements body)
  | [] => fun _ _ h => h
  | s :: body => (visitStatement_heedless hR s).comp (visitStatements_heedless hR body)

end

theorem resolveType_heedless (hR : Journal.Parallel R) (d : VarDecl) :
    HeedlessWith R (·.resolveType d) := by
  intro w w' h
  obtain ⟨found, w₁, w₁', hw, hw', h₁⟩ := lookup_heedless hR d.type.name h
  simp only [resolveType, hw, hw']
  match found with
  | none => exact ⟨none, _, _, rfl, rfl, fail_heedless _ h₁⟩
  | some (.type t, _) => exact ⟨some t, _, _, rfl, rfl, h₁⟩
  | some (.var _, _) => exact ⟨none, _, _, rfl, rfl, fail_heedless _ h₁⟩
  | some (.procedure _, _) => exact ⟨none, _, _, rfl, rfl, fail_heedless _ h₁⟩

theorem visitVarDecl_heedless (hR : Journal.Parallel R) (d : VarDecl) :
    Heedless R (·.visitVarDecl d) := by
  intro w w' h
  have htraced := h.trace hR .analyzer fun _ => s!"visit VarDecl {d.name}"
  obtain ⟨type?, w₁, w₁', hw, hw', h₁⟩ := resolveType_heedless hR d htraced
  simp only [visitVarDecl, hw, hw']
  cases type? with
  | none => exact h₁
  | some type => exact declare_heedless hR _ _ h₁

theorem resolveParams_heedless (hR : Journal.Parallel R) (decls : List VarDecl) :
    HeedlessWith R (·.resolveParams decls) := by
  induction decls with
  | nil => exact fun w w' h => ⟨[], w, w', rfl, rfl, h⟩
  | cons d decls ih =>
      intro w w' h
      obtain ⟨type?, w₁, w₁', hw, hw', h₁⟩ := resolveType_heedless hR d h
      obtain ⟨params, w₂, w₂', hw₂, hw₂', h₂⟩ := ih h₁
      simp only [resolveParams, hw, hw']
      cases type? with
      | none => exact ⟨params, w₂, w₂', hw₂, hw₂', h₂⟩
      | some type =>
          dsimp only at hw₂ hw₂' ⊢
          rw [hw₂, hw₂']
          exact ⟨_, w₂, w₂', rfl, rfl, h₂⟩

theorem Beside.scopeLevel_eq {w w' : Walk} (h : Beside R w w') :
    w'.scopeLevel = w.scopeLevel := by
  obtain ⟨j, -, rfl⟩ := h
  rfl

theorem openProcedure_heedless (hR : Journal.Parallel R) (name : String) (position : Position)
    (params : List VarDecl) (block : Block) :
    Heedless R (·.openProcedure name position params block) := by
  intro w w' h
  have htraced := h.trace hR .analyzer fun _ => s!"visit ProcedureDecl {name}"
  obtain ⟨params', w₁, w₁', hw, hw', h₁⟩ := resolveParams_heedless hR params htraced
  simp only [openProcedure, hw, hw', h₁.scopeLevel_eq]
  have hentered := enter_heedless name (declare_heedless hR
    (.procedure ⟨name, params'.map (·.1), block, w₁.scopeLevel⟩) position h₁)
  rw [hentered.scopeLevel_eq]
  exact Heedless.foldl params' (fun param => declare_heedless hR (.var param.1) param.2)
    (hentered.trace hR .analyzer _)

mutual

theorem visitBlock_heedless (hR : Journal.Parallel R) :
    ∀ b : Block, Heedless R (·.visitBlock b)
  | .mk vars procedures body =>
      ((Heedless.foldl vars (visitVarDecl_heedless hR)).comp
        (visitProcedures_heedless hR procedures)).comp (visitStatements_heedless hR body)

theorem visitProcedure_heedless (hR : Journal.Parallel R) :
    ∀ p : Procedure, Heedless R (·.visitProcedure p)
  | .mk name position params block =>
      ((openProcedure_heedless hR name position params block).comp
        (visitBlock_heedless hR block)).comp (leave_heedless hR)

theorem visitProcedures_heedless (hR : Journal.Parallel R) :
    ∀ procedures : List Procedure, Heedless R (·.visitProcedures procedures)
  | [] => fun _ _ h => h
  | p :: procedures =>
      (visitProcedure_heedless hR p).comp (visitProcedures_heedless hR procedures)

end

theorem visitProgram_heedless (hR : Journal.Parallel R) (p : Program) :
    Heedless R (·.visitProgram p) := by
  intro w w' h
  have htraced := h.trace hR .analyzer fun _ => s!"ENTER scope: global (program {p.name})"
  exact leave_heedless hR (visitBlock_heedless hR p.block htraced)

end Walk

end MiniPascal

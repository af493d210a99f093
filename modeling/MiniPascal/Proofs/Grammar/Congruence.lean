import MiniPascal.Grammar.Program

/-!
Relations between rules that follow how rules are built. If a relation holds between a few
rules that look at one token, and what is done in sequence keeps it, then it holds between the
rules of the whole grammar; and if a rule that fails for too deep nesting is related to
whatever is related to itself, it holds between the rules for different numbers of levels. So
what is to be shown of two ways to read the same tokens is shown for single tokens, and the
walk through the grammar is made here.
-/

namespace MiniPascal

theorem Token.Kind.name_ne_literal (kind : Token.Kind) : kind.name ≠ "literal" := by
  cases kind <;> decide

end MiniPascal

namespace MiniPascal.Rule

structure Congruence (Rel : {α : Type} → Rule α → Rule α → Prop) : Prop where
  pure {α : Type} (a : α) : Rel (pure a) (pure a)
  bind {α β : Type} {x x' : Rule α} {f f' : α → Rule β} :
    Rel x x' → (∀ a, Rel (f a) (f' a)) → Rel (x >>= f) (x' >>= f')
  note (message : Unit → String) : Rel (note message) (note message)
  current : Rel current current
  check (kind : Token.Kind) : Rel (check kind) (check kind)
  peekKind : Rel peekKind peekKind
  advance : Rel advance advance
  /-- Only a literal without a value is refused after it has been taken, and there this word
  stands. -/
  unexpected {α : Type} {expected : String} : expected ≠ "literal" →
    Rel (unexpected expected : Rule α) (unexpected expected)
  newId : Rel newId newId
  /-- Loops are bounded by the number of tokens. -/
  bounded {α : Type} {f f' : Nat → Rule α} :
    (∀ n, Rel (f n) (f' n)) → Rel (fun p => f p.total p) (fun p => f' p.total p)
  /-- A literal is only read where one stands. -/
  factorOf {signed signed' : UnaryOp → Rule Expr} {parenthesized parenthesized' : Rule Expr} :
    (∀ op, Rel (signed op) (signed' op)) → Rel parenthesized parenthesized' →
      Rel variableUse variableUse →
      Rel (factorOf signed parenthesized) (factorOf signed' parenthesized')

/-- The rules for `n` levels are compared with those for `m`: for as many, or for more. -/
structure Congruence.Widens (Rel : {α : Type} → Rule α → Rule α → Prop) (n m : Nat) :
    Prop where
  le : n ≤ m
  tooDeep {α : Type} : Rel (Rule.tooDeep : Rule α) Rule.tooDeep
  deepens {α : Type} {r : Rule α} : n < m → Rel r r → Rel Rule.tooDeep r

namespace Congruence

variable {Rel : {α : Type} → Rule α → Rule α → Prop} {α : Type} {n m : Nat}

theorem Widens.refl (h : ∀ {α : Type}, Rel (Rule.tooDeep : Rule α) Rule.tooDeep) (n : Nat) :
    Widens Rel n n :=
  ⟨Nat.le_refl n, h, fun hlt => absurd hlt (Nat.lt_irrefl n)⟩

theorem Widens.pred (h : Widens Rel (n + 1) (m + 1)) : Widens Rel n m :=
  ⟨Nat.le_of_succ_le_succ h.le, h.tooDeep, fun hlt => h.deepens (Nat.succ_lt_succ hlt)⟩

/-- With no level left, one of more levels is compared with a failure. -/
theorem Widens.zero (h : Widens Rel 0 (m + 1)) {r : Rule α} (hr : Rel r r) :
    Rel Rule.tooDeep r :=
  h.deepens (Nat.zero_lt_succ m) hr

theorem branch {c : Prop} [Decidable c] {x x' y y' : Rule α} (hx : Rel x x') (hy : Rel y y') :
    Rel (if c then x else y) (if c then x' else y') := by
  split
  · exact hx
  · exact hy

/-! ### Tokens and loops -/

theorem accept (H : Congruence Rel) (kind : Token.Kind) : Rel (accept kind) (accept kind) :=
  H.bind (H.check kind) fun _ => branch (H.bind H.advance fun _ => H.pure _) (H.pure _)

theorem eat (H : Congruence Rel) (kind : Token.Kind) : Rel (eat kind) (eat kind) :=
  H.bind H.current fun _ => H.bind (H.note _) fun _ => H.bind (H.check kind) fun _ =>
    branch H.advance (H.unexpected (Token.Kind.name_ne_literal _))

theorem identifier (H : Congruence Rel) : Rel identifier identifier :=
  H.bind (H.eat _) fun _ => H.pure _

theorem collect (H : Congruence Rel) {step step' : Rule (Option α)} (hstep : Rel step step') :
    Rel (collect step) (collect step') := by
  refine H.bounded fun n => ?_
  induction n with
  | zero => exact H.pure _
  | succ n ih =>
      apply H.bind hstep
      rintro (_ | a)
      · exact H.pure _
      · exact H.bind ih fun _ => H.pure _

section

variable {item item' : Rule α}

theorem preceded (H : Congruence Rel) (kind : Token.Kind) (hitem : Rel item item') :
    Rel (do if ← Rule.accept kind then return some (← item) else return none)
      (do if ← Rule.accept kind then return some (← item') else return none) :=
  H.bind (H.accept kind) fun _ => branch (H.bind hitem fun _ => H.pure _) (H.pure _)

theorem checked (H : Congruence Rel) (kind : Token.Kind) (hitem : Rel item item') :
    Rel (do if ← Rule.check kind then return some (← item) else return none)
      (do if ← Rule.check kind then return some (← item') else return none) :=
  H.bind (H.check kind) fun _ => branch (H.bind hitem fun _ => H.pure _) (H.pure _)

theorem separated (H : Congruence Rel) (sep : Token.Kind) (hitem : Rel item item') :
    Rel (separated sep item) (separated sep item') :=
  H.bind hitem fun _ => H.bind (H.collect (H.preceded sep hitem)) fun _ => H.pure _

end

/-! ### Expressions -/

theorem chain (H : Congruence Rel) (op? : Token.Kind → Option BinaryOp)
    {operand operand' : Rule Expr} (hoperand : Rel operand operand') :
    Rel (chain op? operand) (chain op? operand') := by
  have hjoin (n : Nat) (left : Expr) :
      Rel (joinUpTo op? operand n left) (joinUpTo op? operand' n left) := by
    induction n generalizing left with
    | zero => exact H.pure _
    | succ n ih =>
        apply H.bind H.current
        intro t
        cases op? t.kind with
        | none => exact H.pure _
        | some op => exact H.bind H.advance fun _ => H.bind hoperand fun _ => ih _
  exact H.bind hoperand fun first => H.bounded fun n => hjoin n first

theorem exprOf (H : Congruence Rel) {factor factor' : Rule Expr}
    (hfactor : Rel factor factor') :
    Rel (exprOf factor) (exprOf factor') :=
  H.bind (H.note _) fun _ => H.chain _ (H.chain _ hfactor)

theorem variableUse (H : Congruence Rel) : Rel variableUse variableUse :=
  H.bind H.identifier fun _ => H.bind H.newId fun _ => H.pure _

theorem signed (H : Congruence Rel) {factor factor' : Rule Expr} (hfactor : Rel factor factor')
    (op : UnaryOp) : Rel (signed factor op) (signed factor' op) :=
  H.bind H.advance fun _ => H.bind hfactor fun _ => H.pure _

theorem parenthesized (H : Congruence Rel) {expr expr' : Rule Expr} (hexpr : Rel expr expr') :
    Rel (parenthesized expr) (parenthesized expr') :=
  H.bind H.advance fun _ => H.bind hexpr fun _ => H.bind (H.eat _) fun _ => H.pure _

theorem factor (H : Congruence Rel) (h : Widens Rel n m) : Rel (factor n) (factor m) := by
  -- The rule for more levels has to be related to itself where the other one fails.
  induction m generalizing n with
  | zero =>
      obtain rfl := Nat.le_zero.mp h.le
      exact H.factorOf (fun _ => h.tooDeep) h.tooDeep H.variableUse
  | succ m ih =>
      cases n with
      | zero =>
          have hfactor := ih (.refl h.tooDeep m)
          exact H.factorOf (fun op => h.zero (H.signed hfactor op))
            (h.zero (H.parenthesized (H.exprOf hfactor))) H.variableUse
      | succ n =>
          have hfactor := ih h.pred
          exact H.factorOf (H.signed hfactor) (H.parenthesized (H.exprOf hfactor))
            H.variableUse

theorem expr (H : Congruence Rel) (h : Widens Rel n m) : Rel (expr n) (expr m) :=
  H.exprOf (H.factor h)

/-! ### Statements -/

section

variable {expr expr' : Rule Expr}

theorem arguments (H : Congruence Rel) (hexpr : Rel expr expr') :
    Rel (arguments expr) (arguments expr') := by
  refine H.bind (H.accept _) fun _ => branch ?_ (H.pure _)
  refine H.bind (H.check _) fun _ => branch ?_ ?_
  · exact H.bind (H.pure _) fun _ => H.bind (H.eat _) fun _ => H.pure _
  · exact H.bind (H.separated _ hexpr) fun _ => H.bind (H.eat _) fun _ => H.pure _

theorem assignment (H : Congruence Rel) (hexpr : Rel expr expr') :
    Rel (assignment expr) (assignment expr') :=
  H.bind (H.note _) fun _ => H.bind H.variableUse fun _ => H.bind (H.eat _) fun _ =>
    H.bind hexpr fun _ => H.pure _

theorem call (H : Congruence Rel) (hexpr : Rel expr expr') : Rel (call expr) (call expr') :=
  H.bind (H.note _) fun _ => H.bind H.identifier fun _ => H.bind (H.arguments hexpr) fun _ =>
    H.bind H.newId fun _ => H.pure _

theorem write (H : Congruence Rel) (hexpr : Rel expr expr') : Rel (write expr) (write expr') :=
  H.bind H.advance fun _ => H.bind (H.arguments hexpr) fun _ => H.pure _

theorem statementOf (H : Congruence Rel) {compound compound' : Rule (List Statement)}
    (hcompound : Rel compound compound') (hexpr : Rel expr expr') :
    Rel (statementOf compound expr) (statementOf compound' expr') := by
  apply H.bind H.current
  intro t
  cases t.kind
  case beginBlock => exact H.bind hcompound fun _ => H.pure _
  case identifier =>
    exact H.bind H.peekKind fun _ => branch (H.assignment hexpr)
      (H.bind (H.call hexpr) fun _ => H.pure _)
  case write => exact H.write hexpr
  case writeln => exact H.write hexpr
  all_goals exact H.pure _

end

theorem compound (H : Congruence Rel) (h : Widens Rel n m) :
    Rel (compound n) (compound m) := by
  have hinside {n m : Nat} (hcompound : Rel (Rule.compound n) (Rule.compound m))
      (hexpr : Rel (Rule.expr n) (Rule.expr m)) :
      Rel (do
          let _ ← Rule.eat .beginBlock
          let body ← statementListOf (Rule.compound n) (Rule.expr n)
          let _ ← Rule.eat .endBlock
          return body)
        (do
          let _ ← Rule.eat .beginBlock
          let body ← statementListOf (Rule.compound m) (Rule.expr m)
          let _ ← Rule.eat .endBlock
          return body) :=
    H.bind (H.eat _) fun _ => H.bind (H.separated _ (H.statementOf hcompound hexpr)) fun _ =>
      H.bind (H.eat _) fun _ => H.pure _
  induction m generalizing n with
  | zero =>
      obtain rfl := Nat.le_zero.mp h.le
      exact H.bind (H.note _) fun _ => h.tooDeep
  | succ m ih =>
      cases n with
      | zero =>
          have hbody := hinside (ih (.refl h.tooDeep m)) (H.expr (.refl h.tooDeep m))
          exact H.bind (H.note _) fun _ => h.zero hbody
      | succ n => exact H.bind (H.note _) fun _ => hinside (ih h.pred) (H.expr h.pred)

/-! ### Declarations -/

theorem typeName (H : Congruence Rel) : Rel typeName typeName := by
  apply H.bind H.current
  intro t
  cases t.kind
  case integer => exact H.bind H.advance fun _ => H.pure _
  case real => exact H.bind H.advance fun _ => H.pure _
  case string => exact H.bind H.advance fun _ => H.pure _
  all_goals exact H.unexpected (by decide)

theorem variableGroup (H : Congruence Rel) : Rel variableGroup variableGroup :=
  H.bind (H.separated _ H.identifier) fun _ => H.bind (H.eat _) fun _ =>
    H.bind H.typeName fun _ => H.pure _

theorem variableSection (H : Congruence Rel) : Rel variableSection variableSection := by
  have hline :
      Rel (do let decls ← Rule.variableGroup; let _ ← Rule.eat .semicolon; return decls)
      (do let decls ← Rule.variableGroup; let _ ← Rule.eat .semicolon; return decls) :=
    H.bind H.variableGroup fun _ => H.bind (H.eat _) fun _ => H.pure _
  exact H.bind hline fun _ => H.bind (H.collect (H.checked _ hline)) fun _ => H.pure _

section

variable {block block' : Rule Block}

theorem procedureOf (H : Congruence Rel) (hblock : Rel block block') :
    Rel (procedureOf block) (procedureOf block') := by
  have hrest (name : String) (position : Position) (params : List VarDecl) :
      Rel (do
          let _ ← Rule.eat .semicolon
          let block ← block
          let _ ← Rule.eat .semicolon
          return Procedure.mk name position params block)
        (do
          let _ ← Rule.eat .semicolon
          let block ← block'
          let _ ← Rule.eat .semicolon
          return Procedure.mk name position params block) :=
    H.bind (H.eat _) fun _ => H.bind hblock fun _ => H.bind (H.eat _) fun _ => H.pure _
  refine H.bind (H.note _) fun _ => H.bind (H.eat _) fun _ => H.bind H.identifier fun _ => ?_
  refine H.bind (H.accept _) fun _ => branch ?_ (H.bind (H.pure _) fun _ => hrest _ _ _)
  refine H.bind (H.check _) fun _ => branch ?_ ?_
  · exact H.bind (H.bind (H.separated _ H.variableGroup) fun _ => H.pure _) fun _ =>
      H.bind (H.eat _) fun _ => H.bind (H.pure _) fun _ => hrest _ _ _
  · exact H.bind (H.pure _) fun _ => H.bind (H.eat _)
      fun _ => H.bind (H.pure _) fun _ => hrest _ _ _

theorem declarationsOf (H : Congruence Rel) (hblock : Rel block block') :
    Rel (declarationsOf block) (declarationsOf block') :=
  H.bind (H.note _) fun _ => H.bind (H.collect (H.preceded _ H.variableSection)) fun _ =>
    H.bind (H.collect (H.checked _ (H.procedureOf hblock))) fun _ => H.pure _

end

theorem block (H : Congruence Rel) (h : Widens Rel n m) : Rel (block n) (block m) := by
  have hinside {n m : Nat} (hblock : Rel (Rule.block n) (Rule.block m))
      (hcompound : Rel (Rule.compound n) (Rule.compound m)) :
      Rel (Rule.block (n + 1)) (Rule.block (m + 1)) :=
    H.bind (H.declarationsOf hblock) fun _ => H.bind hcompound fun _ => H.pure _
  induction m generalizing n with
  | zero =>
      obtain rfl := Nat.le_zero.mp h.le
      exact h.tooDeep
  | succ m ih =>
      cases n with
      | zero =>
          exact h.zero (hinside (ih (.refl h.tooDeep m)) (H.compound (.refl h.tooDeep m)))
      | succ n => exact hinside (ih h.pred) (H.compound h.pred)

theorem program (H : Congruence Rel) (h : Widens Rel n m) : Rel (program n) (program m) :=
  H.bind (H.note _) fun _ => H.bind (H.eat _) fun _ => H.bind H.identifier fun _ =>
    H.bind (H.eat _) fun _ => H.bind (H.block h) fun _ => H.bind (H.eat _) fun _ => H.pure _

theorem wholeProgram (H : Congruence Rel) (h : Widens Rel n m) :
    Rel (wholeProgram n) (wholeProgram m) :=
  H.bind (H.note _) fun _ => H.bind (H.program h) fun _ => H.bind (H.eat _) fun _ => H.pure _

end Congruence

end MiniPascal.Rule

namespace MiniPascal

/-- Of the settings, reading depends on the limit alone. -/
theorem parseProgram_congr {s s' : Settings} (h : s.maxNesting = s'.maxNesting)
    (tokens : List Token) (j : Journal) :
    parseProgram tokens s j = parseProgram tokens s' j := by
  cases tokens <;> simp only [parseProgram, Parser.ofTokens, h]

end MiniPascal

import MiniPascal.Proofs.Grammar.Congruence
import MiniPascal.Proofs.Grammar.ViablePrefix

/-!
Levels that are open. A sign, an opening parenthesis, a compound statement and a block each
open a level, and it stays open until the factor, the statement or the block is complete. The
relations below say of tokens that have been read how many levels are open behind them, at a
place where one more would be opened: they follow the way from the whole program to that place,
and all that was complete before it is derived by the grammar.

When a rule that may open `n` levels fails because the nesting is too deep, then `n` levels are
open.
-/

namespace MiniPascal

namespace Grammar

/-- So many levels are open behind the tokens. -/
abbrev Opening := Nat → List Token → Prop

/-! ### Repetition -/

inductive OpenMany {α : Type} (Item : Judgment α) (Open : Opening) : Opening
  | last {n : Nat} {ts : List Token} : Open n ts → OpenMany Item Open n ts
  | later {n d : Nat} {ts us : List Token} {i j : NodeId} {a : α} :
      Item d ts i a j → OpenMany Item Open n us → OpenMany Item Open n (ts ++ us)

inductive OpenPreceded (sep : Token.Kind) (Open : Opening) : Opening
  | mk {n : Nat} {t : Token} {ts : List Token} :
      t.kind = sep → Open n ts → OpenPreceded sep Open n (t :: ts)

inductive OpenSeparated {α : Type} (sep : Token.Kind) (Item : Judgment α) (Open : Opening) :
    Opening
  | first {n : Nat} {ts : List Token} : Open n ts → OpenSeparated sep Item Open n ts
  | later {n d : Nat} {ts us : List Token} {i j : NodeId} {a : α} :
      Item d ts i a j → OpenMany (Preceded sep Item) (OpenPreceded sep Open) n us →
      OpenSeparated sep Item Open n (ts ++ us)

inductive OpenChain (Op : Token.Kind → BinaryOp → Prop) (Operand : Judgment Expr)
    (Open : Opening) :
    Opening
  | first {n : Nat} {ts : List Token} : Open n ts → OpenChain Op Operand Open n ts
  | later {n d : Nat} {ts us : List Token} {t : Token} {op : BinaryOp} {i j : NodeId}
      {left : Expr} :
      Chain Op Operand d ts i left j → Op t.kind op → Open n us →
      OpenChain Op Operand Open n (ts ++ t :: us)

/-! ### Expressions -/

inductive OpenFactor : Opening
  | here : OpenFactor 0 []
  | signed {n : Nat} {t : Token} {ts : List Token} {op : UnaryOp} :
      IsSign t.kind op → OpenFactor n ts → OpenFactor (n + 1) (t :: ts)
  | parenthesized {n : Nat} {l : Token} {ts : List Token} :
      l.kind = .leftParen →
      OpenChain IsSumOp (Chain IsProductOp IsFactor)
        (OpenChain IsProductOp IsFactor OpenFactor) n ts →
      OpenFactor (n + 1) (l :: ts)

abbrev OpenExpr : Opening :=
  OpenChain IsSumOp IsTerm (OpenChain IsProductOp IsFactor OpenFactor)

/-! ### Statements -/

inductive OpenArguments : Opening
  | mk {n : Nat} {l : Token} {ts : List Token} :
      l.kind = .leftParen → OpenSeparated .comma IsExpr OpenExpr n ts →
      OpenArguments n (l :: ts)

mutual

inductive OpenStatement : Opening
  | compound {n : Nat} {ts : List Token} : OpenCompound n ts → OpenStatement n ts
  | assign {n : Nat} {t a : Token} {ts : List Token} :
      t.kind = .identifier → a.kind = .assign → OpenExpr n ts → OpenStatement n (t :: a :: ts)
  | call {n : Nat} {t : Token} {ts : List Token} :
      t.kind = .identifier → OpenArguments n ts → OpenStatement n (t :: ts)
  | write {n : Nat} {t : Token} {ts : List Token} {newline : Bool} :
      IsWrite t.kind newline → OpenArguments n ts → OpenStatement n (t :: ts)

inductive OpenCompound : Opening
  | here : OpenCompound 0 []
  | inside {n : Nat} {b : Token} {ts : List Token} :
      b.kind = .beginBlock → OpenSeparated .semicolon IsStatement OpenStatement n ts →
      OpenCompound (n + 1) (b :: ts)

end

/-! ### Declarations -/

mutual

inductive OpenProcedure : Opening
  | mk {n d : Nat} {p w s : Token} {ts us : List Token} {i j : NodeId}
      {groups : List (List VarDecl)} :
      p.kind = .procedure → w.kind = .identifier → IsParams d ts i groups j →
      s.kind = .semicolon →
      OpenBlock n us → OpenProcedure n (p :: w :: (ts ++ s :: us))

inductive OpenBlock : Opening
  | here : OpenBlock 0 []
  | procedures {n d : Nat} {ts us : List Token} {i j : NodeId}
      {sections : List (List VarDecl)} :
      Many IsSection d ts i sections j → OpenMany IsProcedure OpenProcedure n us →
      OpenBlock (n + 1) (ts ++ us)
  | body {n d d' : Nat} {ts us vs : List Token} {i j k : NodeId}
      {sections : List (List VarDecl)}
      {procedures : List Procedure} :
      Many IsSection d ts i sections j → Many IsProcedure d' us j procedures k →
      OpenCompound n vs →
      OpenBlock (n + 1) (ts ++ (us ++ vs))

end

inductive OpenProgram : Opening
  | mk {n : Nat} {p w s : Token} {ts : List Token} :
      p.kind = .program → w.kind = .identifier → s.kind = .semicolon → OpenBlock n ts →
      OpenProgram n (p :: w :: s :: ts)

end Grammar

namespace Rule

open Grammar

variable {α β : Type} {n : Nat}

/-! ### Rules that open nothing -/

/-- The rule does not fail because of the nesting. -/
def Flat (r : Rule α) : Prop :=
  ∀ ⦃p q : Parser⦄ ⦃t : Token⦄ ⦃k : Nat⦄, r p ≠ .error (.tooDeep t k) q

theorem Flat.bind {x : Rule α} {f : α → Rule β} (hx : Flat x) (hf : ∀ a, Flat (f a)) :
    Flat (x >>= f) := by
  intro p q t k h
  rcases bind_eq_error h with h | ⟨a, r, -, h⟩
  · exact hx h
  · exact hf a h

theorem literal_flat : Flat literal := by
  intro p q t k h
  rcases bind_eq_error h with h | ⟨u, r, -, h⟩
  · exact advance_ne_error h
  · cases hv : u.value <;> rw [hv] at h <;> cases h

theorem flat_congruence : Congruence fun r _ => Flat r where
  pure _ := by rintro p q t k ⟨⟩
  bind hx hf := hx.bind hf
  note _ := by rintro p q t k ⟨⟩
  current := by rintro p q t k ⟨⟩
  check _ := by rintro p q t k ⟨⟩
  peekKind p q t k h := by
    obtain ⟨kind, hkind⟩ := exists_peekKind p
    rw [hkind] at h
    cases h
  advance := fun _ _ _ _ => advance_ne_error
  unexpected _ := by rintro p q t k ⟨⟩
  newId := by rintro p q t k ⟨⟩
  bounded hf := fun p _ _ _ => @hf p.total p _ _ _
  factorOf hsigned hparenthesized hvariable := by
    intro p q t k h
    rcases bind_eq_error h with h | ⟨u, r, -, h⟩
    · cases h
    cases hk : u.kind <;> rw [hk] at h
    case plus => exact hsigned .plus h
    case minus => exact hsigned .minus h
    case leftParen => exact hparenthesized h
    case integerLiteral => exact literal_flat h
    case realLiteral => exact literal_flat h
    case stringLiteral => exact literal_flat h
    case identifier =>
      rcases bind_eq_error h with h | ⟨v, r, -, h⟩
      · exact hvariable h
      · cases h
    all_goals cases h

theorem parameters_flat : Flat parameters := by
  have hgroups : Flat (separated .semicolon variableGroup) :=
    @Congruence.separated _ _ _ variableGroup flat_congruence _ flat_congruence.variableGroup
  exact hgroups.bind fun _ => flat_congruence.pure _

theorem sections_flat :
    Flat
      (collect do if ← accept .var then return some (← variableSection) else return none) := by
  have hstep := @Congruence.preceded _ _ _ variableSection flat_congruence .var
    flat_congruence.variableSection
  -- Only the first of the two rules that are compared matters.
  exact @Congruence.collect _ _ flat_congruence _ (pure none) hstep

/-! ### Sequence -/

/-- When the rule fails because of the nesting, it has read tokens as `O` says. -/
def Opens (r : Rule α) (O : List Token → Prop) : Prop :=
  ∀ ⦃p q : Parser⦄ ⦃us : List Token⦄ ⦃i : NodeId⦄ ⦃t : Token⦄ ⦃k : Nat⦄, p.At us i →
    r p = .error (.tooDeep t k) q → ∃ ts vs j, us = ts ++ vs ∧ q.At vs j ∧ O ts

namespace Opens

variable {O O' : List Token → Prop}

theorem mono {r : Rule α} (h : Opens r O) (hO : ∀ ts, O ts → O' ts) : Opens r O' := by
  intro p q us i t k hp hr
  obtain ⟨ts, vs, j, hus, hq, hts⟩ := h hp hr
  exact ⟨ts, vs, j, hus, hq, hO ts hts⟩

theorem of_flat {r : Rule α} (h : Flat r) : Opens r O :=
  fun _ _ _ _ _ _ _ hr => (h hr).elim

theorem tooDeep (h : O []) : Opens (tooDeep : Rule α) O := by
  rintro p q us i t k hp ⟨⟩
  exact ⟨[], us, i, rfl, hp, h⟩

/-- What the first rule has read stands before what the second has read. -/
theorem bind {x : Rule α} {f : α → Rule β} {D : List Token → NodeId → α → NodeId → Prop}
    (hx : Opens x O) (hsound : Sound x D)
    (hf : ∀ ts i a j, D ts i a j → Opens (f a) fun us => O (ts ++ us)) :
    Opens (x >>= f) O := by
  intro p q us i t k hp h
  rcases bind_eq_error h with h | ⟨a, r, ha, h⟩
  · exact hx hp h
  · obtain ⟨ts, vs, j, rfl, hr, hD⟩ := hsound hp ha
    obtain ⟨ts', ws, j', rfl, hq, hO⟩ := hf ts i a j hD hr h
    exact ⟨ts ++ ts', ws, j', by rw [List.append_assoc], hq, hO⟩

/-- Nothing is opened after the first rule. -/
theorem before {x : Rule α} {f : α → Rule β} (hx : Opens x O) (hf : ∀ a, Flat (f a)) :
    Opens (x >>= f) O := by
  intro p q us i t k hp h
  rcases bind_eq_error h with h | ⟨a, r, -, h⟩
  · exact hx hp h
  · exact (hf a h).elim

theorem note {f : Unit → Rule β} {message : Unit → String} (hf : Opens (f ()) O) :
    Opens (note message >>= f) O := by
  intro p q us i t k hp h
  rcases bind_eq_error h with h | ⟨_, r, hr, h⟩
  · cases h
  · exact hf (note_eq_ok hp hr) h

theorem pure {a : α} {f : α → Rule β} (hf : Opens (f a) O) : Opens (pure a >>= f) O := by
  intro p q us i t k hp h
  rcases bind_eq_error h with h | ⟨b, r, hr, h⟩
  · cases h
  · obtain ⟨rfl, rfl⟩ := pure_eq_ok.mp hr
    exact hf hp h

theorem peekKind {f : Token.Kind → Rule β} (hf : ∀ kind, Opens (f kind) O) :
    Opens (peekKind >>= f) O := by
  intro p q us i t k hp h
  obtain ⟨kind, hkind⟩ := exists_peekKind p
  rw [bind_of_ok hkind] at h
  exact hf kind hp h

theorem check {f : Bool → Rule β} {kind : Token.Kind} (hf : ∀ c, Opens (f c) O) :
    Opens (check kind >>= f) O := by
  intro p q us i t k hp h
  rcases bind_eq_error h with h | ⟨c, r, hr, h⟩
  · cases h
  · exact hf c (check_eq_ok hp hr).2 h

theorem accept {f : Bool → Rule β} {kind : Token.Kind} (hkind : kind ≠ .endOfText)
    (htrue : ∀ t, t.kind = kind → Opens (f true) fun us => O (t :: us))
    (hfalse : Opens (f false) O) :
    Opens (accept kind >>= f) O := by
  intro p q us i t k hp h
  rcases bind_eq_error h with h | ⟨c, r, hr, h⟩
  · exact absurd h accept_ne_error
  · rcases accept_eq_ok hkind hp hr with ⟨rfl, u, vs, rfl, hu, hr⟩ | ⟨rfl, -, hr⟩
    · obtain ⟨ts, ws, j, rfl, hq, hO⟩ := htrue u hu hr h
      exact ⟨u :: ts, ws, j, rfl, hq, hO⟩
    · exact hfalse hr h

theorem eat {f : Token → Rule β} {kind : Token.Kind} (hkind : kind ≠ .endOfText)
    (hf : ∀ t, t.kind = kind → Opens (f t) fun us => O (t :: us)) :
    Opens (eat kind >>= f) O := by
  intro p q us i t k hp h
  rcases bind_eq_error h with h | ⟨u, r, hr, h⟩
  · exact of_flat (flat_congruence.eat kind) hp h
  · obtain ⟨vs, rfl, hu, hr⟩ := eat_eq_ok hkind hp hr
    obtain ⟨ts, ws, j, rfl, hq, hO⟩ := hf u hu hr h
    exact ⟨u :: ts, ws, j, rfl, hq, hO⟩

theorem identifier {f : String × Position → Rule β}
    (hf : ∀ t, t.kind = .identifier → Opens (f (t.word, t.position)) fun us => O (t :: us)) :
    Opens (identifier >>= f) O := by
  intro p q us i t k hp h
  rcases bind_eq_error h with h | ⟨name, r, hname, h⟩
  · exact of_flat flat_congruence.identifier hp h
  · obtain ⟨u, vs, rfl, hu, rfl, hr⟩ := identifier_eq_ok hp hname
    obtain ⟨ts, ws, j, rfl, hq, hO⟩ := hf u hu hr h
    exact ⟨u :: ts, ws, j, rfl, hq, hO⟩

theorem variableUse {f : Variable → Rule β}
    (hf : ∀ t v, t.kind = .identifier → Opens (f v) fun us => O (t :: us)) :
    Opens (variableUse >>= f) O := by
  intro p q us i t k hp h
  rcases bind_eq_error h with h | ⟨v, r, hr, h⟩
  · exact of_flat flat_congruence.variableUse hp h
  · obtain ⟨u, vs, rfl, hu, -, hr⟩ := variableUse_eq_ok hp hr
    obtain ⟨ts, ws, j, rfl, hq, hO⟩ := hf u v hu hr h
    exact ⟨u :: ts, ws, j, rfl, hq, hO⟩

end Opens

/-! ### Repetition -/

section

variable {Item : Judgment α} {Open : Opening} {d : Nat}

theorem Opens.collectUpTo {step : Rule (Option α)} (hsound : SoundStep step (Item.Within d))
    (hstep : Opens step (Open n)) (m : Nat) :
    Opens (collectUpTo step m) (OpenMany Item Open n) := by
  induction m with
  | zero => exact .of_flat (flat_congruence.pure _)
  | succ m ih =>
      intro p q us i t k hp h
      rcases bind_eq_error h with h | ⟨o, p₁, ho, h⟩
      · exact hstep.mono (fun _ => .last) hp h
      · rcases hsound hp ho with ⟨rfl, -⟩ | ⟨a, ts, vs, j, rfl, rfl, hp₁, d', -, ha⟩
        · cases h
        · rcases bind_eq_error h with h | ⟨as, p₂, -, h⟩
          · obtain ⟨ts', ws, k, rfl, hq, hO⟩ := ih hp₁ h
            exact ⟨ts ++ ts', ws, k, by rw [List.append_assoc], hq, .later ha hO⟩
          · cases h

theorem Opens.collect {step : Rule (Option α)} (hsound : SoundStep step (Item.Within d))
    (hstep : Opens step (Open n)) : Opens (collect step) (OpenMany Item Open n) :=
  fun p _ _ _ _ _ hp h => Opens.collectUpTo hsound hstep p.total hp h

variable {item : Rule α} {sep : Token.Kind}

theorem Opens.preceded (hsep : sep ≠ .endOfText) (hitem : Opens item (Open n)) :
    Opens (do if ← Rule.accept sep then return some (← item) else return none)
      (OpenPreceded sep Open n) := by
  refine .accept hsep (fun t ht => ?_) (.of_flat (flat_congruence.pure _))
  exact (hitem.mono fun _ => .mk ht).before fun _ => flat_congruence.pure _

theorem Opens.checked {kind : Token.Kind} (hitem : Opens item (Open n)) :
    Opens (do if ← Rule.check kind then return some (← item) else return none) (Open n) := by
  refine .check fun c => ?_
  cases c with
  | true => exact hitem.before fun _ => flat_congruence.pure _
  | false => exact .of_flat (flat_congruence.pure _)

theorem Opens.separated (hsep : sep ≠ .endOfText) (hsound : Sound item (Item.Within d))
    (hitem : Opens item (Open n)) :
    Opens (separated sep item) (OpenSeparated sep Item Open n) := by
  refine .bind (hitem.mono fun _ => .first) hsound ?_
  rintro ts i a j ⟨d', -, ha⟩
  refine .before ?_ fun _ => flat_congruence.pure _
  exact (Opens.collect (preceded_sound hsep hsound) (.preceded hsep hitem)).mono
    fun _ => .later ha

end

/-! ### Expressions -/

section

variable {op? : Token.Kind → Option BinaryOp} {Op : Token.Kind → BinaryOp → Prop}
variable {operand : Rule Expr} {Operand : Judgment Expr} {Open : Opening} {d : Nat}

theorem joinUpTo_opens (hop : ∀ k op, op? k = some op → Op k op) (hend : op? .endOfText = none)
    (hsound : Sound operand (Operand.Within d)) (hopens : Opens operand (Open n)) (m : Nat)
    {p q : Parser} {d' : Nat} {ts us : List Token} {i j : NodeId} {left : Expr}
    {t : Token} {k : Nat} (hleft : Chain Op Operand d' ts i left j) (hp : p.At us j)
    (h : joinUpTo op? operand m left p = .error (.tooDeep t k) q) :
    ∃ ts' vs l, us = ts' ++ vs ∧ q.At vs l ∧ OpenChain Op Operand Open n (ts ++ ts') := by
  induction m generalizing p d' ts us j left with
  | zero => cases h
  | succ m ih =>
      rcases bind_eq_error h with h | ⟨u, p₁, hu, h⟩
      · cases h
      cases hu
      cases hk : op? p.current.kind with
      | none =>
          rw [hk] at h
          cases h
      | some op =>
          rw [hk] at h
          rcases bind_eq_error h with h | ⟨u, p₂, hadvance, h⟩
          · exact absurd h advance_ne_error
          rw [hp.current_kind] at hk
          have hne : headKind us ≠ .endOfText := by
            intro hu
            rw [hu, hend] at hk
            cases hk
          obtain ⟨vs, rfl, hp₂⟩ := advance_eq_ok hp hne hadvance
          rcases bind_eq_error h with h | ⟨right, p₃, hright, h⟩
          · obtain ⟨ts', ws, l, rfl, hq, hO⟩ := hopens hp₂ h
            exact ⟨u :: ts', ws, l, rfl, hq, .later hleft (hop _ _ hk) hO⟩
          · obtain ⟨ts', ws, l, rfl, hp₃, d'', -, hright⟩ := hsound hp₂ hright
            obtain ⟨us', ys, l', rfl, hq, hO⟩ := ih (.more hleft (hop _ _ hk) hright) hp₃ h
            rw [List.append_assoc] at hO
            exact ⟨u :: (ts' ++ us'), ys, l', by simp, hq, hO⟩

theorem Opens.chain (hop : ∀ k op, op? k = some op → Op k op) (hend : op? .endOfText = none)
    (hsound : Sound operand (Operand.Within d)) (hopens : Opens operand (Open n)) :
    Opens (chain op? operand) (OpenChain Op Operand Open n) := by
  intro p q us i t k hp h
  rcases bind_eq_error h with h | ⟨first, p₁, hfirst, h⟩
  · exact hopens.mono (fun _ => .first) hp h
  · obtain ⟨ts, vs, j, rfl, hp₁, d', -, hfirst⟩ := hsound hp hfirst
    obtain ⟨ts', ws, l, rfl, hq, hO⟩ :=
      joinUpTo_opens hop hend hsound hopens _ (.one hfirst) hp₁ h
    exact ⟨ts ++ ts', ws, l, by rw [List.append_assoc], hq, hO⟩

end

theorem Opens.exprOf {factor : Rule Expr} {d : Nat} (hsound : Sound factor (IsFactor.Within d))
    (hfactor : Opens factor (OpenFactor n)) : Opens (exprOf factor) (OpenExpr n) :=
  .note (.chain isSumOp_of_sumOp? rfl (chain_sound isProductOp_of_productOp? rfl hsound)
    (.chain isProductOp_of_productOp? rfl hsound hfactor))

/-- The same for a rule that is used where a token of a kind as `P` says is next. -/
def OpensFrom (P : Token.Kind → Prop) (r : Rule α) (O : List Token → Prop) : Prop :=
  ∀ ⦃p q : Parser⦄ ⦃u : Token⦄ ⦃us : List Token⦄ ⦃i : NodeId⦄ ⦃t : Token⦄ ⦃k : Nat⦄,
    P u.kind → p.At (u :: us) i → r p = .error (.tooDeep t k) q →
    ∃ ts vs j, u :: us = ts ++ vs ∧ q.At vs j ∧ O ts

theorem Opens.from {P : Token.Kind → Prop} {r : Rule α} {O : List Token → Prop}
    (h : Opens r O) :
    OpensFrom P r O :=
  fun _ _ _ _ _ _ _ _ hp hr => h hp hr

theorem OpensFrom.advance {P : Token.Kind → Prop} {f : Token → Rule α} {O : List Token → Prop}
    (hf : ∀ u, P u.kind → Opens (f u) fun us => O (u :: us)) :
    OpensFrom P (advance >>= f) O := by
  intro p q u us i t k hu hp h
  rcases bind_eq_error h with h | ⟨w, p₁, hadvance, h⟩
  · exact absurd h advance_ne_error
  · obtain ⟨rfl, hp₁⟩ := Reads.advance.eq hp hadvance
    obtain ⟨ts, vs, j, rfl, hq, hO⟩ := hf w hu hp₁ h
    exact ⟨w :: ts, vs, j, rfl, hq, hO⟩

theorem Opens.factorOf {signed : UnaryOp → Rule Expr} {parenthesized : Rule Expr}
    {O : List Token → Prop} (hsigned : ∀ op, OpensFrom (IsSign · op) (signed op) O)
    (hparenthesized : OpensFrom (· = .leftParen) parenthesized O) :
    Opens (factorOf signed parenthesized) O := by
  intro p q us i t k hp h
  rcases bind_eq_error h with h | ⟨u, p₁, hcurrent, h⟩
  · cases h
  cases hcurrent
  cases us with
  | nil =>
      rw [hp.current_kind] at h
      cases h
  | cons u us =>
      rw [hp.current_eq] at h
      cases hk : u.kind <;> rw [hk] at h
      case plus => exact hsigned .plus (by rw [hk]; exact .plus) hp h
      case minus => exact hsigned .minus (by rw [hk]; exact .minus) hp h
      case leftParen => exact hparenthesized hk hp h
      case integerLiteral => exact (literal_flat h).elim
      case realLiteral => exact (literal_flat h).elim
      case stringLiteral => exact (literal_flat h).elim
      case identifier =>
        exact of_flat (flat_congruence.variableUse.bind fun _ => flat_congruence.pure _) hp h
      all_goals cases h

theorem factor_opens (n : Nat) : Opens (factor n) (OpenFactor n) := by
  induction n with
  | zero =>
      have hhere : Opens (tooDeep : Rule Expr) (OpenFactor 0) := .tooDeep .here
      exact .factorOf (fun _ => hhere.from) hhere.from
  | succ n ih =>
      refine .factorOf (fun op => .advance fun u hu => ?_) (.advance fun l hl => ?_)
      · exact (ih.mono fun _ => .signed hu).before fun _ => flat_congruence.pure _
      · have hexpr := Opens.exprOf (factor_sound n) ih
        exact (hexpr.mono fun _ => .parenthesized hl).before fun _ =>
          (flat_congruence.eat _).bind fun _ => flat_congruence.pure _

theorem expr_opens (n : Nat) : Opens (expr n) (OpenExpr n) :=
  .exprOf (factor_sound n) (factor_opens n)

/-! ### Statements -/

section

variable {expr : Rule Expr} {d : Nat}

theorem Opens.arguments (hsound : Sound expr (IsExpr.Within d))
    (hexpr : Opens expr (OpenExpr n)) :
    Opens (arguments expr) (OpenArguments n) := by
  refine .accept (by decide) (fun l hl => .check fun c => ?_)
    (.of_flat (flat_congruence.pure _))
  cases c with
  | true =>
      exact .of_flat ((flat_congruence.pure _).bind
        fun _ => (flat_congruence.eat _).bind fun _ => flat_congruence.pure _)
  | false =>
      have hargs : Opens (Rule.separated .comma expr)
          (OpenSeparated .comma IsExpr OpenExpr n) :=
        .separated (by decide) hsound hexpr
      exact (hargs.mono fun _ => .mk hl).before fun _ => (flat_congruence.eat _).bind fun _ =>
        flat_congruence.pure _

theorem Opens.assignment (hexpr : Opens expr (OpenExpr n)) :
    Opens (assignment expr) (OpenStatement n) := by
  refine .note (.variableUse fun t v ht => .eat (by decide) fun a ha => ?_)
  exact (hexpr.mono fun _ => .assign ht ha).before fun _ => flat_congruence.pure _

theorem Opens.call (hsound : Sound expr (IsExpr.Within d)) (hexpr : Opens expr (OpenExpr n)) :
    Opens (call expr) (OpenStatement n) := by
  refine .note (.identifier fun t ht => ?_)
  exact ((hexpr.arguments hsound).mono fun _ => .call ht).before fun _ =>
    flat_congruence.newId.bind fun _ => flat_congruence.pure _

theorem OpensFrom.write (hsound : Sound expr (IsExpr.Within d))
    (hexpr : Opens expr (OpenExpr n)) :
    OpensFrom (fun k => k = .write ∨ k = .writeln) (write expr) (OpenStatement n) := by
  refine .advance fun u hu => ?_
  exact ((hexpr.arguments hsound).mono fun _ => .write (isWrite_of_kind hu)).before fun _ =>
    flat_congruence.pure _

theorem Opens.statementOf {compound : Rule (List Statement)}
    (hsound : Sound expr (IsExpr.Within d)) (hexpr : Opens expr (OpenExpr n))
    (hcompound : Opens compound (OpenCompound n)) :
    Opens (statementOf compound expr) (OpenStatement n) := by
  intro p q us i t k hp h
  rcases bind_eq_error h with h | ⟨u, p₁, hcurrent, h⟩
  · cases h
  cases hcurrent
  cases us with
  | nil =>
      rw [hp.current_kind] at h
      cases h
  | cons u us =>
      rw [hp.current_eq] at h
      cases hk : u.kind <;> rw [hk] at h
      case beginBlock =>
        exact (hcompound.mono fun _ => .compound).before (fun _ => flat_congruence.pure _) hp h
      case identifier =>
        refine Opens.peekKind (fun kind => ?_) hp h
        split
        · exact hexpr.assignment
        · exact (hexpr.call hsound).before fun _ => flat_congruence.pure _
      case write => exact OpensFrom.write hsound hexpr (.inl hk) hp h
      case writeln => exact OpensFrom.write hsound hexpr (.inr hk) hp h
      all_goals cases h

end

theorem compound_opens (n : Nat) : Opens (compound n) (OpenCompound n) := by
  induction n with
  | zero => exact .note (.tooDeep .here)
  | succ n ih =>
      refine .note (.eat (by decide) fun b hb => ?_)
      have hbody : Opens (statementListOf (compound n) (expr n))
          (OpenSeparated .semicolon IsStatement OpenStatement n) :=
        .separated (by decide) (statementOf_sound (compound_sound n) (expr_sound n))
          (.statementOf (expr_sound n) (expr_opens n) ih)
      exact (hbody.mono fun _ => .inside hb).before
        fun _ => (flat_congruence.eat _).bind fun _ =>
        flat_congruence.pure _

/-! ### Declarations -/

section

variable {block : Rule Block} {d : Nat}

theorem parameters_sound :
    Sound parameters fun ts i _ j => ∃ d groups,
    Separated .semicolon IsGroup d ts i groups j := by
  intro p q us i params hp h
  obtain ⟨groups, p₁, hgroups, h⟩ := bind_eq_ok.mp h
  obtain ⟨-, rfl⟩ := pure_eq_ok.mp h
  have hgroup : Sound variableGroup (IsGroup.Within 0) := variableGroup_sound
  obtain ⟨ts, vs, j, rfl, hq, d, -, hgroups⟩ := separated_sound (by decide) hgroup hp hgroups
  exact ⟨ts, vs, j, rfl, hq, d, groups, hgroups⟩

theorem Opens.procedureOf (hblock : Opens block (OpenBlock n)) :
    Opens (procedureOf block) (OpenProcedure n) := by
  -- However the parameters were given, the rest is read in the same way.
  have hrest (name : String) (position : Position) (params : List VarDecl)
      {O : List Token → Prop}
      (hO : ∀ s us, s.kind = .semicolon → OpenBlock n us → O (s :: us)) : Opens
      (do
        let _ ← Rule.eat .semicolon
        let block ← block
        let _ ← Rule.eat .semicolon
        return Procedure.mk name position params block) O :=
    .eat (by decide) fun s hs => (hblock.mono fun us => hO s us hs).before fun _ =>
      (flat_congruence.eat _).bind fun _ => flat_congruence.pure _
  refine .note (.eat (by decide) fun w hw => .identifier fun u hu => ?_)
  refine .accept (by decide) (fun l hl => .check fun c => ?_) ?_
  · cases c with
    | true =>
        refine .bind (.of_flat parameters_flat) parameters_sound ?_
        rintro ts i params j ⟨d, groups, hgroups⟩
        refine .eat (by decide) fun r hr => .pure (hrest _ _ _ fun s us hs hb => ?_)
        have hopen := OpenProcedure.mk hw hu (.list hl hgroups hr) hs hb
        simpa using hopen
    | false =>
        refine .pure (.eat (by decide) fun r hr => .pure (hrest _ _ _ fun s us hs hb => ?_))
        exact .mk hw hu (.empty (i := 0) hl hr) hs hb
  · exact .pure (hrest _ _ _ fun s us hs hb => .mk hw hu (.absent (i := 0)) hs hb)

end

theorem block_opens (n : Nat) : Opens (block n) (OpenBlock n) := by
  induction n with
  | zero => exact .tooDeep .here
  | succ n ih =>
      have hsections : SoundStep
          (do if ← accept .var then return some (← variableSection) else return none)
          (IsSection.Within 0) := sections_sound
      have hprocedures : SoundStep
          (do
            if ← check .procedure then return some (← procedureOf (block n)) else return none)
          (IsProcedure.Within n) := checked_sound (procedureOf_sound (block_sound n))
      intro p q us i t k hp h
      rcases bind_eq_error h with h | ⟨r, p₁, hr, h⟩
      · -- A procedure among the declarations is nested too deeply.
        refine Opens.note (.bind (.of_flat sections_flat) (collect_sound hsections) ?_) hp h
        rintro ts i sections j ⟨d, -, hread⟩
        refine .before ?_ fun _ => flat_congruence.pure _
        have hopens := Opens.collect hprocedures (.checked (.procedureOf ih))
        exact hopens.mono fun _ => .procedures hread
      · obtain ⟨sections, ts, ts', vs, j, l, -, rfl, hp₁, ⟨d, -, hread⟩, d', -, hread'⟩ :=
          declarationsOf_eq_ok (block_sound n) hp hr
        rcases bind_eq_error h with h | ⟨body, p₂, -, h⟩
        · obtain ⟨us, ws, l, rfl, hq, hO⟩ := compound_opens n hp₁ h
          exact ⟨ts ++ (ts' ++ us), ws, l, by simp, hq, .body hread hread' hO⟩
        · cases h

/-- Where a program is nested too deeply, as many levels are open as may be. -/
theorem wholeProgram_opens (n : Nat) : Opens (wholeProgram n) (OpenProgram n) := by
  refine .note (.before ?_ fun _ => (flat_congruence.eat _).bind
    fun _ => flat_congruence.pure _)
  refine .note (.eat (by decide) fun p hp => .identifier
    fun w hw => .eat (by decide) fun s hs => ?_)
  exact ((block_opens n).mono fun _ => .mk hp hw hs).before fun _ =>
    (flat_congruence.eat _).bind fun _ => flat_congruence.pure _

end Rule

end MiniPascal

import MiniPascal.Proofs.Grammar.Reading

/-!
What the grammar derives, the rules accept, with the tree that it derives. A rule looks at most
one token past what it reads, to see whether more of the same follows; `Complete r D P` says
that `r` reads all that `D` derives where a kind as `P` says comes next.
-/

namespace MiniPascal.Rule

open Grammar

variable {α : Type} {n : Nat}

def Complete (r : Rule α) (D : List Token → NodeId → α → NodeId → Prop)
    (P : Token.Kind → Prop) : Prop :=
  ∀ ⦃ts : List Token⦄ ⦃i : NodeId⦄ ⦃a : α⦄ ⦃j : NodeId⦄, D ts i a j →
    ∀ ⦃vs : List Token⦄, P (headKind vs) → Reads r (ts ++ vs) i a vs j

/-! ### Repetition -/

section Repetition

variable {step : Rule (Option α)} {Item : Judgment α} {P Q : Token.Kind → Prop}

/-- The fuel `m` counts tokens, and every item takes one. -/
theorem collectUpTo_complete (hsome : ∀ ⦃ts i a j⦄, Item.Within n ts i a j → ∀ ⦃vs⦄,
      P (headKind vs) → Reads step (ts ++ vs) i (some a) vs j)
    (hnone : ∀ ⦃vs i⦄, Q (headKind vs) → Reads step vs i none vs i) (hQ : ∀ k, Q k → P k)
    (hstart : ∀ ⦃d ts i a j⦄, Item d ts i a j → ∃ t us, ts = t :: us ∧ P t.kind)
    {d : Nat} {ts : List Token} {i j : NodeId} {as : List α} (h : Many Item d ts i as j)
    (hd : d ≤ n) {vs : List Token} (hvs : Q (headKind vs)) (m : Nat) (hm : ts.length ≤ m) :
    Reads (collectUpTo step m) (ts ++ vs) i as vs j := by
  induction h generalizing m with
  | nil =>
      cases m with
      | zero => exact Reads.pure
      | succ m => exact (hnone hvs).bind Reads.pure
  | @cons d d' ts us i j k a as ha hmany ih =>
      obtain ⟨hd, hd'⟩ := Nat.max_le.mp hd
      obtain ⟨t, ts', rfl, ht⟩ := hstart ha
      -- What follows is another item, or what ends the list.
      have hnext : P (headKind (us ++ vs)) := by
        cases hmany with
        | nil => exact hQ _ hvs
        | cons hb _ =>
            obtain ⟨u, us', rfl, hu⟩ := hstart hb
            exact hu
      rw [List.length_append, List.length_cons] at hm
      obtain ⟨m, rfl⟩ : ∃ m', m = m' + 1 := ⟨m - 1, by omega⟩
      rw [List.append_assoc]
      exact (hsome ⟨d, hd, ha⟩ hnext).bind ((ih hd' m (by omega)).bind Reads.pure)

theorem collect_complete (hsome : ∀ ⦃ts i a j⦄, Item.Within n ts i a j → ∀ ⦃vs⦄,
      P (headKind vs) → Reads step (ts ++ vs) i (some a) vs j)
    (hnone : ∀ ⦃vs i⦄, Q (headKind vs) → Reads step vs i none vs i) (hQ : ∀ k, Q k → P k)
    (hstart : ∀ ⦃d ts i a j⦄, Item d ts i a j → ∃ t us, ts = t :: us ∧ P t.kind) :
    Complete (collect step) ((Many Item).Within n) Q := by
  rintro ts i as j ⟨d, hd, h⟩ vs hvs p hp
  have hlength := hp.length_lt
  rw [List.length_append] at hlength
  exact collectUpTo_complete hsome hnone hQ hstart h hd hvs p.total (by omega) p hp

theorem separated_complete {sep : Token.Kind} {item : Rule α}
    (hitem : Complete item (Item.Within n) P) (hsep : P sep) (hQ : ∀ k, Q k → P k)
    (hne : ∀ k, Q k → k ≠ sep) :
    Complete (separated sep item) ((Separated sep Item).Within n) Q := by
  rintro ts i as j ⟨d, hd, h⟩ vs hvs
  have hstart : ∀ ⦃d ts i a j⦄, Preceded sep Item d ts i a j →
      ∃ t us, ts = t :: us ∧ P t.kind := by
    rintro d _ i a j ⟨ht, -⟩
    exact ⟨_, _, rfl, ht ▸ hsep⟩
  cases h with
  | @mk d d' ts us i j k a as hfirst hothers =>
      obtain ⟨hd, hd'⟩ := Nat.max_le.mp hd
      have hnext : P (headKind (us ++ vs)) := by
        cases hothers with
        | nil => exact hQ _ hvs
        | cons hb _ =>
            obtain ⟨t, ts, rfl, ht⟩ := hstart hb
            exact ht
      rw [List.append_assoc]
      refine (hitem ⟨d, hd, hfirst⟩ hnext).bind (Reads.bind ?_ Reads.pure)
      refine collect_complete ?_ ?_ hQ hstart ⟨d', hd', hothers⟩ hvs
      · rintro _ i a j ⟨d, hd, ⟨ht, ha⟩⟩ vs hvs
        exact (Reads.accept ht).bind ((hitem ⟨d, hd, ha⟩ hvs).bind Reads.pure)
      · intro vs i hvs
        exact (Reads.accept_other (hne _ hvs)).bind Reads.pure

end Repetition

/-! ### Expressions -/

section Chain

variable {op? : Token.Kind → Option BinaryOp} {Op : Token.Kind → BinaryOp → Prop}
variable {operand : Rule Expr} {Operand : Judgment Expr} {P : Token.Kind → Prop}

/-- The chain is derived from its end, while the loop joins from the start. So the induction
says how a chain is read that is continued in any way. -/
theorem chain_continued (hop : ∀ k op, Op k op → op? k = some op) (hP : ∀ k op, Op k op → P k)
    (hoperand : Complete operand (Operand.Within n) P) {d : Nat} {ts : List Token}
    {i j : NodeId} {e : Expr} (h : Chain Op Operand d ts i e j) (hd : d ≤ n)
    {vs ws : List Token} {k : NodeId}
    {x : Expr} (hvs : P (headKind vs))
    (hrest : ∀ m, vs.length ≤ m → Reads (joinUpTo op? operand m e) vs j x ws k) :
    Reads (chain op? operand) (ts ++ vs) i x ws k := by
  induction h generalizing vs with
  | @one d ts i j e he =>
      refine (hoperand ⟨d, hd, he⟩ hvs).bind ?_
      intro p hp
      exact hrest p.total (Nat.le_of_lt hp.length_lt) p hp
  | @more d d' ts us t op i j l left right _ ht hright ih =>
      obtain ⟨hd, hd'⟩ := Nat.max_le.mp hd
      rw [List.append_assoc]
      refine ih hd (hP _ _ ht) ?_
      intro m hm
      rw [List.cons_append, List.length_cons, List.length_append] at hm
      obtain ⟨m, rfl⟩ : ∃ m', m = m' + 1 := ⟨m - 1, by omega⟩
      refine Reads.current.bind ?_
      rw [hop _ _ ht]
      exact Reads.advance.bind ((hoperand ⟨d', hd', hright⟩ hvs).bind (hrest m (by omega)))

theorem chain_complete (hop : ∀ k op, Op k op → op? k = some op) (hP : ∀ k op, Op k op → P k)
    (hoperand : Complete operand (Operand.Within n) P) :
    Complete (chain op? operand) ((Chain Op Operand).Within n)
      fun k => P k ∧ op? k = none := by
  rintro ts i e j ⟨d, hd, h⟩ vs ⟨hvs, hnone⟩
  refine chain_continued hop hP hoperand h hd hvs ?_
  intro m _
  cases m with
  | zero => exact Reads.pure
  | succ m =>
      intro p hp
      refine ⟨p, ?_, hp⟩
      rw [← hp.current_kind] at hnone
      refine bind_eq_ok.mpr ⟨p.current, p, rfl, ?_⟩
      rw [hnone]
      rfl

end Chain

theorem sumOp?_of_isSumOp (k : Token.Kind) (op : BinaryOp) (h : IsSumOp k op) :
    sumOp? k = some op := by
  cases h <;> rfl

theorem productOp?_of_isProductOp (k : Token.Kind) (op : BinaryOp) (h : IsProductOp k op) :
    productOp? k = some op := by
  cases h <;> rfl

/-- What can follow an expression: no operator. -/
def EndsExpr (k : Token.Kind) : Prop := (True ∧ productOp? k = none) ∧ sumOp? k = none

theorem exprOf_complete {factor : Rule Expr}
    (hfactor : Complete factor (IsFactor.Within n) fun _ => True) :
    Complete (exprOf factor) (IsExpr.Within n) EndsExpr := by
  have hterm := chain_complete productOp?_of_isProductOp (fun _ _ _ => trivial) hfactor
  have hsum : ∀ k op, IsSumOp k op → True ∧ productOp? k = none := by
    intro k op hk
    cases hk <;> exact ⟨trivial, rfl⟩
  intro ts i e j h vs hvs
  exact Reads.note.bind (chain_complete sumOp?_of_isSumOp hsum hterm h hvs)

theorem Reads.variableUse {t : Token} {us : List Token} {i : NodeId}
    (ht : t.kind = .identifier) :
    Reads variableUse (t :: us) i ⟨t.word, i, t.position⟩ us (i + 1) :=
  (Reads.identifier ht).bind (Reads.newId.bind Reads.pure)

theorem Reads.literal {t : Token} {v : Value} {us : List Token} {i : NodeId}
    (hv : t.value = some v) :
    Reads literal (t :: us) i (.literal v) us i := by
  refine Reads.advance.bind ?_
  rw [hv]
  exact Reads.pure

/-- How a factor of one token is read, whatever the rest of the rule does. -/
theorem factorOf_single {signed : UnaryOp → Rule Expr} {parenthesized : Rule Expr} {t : Token}
    {i j : NodeId} {e : Expr} (h : IsFactor 0 [t] i e j) (us : List Token) :
    Reads (factorOf signed parenthesized) (t :: us) i e us j := by
  refine Reads.current.bind ?_
  cases h with
  | literal ht hv =>
      have hread : Reads literal (t :: us) i _ us i := Reads.literal hv
      generalize t.kind = k at ht
      cases ht <;> exact hread
  | var ht =>
      rw [ht]
      exact (Reads.variableUse ht).bind Reads.pure

theorem factor_complete (n : Nat) : Complete (factor n) (IsFactor.Within n) fun _ => True := by
  induction n with
  | zero =>
      -- Only factors of a single token open nothing.
      rintro ts i e j ⟨d, hd, h⟩ vs -
      obtain rfl := Nat.le_zero.mp hd
      cases h with
      | literal ht hv => exact factorOf_single (.literal ht hv) vs
      | var ht => exact factorOf_single (.var ht) vs
  | succ n ih =>
      rintro ts i e j ⟨d, hd, h⟩ vs -
      cases h with
      | literal ht hv => exact factorOf_single (.literal ht hv) vs
      | var ht => exact factorOf_single (.var ht) vs
      | @signed d t ts op i j e ht he =>
          have hread (op : UnaryOp) : Reads (signed (factor n) op) (t :: (ts ++ vs)) i
              (.unary op e t.position) vs j :=
            Reads.advance.bind
              ((ih ⟨d, Nat.le_of_succ_le_succ hd, he⟩ trivial).bind Reads.pure)
          refine Reads.current.bind ?_
          generalize t.kind = k at ht
          cases ht <;> exact hread _
      | @parenthesized d l r ts i j e hl he hr =>
          rw [List.cons_append, List.append_assoc]
          refine Reads.current.bind ?_
          rw [hl]
          have hend : EndsExpr (headKind ([r] ++ vs)) := by
            rw [List.singleton_append, headKind_cons, hr]
            exact ⟨⟨trivial, rfl⟩, rfl⟩
          have hinner := exprOf_complete ih ⟨d, Nat.le_of_succ_le_succ hd, he⟩ hend
          exact Reads.advance.bind (hinner.bind ((Reads.eat hr).bind Reads.pure))

theorem expr_complete (n : Nat) : Complete (expr n) (IsExpr.Within n) EndsExpr :=
  exprOf_complete (factor_complete n)

/-! ### Statements -/

theorem headKind_factor_ne {d : Nat} {ts us : List Token} {i j : NodeId} {e : Expr}
    (h : IsFactor d ts i e j) : headKind (ts ++ us) ≠ .rightParen := by
  cases h with
  | @signed _ t _ _ _ _ _ ht _ | @literal t _ _ ht _ =>
      rw [List.cons_append, headKind_cons]
      generalize t.kind = k at ht
      cases ht <;> decide
  | parenthesized hl _ _ => rw [List.cons_append, headKind_cons, hl]; decide
  | var ht => rw [List.cons_append, headKind_cons, ht]; decide

theorem headKind_chain_ne {Op : Token.Kind → BinaryOp → Prop} {Operand : Judgment Expr}
    {kind : Token.Kind}
    (hoperand : ∀ ⦃d ts us i e j⦄, Operand d ts i e j → headKind (ts ++ us) ≠ kind) {d : Nat}
    {ts us : List Token} {i j : NodeId} {e : Expr} (h : Chain Op Operand d ts i e j) :
    headKind (ts ++ us) ≠ kind := by
  induction h generalizing us with
  | one he => exact hoperand he
  | more _ _ _ ih =>
      rw [List.append_assoc]
      exact ih

/-- Where an expression starts, no parenthesis is closed. -/
theorem headKind_exprs_ne {d : Nat} {ts us : List Token} {i j : NodeId} {args : List Expr}
    (h : Separated .comma IsExpr d ts i args j) : headKind (ts ++ us) ≠ .rightParen := by
  cases h with
  | mk he _ =>
      rw [List.append_assoc]
      have hterm : ∀ ⦃d ts us i e j⦄, IsTerm d ts i e j → headKind (ts ++ us) ≠ .rightParen :=
        fun d ts us i e j => headKind_chain_ne fun d ts us i e j => headKind_factor_ne
      exact headKind_chain_ne hterm he

theorem arguments_complete {expr : Rule Expr}
    (hexpr : Complete expr (IsExpr.Within n) EndsExpr) :
    Complete (arguments expr) (IsArguments.Within n) fun k => k ≠ .leftParen := by
  rintro ts i args j ⟨d, hd, h⟩ vs hvs
  cases h with
  | absent => exact (Reads.accept_other hvs).bind Reads.pure
  | empty hl hr =>
      rw [List.cons_append, List.singleton_append]
      refine (Reads.accept hl).bind (Reads.check.bind ?_)
      rw [headKind_cons, hr]
      exact Reads.pure.bind ((Reads.eat hr).bind Reads.pure)
  | @list d l r ts i j args hl hargs hr =>
      have hexprs : Complete (separated .comma expr) ((Separated .comma IsExpr).Within n)
          (· = .rightParen) := by
        refine separated_complete hexpr ⟨⟨trivial, rfl⟩, rfl⟩ ?_ ?_
        · rintro k rfl
          exact ⟨⟨trivial, rfl⟩, rfl⟩
        · rintro k rfl
          decide
      have hnext : headKind ([r] ++ vs) = .rightParen := hr
      have hfirst : headKind (ts ++ ([r] ++ vs)) ≠ .rightParen :=
        headKind_exprs_ne hargs
      rw [List.cons_append, List.append_assoc]
      refine (Reads.accept hl).bind (Reads.check.bind ?_)
      rw [decide_eq_false hfirst]
      exact (hexprs ⟨d, hd, hargs⟩ hnext).bind ((Reads.eat hr).bind Reads.pure)

/-- What can follow a statement. -/
def EndsStatement (k : Token.Kind) : Prop := k = .semicolon ∨ k = .endBlock

theorem EndsStatement.endsExpr {k : Token.Kind} (h : EndsStatement k) : EndsExpr k := by
  rcases h with rfl | rfl <;> exact ⟨⟨trivial, rfl⟩, rfl⟩

theorem EndsStatement.ne_leftParen {k : Token.Kind} (h : EndsStatement k) :
    k ≠ .leftParen := by
  rcases h with rfl | rfl <;> decide

/-- No `:=` follows the name of a procedure that is called. -/
theorem headKind_arguments_ne {d : Nat} {ts vs : List Token} {i j : NodeId} {args : List Expr}
    (h : IsArguments d ts i args j) (hvs : EndsStatement (headKind vs)) :
    headKind (ts ++ vs) ≠ .assign := by
  cases h with
  | absent => rcases hvs with hvs | hvs <;> rw [List.nil_append, hvs] <;> decide
  | empty hl _ => rw [List.cons_append, headKind_cons, hl]; decide
  | list hl _ _ => rw [List.cons_append, headKind_cons, hl]; decide

theorem statementOf_complete {compound : Rule (List Statement)} {expr : Rule Expr}
    (hcompound : Complete compound (IsCompound.Within n) fun _ => True)
    (hexpr : Complete expr (IsExpr.Within n) EndsExpr) :
    Complete (statementOf compound expr) (IsStatement.Within n) EndsStatement := by
  rintro ts i s j ⟨d, hd, h⟩ vs hvs
  cases h with
  | @compound d ts i j body hbody =>
      have hread : Reads compound (ts ++ vs) i body vs j := hcompound ⟨d, hd, hbody⟩ trivial
      cases hbody with
      | mk hb _ _ =>
          refine Reads.current.bind ?_
          rw [hb]
          exact hread.bind Reads.pure
  | @assign d t a ts i j e ht ha he =>
      rw [List.cons_append, List.cons_append]
      refine Reads.current.bind ?_
      rw [ht]
      refine Reads.peekKind.bind ?_
      rw [headKind_cons, ha]
      exact Reads.note.bind ((Reads.variableUse ht).bind ((Reads.eat ha).bind
        ((hexpr ⟨d, hd, he⟩ hvs.endsExpr).bind Reads.pure)))
  | @call d t ts i j args ht hargs =>
      have hread := arguments_complete hexpr ⟨d, hd, hargs⟩ hvs.ne_leftParen
      rw [List.cons_append]
      refine Reads.current.bind ?_
      rw [ht]
      refine Reads.peekKind.bind ?_
      rw [if_neg (headKind_arguments_ne hargs hvs)]
      exact Reads.bind (Reads.note.bind ((Reads.identifier ht).bind (hread.bind
        (Reads.newId.bind Reads.pure)))) Reads.pure
  | @write d t ts newline i j args ht hargs =>
      have hread := arguments_complete hexpr ⟨d, hd, hargs⟩ hvs.ne_leftParen
      refine Reads.current.bind ?_
      have hnewline : decide (t.kind = .writeln) = newline := by
        generalize t.kind = k at ht
        cases ht <;> rfl
      have hwrite : Reads (write expr) (t :: (ts ++ vs)) i
          (.write newline args t.position) vs j := by
        rw [← hnewline]
        exact Reads.advance.bind (hread.bind Reads.pure)
      generalize t.kind = k at ht
      cases ht <;> exact hwrite
  | empty =>
      cases vs with
      | nil => rcases hvs with hvs | hvs <;> cases hvs
      | cons v vs =>
          refine Reads.current.bind ?_
          rcases hvs with hvs | hvs <;> rw [← headKind_cons v vs, hvs] <;> exact Reads.pure

theorem compound_complete (n : Nat) :
    Complete (compound n) (IsCompound.Within n) fun _ => True := by
  induction n with
  | zero =>
      rintro ts i body j ⟨d, hd, h⟩ vs -
      cases h with
      | mk _ _ _ => cases hd
  | succ n ih =>
      rintro ts i body j ⟨d, hd, h⟩ vs -
      cases h with
      | @mk d b e ts i j body hb hbody he =>
          -- A statement ends at a semicolon or at `END`, and only a semicolon
          -- continues the list.
          have hlist : Complete (statementList n) ((Separated .semicolon IsStatement).Within n)
              (· = .endBlock) := by
            refine separated_complete (statementOf_complete ih (expr_complete n))
              (.inl rfl) ?_ ?_
            · intro k hk
              exact .inr hk
            · rintro k rfl
              decide
          have hnext : headKind ([e] ++ vs) = .endBlock := he
          rw [List.cons_append, List.append_assoc]
          exact Reads.note.bind ((Reads.eat hb).bind
            ((hlist ⟨d, Nat.le_of_succ_le_succ hd, hbody⟩ hnext).bind
              ((Reads.eat he).bind Reads.pure)))

/-! ### Declarations -/

theorem identifier_complete : Complete identifier (IsName.Within n) fun _ => True := by
  rintro ts i name j ⟨d, hd, h⟩ vs -
  cases h with
  | mk ht => exact Reads.identifier ht

theorem Reads.typeName {t : Token} {type : DataType} {us : List Token} {i : NodeId}
    (ht : IsType t.kind type) : Reads typeName (t :: us) i (type, t.position) us i := by
  have hread : Reads (do return (type, (← Rule.advance).position) : Rule (DataType × Position))
      (t :: us) i (type, t.position) us i := Reads.advance.bind Reads.pure
  refine Reads.current.bind ?_
  generalize t.kind = k at ht
  cases ht <;> exact hread

theorem variableGroup_complete : Complete variableGroup (IsGroup.Within n) fun _ => True := by
  have hnames : Complete (separated .comma identifier) ((Separated .comma IsName).Within n)
      (· = .colon) := by
    refine separated_complete identifier_complete trivial (fun _ _ => trivial) ?_
    rintro k rfl
    decide
  rintro ts i decls j ⟨d, hd, h⟩ vs -
  cases h with
  | @mk d c t ts type i j names hnames' hc ht =>
      have hnext : headKind ([c, t] ++ vs) = .colon := hc
      rw [List.append_assoc]
      exact (hnames ⟨d, hd, hnames'⟩ hnext).bind ((Reads.eat hc).bind ((Reads.typeName ht).bind
        Reads.pure))

theorem line_complete :
    Complete (do let decls ← variableGroup; let _ ← eat .semicolon; return decls)
      (IsLine.Within n) fun _ => True := by
  rintro ts i decls j ⟨d, hd, h⟩ vs -
  cases h with
  | @mk d s ts i j decls hdecls hs =>
      rw [List.append_assoc]
      exact (variableGroup_complete ⟨d, hd, hdecls⟩ trivial).bind
        ((Reads.eat hs).bind Reads.pure)

/-- Names start with an identifier. -/
theorem exists_cons_of_isLine ⦃d : Nat⦄ ⦃ts : List Token⦄ ⦃i : NodeId⦄ ⦃decls : List VarDecl⦄
    ⦃j : NodeId⦄ (h : IsLine d ts i decls j) :
    ∃ t us, ts = t :: us ∧ t.kind = .identifier := by
  obtain ⟨⟨⟨⟨ht⟩, -⟩, -, -⟩, -⟩ := h
  exact ⟨_, _, rfl, ht⟩

/-- A step that looks for the kind of the first token finds each item that starts with it. -/
theorem checked_complete {kind : Token.Kind} {item : Rule α} {Item : Judgment α}
    {P Q : Token.Kind → Prop} (hitem : Complete item (Item.Within n) P) (hP : P kind)
    (hQ : ∀ k, Q k → P k) (hne : ∀ k, Q k → k ≠ kind)
    (hstart : ∀ ⦃d ts i a j⦄, Item d ts i a j → ∃ t us, ts = t :: us ∧ t.kind = kind) :
    Complete (collect do if ← check kind then return some (← item) else return none)
      ((Many Item).Within n) Q := by
  refine collect_complete ?_ ?_ hQ ?_
  · rintro ts i a j ⟨d, hd, ha⟩ vs hvs
    refine Reads.check.bind ?_
    obtain ⟨t, us, rfl, ht⟩ := hstart ha
    rw [List.cons_append, headKind_cons, decide_eq_true ht]
    exact (hitem ⟨d, hd, ha⟩ hvs).bind Reads.pure
  · intro vs i hvs
    refine Reads.check.bind ?_
    rw [decide_eq_false (hne _ hvs)]
    exact Reads.pure
  · intro d ts i a j ha
    obtain ⟨t, us, rfl, ht⟩ := hstart ha
    exact ⟨t, us, rfl, ht ▸ hP⟩

/-- What can follow variables: the word before a procedure or before statements. -/
def EndsVariables (k : Token.Kind) : Prop := k = .procedure ∨ k = .beginBlock

theorem variableSection_complete {v : Token} {d d' : Nat} {ts us vs : List Token}
    {i j k : NodeId} {first : List VarDecl} {others : List (List VarDecl)} (hv : v.kind = .var)
    (hfirst : IsLine d ts i first j) (hd : d ≤ n) (hothers : Many IsLine d' us j others k)
    (hd' : d' ≤ n) (hvs : headKind vs ≠ .identifier) :
    Reads (do if ← accept .var then return some (← variableSection) else return none)
      (v :: (ts ++ us) ++ vs) i (some (first ++ others.flatten)) vs k := by
  have hlines := checked_complete (n := n) (Q := (· ≠ .identifier)) line_complete trivial
    (fun _ _ => trivial) (fun _ h => h) exists_cons_of_isLine
  rw [List.cons_append, List.append_assoc]
  refine (Reads.accept hv).bind (Reads.bind ?_ Reads.pure)
  exact (line_complete ⟨d, hd, hfirst⟩ trivial).bind
    ((hlines ⟨d', hd', hothers⟩ hvs).bind Reads.pure)

theorem sections_complete :
    Complete
      (collect do if ← accept .var then return some (← variableSection) else return none)
      ((Many IsSection).Within n) EndsVariables := by
  refine collect_complete (P := (· ≠ .identifier)) ?_ ?_ ?_ ?_
  · rintro ts i decls j ⟨d, hd, h⟩ vs hvs
    cases h with
    | mk hv hfirst hothers =>
        obtain ⟨hd, hd'⟩ := Nat.max_le.mp hd
        exact variableSection_complete hv hfirst hd hothers hd' hvs
  · intro vs i hvs
    refine (Reads.accept_other ?_).bind Reads.pure
    rcases hvs with hvs | hvs <;> rw [hvs] <;> decide
  · rintro k (rfl | rfl) <;> decide
  · rintro d ts i decls j ⟨hv, -, -⟩
    exact ⟨_, _, rfl, by rw [hv]; decide⟩

theorem procedureOf_complete {block : Rule Block}
    (hblock : Complete block (IsBlock.Within n) fun _ => True) :
    Complete (procedureOf block) (IsProcedure.Within n) fun _ => True := by
  rintro ts i proc k ⟨d, hd, h⟩ vs -
  cases h with
  | @mk d d' p t s s' ts us _ j _ groups b hp ht hparams hs hb hs' =>
      obtain ⟨hd, hd'⟩ := Nat.max_le.mp hd
      have hrest : Reads (do
          let _ ← eat .semicolon
          let block ← block
          let _ ← eat .semicolon
          return .mk t.word t.position groups.flatten block : Rule Procedure)
          (s :: (us ++ (s' :: vs))) j (.mk t.word t.position groups.flatten b) vs k :=
        (Reads.eat hs).bind ((hblock ⟨d', hd', hb⟩ trivial).bind
          ((Reads.eat hs').bind Reads.pure))
      simp only [List.cons_append, List.append_assoc, List.nil_append]
      refine Reads.note.bind ((Reads.eat hp).bind ((Reads.identifier ht).bind ?_))
      cases hparams with
      | absent =>
          refine (Reads.accept_other ?_).bind (Reads.pure.bind hrest)
          rw [List.nil_append, headKind_cons, hs]
          decide
      | empty hl hr =>
          rw [List.cons_append, List.singleton_append]
          refine (Reads.accept hl).bind (Reads.check.bind ?_)
          rw [headKind_cons, hr]
          exact Reads.pure.bind ((Reads.eat hr).bind (Reads.pure.bind hrest))
      | @list d l r ts i j groups hl hgroups hr =>
          have hlist : Complete (separated .semicolon variableGroup)
              ((Separated .semicolon IsGroup).Within n) (· = .rightParen) := by
            refine separated_complete variableGroup_complete trivial (fun _ _ => trivial) ?_
            rintro k rfl
            decide
          have hnext : headKind (r :: (s :: (us ++ (s' :: vs)))) = .rightParen := hr
          have hfirst : headKind (ts ++ (r :: (s :: (us ++ (s' :: vs))))) = .identifier := by
            obtain ⟨⟨⟨⟨hname⟩, -⟩, -, -⟩, -⟩ := hgroups
            exact hname
          rw [List.cons_append, List.append_assoc, List.singleton_append]
          refine (Reads.accept hl).bind (Reads.check.bind ?_)
          rw [decide_eq_true hfirst]
          exact Reads.bind ((hlist ⟨d, hd, hgroups⟩ hnext).bind Reads.pure)
            ((Reads.eat hr).bind (Reads.pure.bind hrest))

theorem block_complete (n : Nat) : Complete (block n) (IsBlock.Within n) fun _ => True := by
  induction n with
  | zero =>
      rintro ts i b j ⟨d, hd, h⟩ vs -
      cases h with
      | mk _ _ _ => cases hd
  | succ n ih =>
      rintro ts i b j ⟨d, hd, h⟩ vs -
      cases h with
      | @mk d d' d'' ts us ws i j k l sections procedures body hsections hprocedures hbody =>
          obtain ⟨hd, hd'⟩ := Nat.max_le.mp (Nat.le_of_succ_le_succ hd)
          obtain ⟨hd', hd''⟩ := Nat.max_le.mp hd'
          have hprocedure : ∀ ⦃d ts i a j⦄, IsProcedure d ts i a j →
              ∃ t us, ts = t :: us ∧ t.kind = .procedure := by
            rintro d ts i a j ⟨hp, -, -, -, -, -⟩
            exact ⟨_, _, rfl, hp⟩
          have hlist :=
            checked_complete (Q := (· = .beginBlock)) (procedureOf_complete ih) trivial
              (fun _ _ => trivial) (by rintro k rfl; decide) hprocedure
          have hbegin : headKind (ws ++ vs) = .beginBlock := by
            obtain ⟨hb, -, -⟩ := hbody
            exact hb
          have hnext : EndsVariables (headKind (us ++ (ws ++ vs))) := by
            cases hprocedures with
            | nil => exact .inr hbegin
            | cons hp _ =>
                obtain ⟨t, us', rfl, ht⟩ := hprocedure hp
                exact .inl ht
          simp only [List.append_assoc]
          refine Reads.bind (Reads.note.bind ((sections_complete ⟨d, hd, hsections⟩ hnext).bind
            ((hlist ⟨d', hd', hprocedures⟩ hbegin).bind Reads.pure))) ?_
          exact (compound_complete n ⟨d'', hd'', hbody⟩ trivial).bind Reads.pure

theorem program_complete {d n : Nat} {ts : List Token} {prog : Program}
    (h : IsProgram d ts prog) (hd : d ≤ n) : ∃ j, Reads (program n) ts 0 prog [] j := by
  cases h with
  | @mk p t s e ts j b hp ht hs hb he =>
      refine ⟨j, Reads.note.bind ((Reads.eat hp).bind ((Reads.identifier ht).bind
        ((Reads.eat hs).bind ?_)))⟩
      exact (block_complete n ⟨d, hd, hb⟩ trivial).bind ((Reads.eat he).bind Reads.pure)

theorem wholeProgram_complete {d n : Nat} {p : Parser} {us : List Token} {prog : Program}
    (h : IsProgram d us prog) (hd : d ≤ n) (hp : p.At us 0) :
    ∃ q, wholeProgram n p = .ok prog q := by
  obtain ⟨j, hread⟩ := program_complete h hd
  obtain ⟨p₁, hnote, hp₁⟩ := Reads.note p hp
  obtain ⟨p₂, hprogram, hp₂⟩ := hread p₁ hp₁
  obtain ⟨t, p₃, hend⟩ := eat_endOfText hp₂
  exact ⟨p₃, bind_eq_ok.mpr ⟨(), p₁, hnote, bind_eq_ok.mpr ⟨prog, p₂, hprogram,
    bind_eq_ok.mpr ⟨t, p₃, hend, rfl⟩⟩⟩⟩

end MiniPascal.Rule

import MiniPascal.Proofs.Grammar.Reading

/-!
What the rules accept, the grammar derives. The rules for a level are built from those for the
level below in the same way as the derivations are, so that each construction (`collect`,
`separated`, `chain`) is treated once, for whatever it is made of, and the recursion is on the
number of levels.
-/

namespace MiniPascal.Rule

open Grammar

variable {α : Type} {n : Nat}

/-! ### Repetition -/

/-- A step that finds nothing reads nothing, and what it finds the grammar derives. -/
def SoundStep (step : Rule (Option α)) (D : List Token → NodeId → α → NodeId → Prop) : Prop :=
  ∀ ⦃p q : Parser⦄ ⦃us : List Token⦄ ⦃i : NodeId⦄ ⦃o : Option α⦄,
  p.At us i → step p = .ok o q →
    (o = none ∧ q.At us i) ∨
      ∃ a ts vs j, o = some a ∧ us = ts ++ vs ∧ q.At vs j ∧ D ts i a j

theorem collectUpTo_sound {step : Rule (Option α)} {Item : Judgment α}
    (hstep : SoundStep step (Item.Within n)) (m : Nat) :
    Sound (collectUpTo step m) ((Many Item).Within n) := by
  induction m with
  | zero =>
      intro p q us i as hp h
      obtain ⟨rfl, rfl⟩ := pure_eq_ok.mp h
      exact ⟨[], us, i, rfl, hp, 0, Nat.zero_le n, .nil⟩
  | succ m ih =>
      intro p q us i as hp h
      obtain ⟨o, p₁, ho, h⟩ := bind_eq_ok.mp h
      rcases hstep hp ho with ⟨rfl, hp₁⟩ | ⟨a, ts, vs, j, rfl, rfl, hp₁, d, hd, ha⟩
      · obtain ⟨rfl, rfl⟩ := pure_eq_ok.mp h
        exact ⟨[], us, i, rfl, hp₁, 0, Nat.zero_le n, .nil⟩
      · obtain ⟨as', p₂, has, h⟩ := bind_eq_ok.mp h
        obtain ⟨ts', ws, k, rfl, hp₂, d', hd', hmany⟩ := ih hp₁ has
        obtain ⟨rfl, rfl⟩ := pure_eq_ok.mp h
        exact ⟨ts ++ ts', ws, k, (List.append_assoc ..).symm, hp₂, max d d',
          Nat.max_le.mpr ⟨hd, hd'⟩, .cons ha hmany⟩

theorem collect_sound {step : Rule (Option α)} {Item : Judgment α}
    (hstep : SoundStep step (Item.Within n)) : Sound (collect step) ((Many Item).Within n) :=
  fun p _ _ _ _ hp h => collectUpTo_sound hstep p.total hp h

theorem preceded_sound {sep : Token.Kind} {item : Rule α} {Item : Judgment α}
    (hsep : sep ≠ .endOfText) (hitem : Sound item (Item.Within n)) :
    SoundStep (do if ← accept sep then return some (← item) else return none)
      ((Preceded sep Item).Within n) := by
  intro p q us i o hp h
  obtain ⟨c, p₁, hc, h⟩ := bind_eq_ok.mp h
  rcases accept_eq_ok hsep hp hc with ⟨rfl, t, vs, rfl, ht, hp₁⟩ | ⟨rfl, -, hp₁⟩
  · obtain ⟨a, p₂, ha, h⟩ := bind_eq_ok.mp h
    obtain ⟨ts, ws, j, rfl, hp₂, d, hd, hderives⟩ := hitem hp₁ ha
    obtain ⟨rfl, rfl⟩ := pure_eq_ok.mp h
    exact .inr ⟨a, t :: ts, ws, j, rfl, rfl, hp₂, d, hd, .mk ht hderives⟩
  · obtain ⟨rfl, rfl⟩ := pure_eq_ok.mp h
    exact .inl ⟨rfl, hp₁⟩

theorem separated_sound {sep : Token.Kind} {item : Rule α} {Item : Judgment α}
    (hsep : sep ≠ .endOfText) (hitem : Sound item (Item.Within n)) :
    Sound (separated sep item) ((Separated sep Item).Within n) := by
  intro p q us i as hp h
  obtain ⟨a, p₁, ha, h⟩ := bind_eq_ok.mp h
  obtain ⟨ts, vs, j, rfl, hp₁, d, hd, hfirst⟩ := hitem hp ha
  obtain ⟨others, p₂, hothers, h⟩ := bind_eq_ok.mp h
  obtain ⟨ts', ws, k, rfl, hp₂, d', hd', hmany⟩ :=
    collect_sound (preceded_sound hsep hitem) hp₁ hothers
  obtain ⟨rfl, rfl⟩ := pure_eq_ok.mp h
  exact ⟨ts ++ ts', ws, k, (List.append_assoc ..).symm, hp₂, max d d',
    Nat.max_le.mpr ⟨hd, hd'⟩, .mk hfirst hmany⟩

/-! ### Expressions -/

section Chain

variable {op? : Token.Kind → Option BinaryOp} {Op : Token.Kind → BinaryOp → Prop}
variable {operand : Rule Expr} {Operand : Judgment Expr}

/-- What has been joined so far is derived from the tokens before, and stays the left
operand. -/
theorem joinUpTo_sound (hop : ∀ k op, op? k = some op → Op k op)
    (hend : op? .endOfText = none) (hoperand : Sound operand (Operand.Within n)) (m : Nat)
    {p q : Parser} {ts us : List Token} {i j : NodeId} {left e : Expr}
    (hleft : (Chain Op Operand).Within n ts i left j) (hp : p.At us j)
    (h : joinUpTo op? operand m left p = .ok e q) :
    ∃ ts' vs k, us = ts' ++ vs ∧ q.At vs k ∧
    (Chain Op Operand).Within n (ts ++ ts') i e k := by
  induction m generalizing p ts us j left with
  | zero =>
      obtain ⟨rfl, rfl⟩ := pure_eq_ok.mp h
      exact ⟨[], us, j, rfl, hp, by rwa [List.append_nil]⟩
  | succ m ih =>
      obtain ⟨t, p₁, ht, h⟩ := bind_eq_ok.mp h
      cases ht
      cases hk : op? p.current.kind with
      | none =>
          rw [hk] at h
          obtain ⟨rfl, rfl⟩ := pure_eq_ok.mp h
          exact ⟨[], us, j, rfl, hp, by rwa [List.append_nil]⟩
      | some op =>
          rw [hk] at h
          obtain ⟨t, p₂, hadvance, h⟩ := bind_eq_ok.mp h
          rw [hp.current_kind] at hk
          have hu : headKind us ≠ .endOfText := by
            intro hu
            rw [hu, hend] at hk
            cases hk
          obtain ⟨vs, rfl, hp₂⟩ := advance_eq_ok hp hu hadvance
          obtain ⟨right, p₃, hright, h⟩ := bind_eq_ok.mp h
          obtain ⟨ts', ws, k, rfl, hp₃, d', hd', hright⟩ := hoperand hp₂ hright
          obtain ⟨d, hd, hleft⟩ := hleft
          have hjoined : (Chain Op Operand).Within n (ts ++ t :: ts') i
              (.binary op left right t.position) k :=
            ⟨max d d', Nat.max_le.mpr ⟨hd, hd'⟩, .more hleft (hop _ _ hk) hright⟩
          obtain ⟨us', xs, l, rfl, hq, hchain⟩ := ih hjoined hp₃ h
          refine ⟨t :: (ts' ++ us'), xs, l, by simp, hq, ?_⟩
          simpa using hchain

theorem chain_sound (hop : ∀ k op, op? k = some op → Op k op) (hend : op? .endOfText = none)
    (hoperand : Sound operand (Operand.Within n)) :
    Sound (chain op? operand) ((Chain Op Operand).Within n) := by
  intro p q us i e hp h
  obtain ⟨first, p₁, hfirst, h⟩ := bind_eq_ok.mp h
  obtain ⟨ts, vs, j, rfl, hp₁, d, hd, hfirst⟩ := hoperand hp hfirst
  obtain ⟨ts', ws, k, rfl, hq, hchain⟩ :=
    joinUpTo_sound hop hend hoperand _ ⟨d, hd, .one hfirst⟩ hp₁ h
  exact ⟨ts ++ ts', ws, k, (List.append_assoc ..).symm, hq, hchain⟩

end Chain

theorem isSumOp_of_sumOp? (k : Token.Kind) (op : BinaryOp) (h : sumOp? k = some op) :
    IsSumOp k op := by
  cases k <;> cases h <;> constructor

theorem isProductOp_of_productOp? (k : Token.Kind) (op : BinaryOp)
    (h : productOp? k = some op) :
    IsProductOp k op := by
  cases k <;> cases h <;> constructor

theorem exprOf_sound {factor : Rule Expr} (hfactor : Sound factor (IsFactor.Within n)) :
    Sound (exprOf factor) (IsExpr.Within n) := by
  intro p q us i e hp h
  obtain ⟨_, p₁, hnote, h⟩ := bind_eq_ok.mp h
  exact chain_sound isSumOp_of_sumOp? rfl (chain_sound isProductOp_of_productOp? rfl hfactor)
    (note_eq_ok hp hnote) h

theorem variableUse_eq_ok {p q : Parser} {us : List Token} {i : NodeId} {v : Variable}
    (hp : p.At us i) (h : variableUse p = .ok v q) :
    ∃ t vs, us = t :: vs ∧ t.kind = .identifier ∧ v = ⟨t.word, i, t.position⟩ ∧
    q.At vs (i + 1) := by
  obtain ⟨name, p₁, hname, h⟩ := bind_eq_ok.mp h
  obtain ⟨t, vs, rfl, ht, rfl, hp₁⟩ := identifier_eq_ok hp hname
  obtain ⟨id, p₂, hid, h⟩ := bind_eq_ok.mp h
  obtain ⟨rfl, hp₂⟩ := Reads.newId.eq hp₁ hid
  obtain ⟨rfl, rfl⟩ := pure_eq_ok.mp h
  exact ⟨t, vs, rfl, ht, rfl, hp₂⟩

theorem literal_eq_ok {p q : Parser} {us : List Token} {i : NodeId} {e : Expr} (hp : p.At us i)
    (hu : headKind us ≠ .endOfText) (h : literal p = .ok e q) :
    ∃ t v vs, us = t :: vs ∧ t.value = some v ∧ e = .literal v ∧ q.At vs i := by
  obtain ⟨t, p₁, hadvance, h⟩ := bind_eq_ok.mp h
  obtain ⟨vs, rfl, hp₁⟩ := advance_eq_ok hp hu hadvance
  cases hv : t.value with
  | none =>
      rw [hv] at h
      cases h
  | some v =>
      rw [hv] at h
      obtain ⟨rfl, rfl⟩ := pure_eq_ok.mp h
      exact ⟨t, v, vs, rfl, hv, rfl, hp₁⟩

/-- A rule for factors that start with a token of a kind as `P` says. -/
def SoundFrom (P : Token.Kind → Prop) (r : Rule Expr) (n : Nat) : Prop :=
  ∀ ⦃p q : Parser⦄ ⦃t : Token⦄ ⦃us : List Token⦄ ⦃i : NodeId⦄ ⦃e : Expr⦄, P t.kind →
    p.At (t :: us) i →
    r p = .ok e q → ∃ ts vs j, us = ts ++ vs ∧ q.At vs j ∧ IsFactor.Within n (t :: ts) i e j

theorem tooDeep_soundFrom (P : Token.Kind → Prop) : SoundFrom P tooDeep n := by
  intro p q t us i e _ _ h
  cases h

theorem signed_soundFrom {factor : Rule Expr} (hfactor : Sound factor (IsFactor.Within n))
    (op : UnaryOp) : SoundFrom (IsSign · op) (signed factor op) (n + 1) := by
  intro p q t us i e ht hp h
  obtain ⟨u, p₁, hadvance, h⟩ := bind_eq_ok.mp h
  obtain ⟨rfl, hp₁⟩ := Reads.advance.eq hp hadvance
  obtain ⟨operand, p₂, hoperand, h⟩ := bind_eq_ok.mp h
  obtain ⟨ts, vs, j, rfl, hp₂, d, hd, hoperand⟩ := hfactor hp₁ hoperand
  obtain ⟨rfl, rfl⟩ := pure_eq_ok.mp h
  exact ⟨ts, vs, j, rfl, hp₂, d + 1, Nat.succ_le_succ hd, .signed ht hoperand⟩

theorem parenthesized_soundFrom {expr : Rule Expr} (hexpr : Sound expr (IsExpr.Within n)) :
    SoundFrom (· = .leftParen) (parenthesized expr) (n + 1) := by
  intro p q t us i e ht hp h
  obtain ⟨u, p₁, hadvance, h⟩ := bind_eq_ok.mp h
  obtain ⟨rfl, hp₁⟩ := Reads.advance.eq hp hadvance
  obtain ⟨inner, p₂, hinner, h⟩ := bind_eq_ok.mp h
  obtain ⟨ts, vs, j, rfl, hp₂, d, hd, hinner⟩ := hexpr hp₁ hinner
  obtain ⟨r, p₃, hright, h⟩ := bind_eq_ok.mp h
  obtain ⟨ws, rfl, hr, hp₃⟩ := eat_eq_ok (by decide) hp₂ hright
  obtain ⟨rfl, rfl⟩ := pure_eq_ok.mp h
  exact ⟨ts ++ [r], ws, j, by simp, hp₃, d + 1, Nat.succ_le_succ hd,
    .parenthesized ht hinner hr⟩

theorem factorOf_sound {signed : UnaryOp → Rule Expr} {parenthesized : Rule Expr}
    (hsigned : ∀ op, SoundFrom (IsSign · op) (signed op) n)
    (hparenthesized : SoundFrom (· = .leftParen) parenthesized n) :
    Sound (factorOf signed parenthesized) (IsFactor.Within n) := by
  intro p q us i e hp h
  obtain ⟨t, p₁, hcurrent, h⟩ := bind_eq_ok.mp h
  cases hcurrent
  cases us with
  | nil =>
      rw [hp.current_kind] at h
      cases h
  | cons t us =>
      rw [hp.current_eq] at h
      have hliteral : IsLiteral t.kind → literal p = .ok e q →
          ∃ ts vs j, t :: us = ts ++ vs ∧ q.At vs j ∧ IsFactor.Within n ts i e j := by
        intro ht h
        obtain ⟨u, v, vs, heq, hv, rfl, hq⟩ := literal_eq_ok hp hp.kind_ne h
        cases heq
        exact ⟨[t], us, i, rfl, hq, 0, Nat.zero_le n, .literal ht hv⟩
      have hfrom : (∃ ts vs j, us = ts ++ vs ∧ q.At vs j ∧ IsFactor.Within n (t :: ts) i e j) →
          ∃ ts vs j, t :: us = ts ++ vs ∧ q.At vs j ∧ IsFactor.Within n ts i e j := by
        rintro ⟨ts, vs, j, rfl, hq, hfactor⟩
        exact ⟨t :: ts, vs, j, rfl, hq, hfactor⟩
      cases hk : t.kind <;> rw [hk] at h
      case plus => exact hfrom (hsigned .plus (by rw [hk]; exact .plus) hp h)
      case minus => exact hfrom (hsigned .minus (by rw [hk]; exact .minus) hp h)
      case leftParen => exact hfrom (hparenthesized hk hp h)
      case integerLiteral => exact hliteral (by rw [hk]; exact .integer) h
      case realLiteral => exact hliteral (by rw [hk]; exact .real) h
      case stringLiteral => exact hliteral (by rw [hk]; exact .string) h
      case identifier =>
        obtain ⟨v, p₁, hv, h⟩ := bind_eq_ok.mp h
        obtain ⟨u, vs, heq, hu, rfl, hp₁⟩ := variableUse_eq_ok hp hv
        obtain ⟨rfl, rfl⟩ := pure_eq_ok.mp h
        cases heq
        exact ⟨[t], us, i + 1, rfl, hp₁, 0, Nat.zero_le n, .var hu⟩
      all_goals cases h

theorem factor_sound (n : Nat) : Sound (factor n) (IsFactor.Within n) := by
  -- Inside a sign or parentheses there is one level less to open.
  induction n with
  | zero => exact factorOf_sound (fun _ => tooDeep_soundFrom _) (tooDeep_soundFrom _)
  | succ n ih =>
      exact factorOf_sound (signed_soundFrom ih) (parenthesized_soundFrom (exprOf_sound ih))

theorem expr_sound (n : Nat) : Sound (expr n) (IsExpr.Within n) :=
  exprOf_sound (factor_sound n)

/-! ### Statements -/

theorem arguments_sound {expr : Rule Expr} (hexpr : Sound expr (IsExpr.Within n)) :
    Sound (arguments expr) (IsArguments.Within n) := by
  intro p q us i args hp h
  obtain ⟨c, p₁, hc, h⟩ := bind_eq_ok.mp h
  rcases accept_eq_ok (by decide) hp hc with ⟨rfl, l, vs, rfl, hl, hp₁⟩ | ⟨rfl, -, hp₁⟩
  · obtain ⟨c, p₂, hc, h⟩ := bind_eq_ok.mp h
    obtain ⟨-, hp₂⟩ := check_eq_ok hp₁ hc
    cases c with
    | true =>
        obtain ⟨args', p₃, hargs, h⟩ := bind_eq_ok.mp h
        obtain ⟨rfl, rfl⟩ := pure_eq_ok.mp hargs
        obtain ⟨r, p₄, hr, h⟩ := bind_eq_ok.mp h
        obtain ⟨ws, rfl, hr, hp₄⟩ := eat_eq_ok (by decide) hp₂ hr
        obtain ⟨rfl, rfl⟩ := pure_eq_ok.mp h
        exact ⟨[l, r], ws, i, rfl, hp₄, 0, Nat.zero_le n, .empty hl hr⟩
    | false =>
        obtain ⟨args', p₃, hargs, h⟩ := bind_eq_ok.mp h
        obtain ⟨ts, ws, j, rfl, hp₃, d, hd, hargs⟩ :=
          separated_sound (by decide) hexpr hp₂ hargs
        obtain ⟨r, p₄, hr, h⟩ := bind_eq_ok.mp h
        obtain ⟨xs, rfl, hr, hp₄⟩ := eat_eq_ok (by decide) hp₃ hr
        obtain ⟨rfl, rfl⟩ := pure_eq_ok.mp h
        exact ⟨l :: (ts ++ [r]), xs, j, by simp, hp₄, d, hd, .list hl hargs hr⟩
  · obtain ⟨rfl, rfl⟩ := pure_eq_ok.mp h
    exact ⟨[], us, i, rfl, hp₁, 0, Nat.zero_le n, .absent⟩

theorem assignment_sound {expr : Rule Expr} (hexpr : Sound expr (IsExpr.Within n)) :
    Sound (assignment expr) (IsStatement.Within n) := by
  intro p q us i s hp h
  obtain ⟨_, p₁, hnote, h⟩ := bind_eq_ok.mp h
  obtain ⟨v, p₂, hv, h⟩ := bind_eq_ok.mp h
  obtain ⟨t, vs, rfl, ht, rfl, hp₂⟩ := variableUse_eq_ok (note_eq_ok hp hnote) hv
  obtain ⟨a, p₃, ha, h⟩ := bind_eq_ok.mp h
  obtain ⟨ws, rfl, ha, hp₃⟩ := eat_eq_ok (by decide) hp₂ ha
  obtain ⟨e, p₄, he, h⟩ := bind_eq_ok.mp h
  obtain ⟨ts, xs, j, rfl, hp₄, d, hd, he⟩ := hexpr hp₃ he
  obtain ⟨rfl, rfl⟩ := pure_eq_ok.mp h
  exact ⟨t :: a :: ts, xs, j, rfl, hp₄, d, hd, .assign ht ha he⟩

theorem call_sound {expr : Rule Expr} (hexpr : Sound expr (IsExpr.Within n)) :
    Sound (call expr) fun ts i c j => IsStatement.Within n ts i (.call c) j := by
  intro p q us i c hp h
  obtain ⟨_, p₁, hnote, h⟩ := bind_eq_ok.mp h
  obtain ⟨name, p₂, hname, h⟩ := bind_eq_ok.mp h
  obtain ⟨t, vs, rfl, ht, rfl, hp₂⟩ := identifier_eq_ok (note_eq_ok hp hnote) hname
  obtain ⟨args, p₃, hargs, h⟩ := bind_eq_ok.mp h
  obtain ⟨ts, ws, j, rfl, hp₃, d, hd, hargs⟩ := arguments_sound hexpr hp₂ hargs
  obtain ⟨id, p₄, hid, h⟩ := bind_eq_ok.mp h
  obtain ⟨rfl, hp₄⟩ := Reads.newId.eq hp₃ hid
  obtain ⟨rfl, rfl⟩ := pure_eq_ok.mp h
  exact ⟨t :: ts, ws, id + 1, rfl, hp₄, d, hd, .call ht hargs⟩

theorem isWrite_of_kind {k : Token.Kind} (hk : k = .write ∨ k = .writeln) :
    IsWrite k (k = .writeln) := by
  rcases hk with rfl | rfl
  · exact .write
  · exact .writeln

theorem write_eq_ok {expr : Rule Expr} (hexpr : Sound expr (IsExpr.Within n)) {p q : Parser}
    {us : List Token} {i : NodeId} {s : Statement} (hp : p.At us i)
    (hu : headKind us = .write ∨ headKind us = .writeln) (h : write expr p = .ok s q) :
    ∃ ts vs j, us = ts ++ vs ∧ q.At vs j ∧ IsStatement.Within n ts i s j := by
  obtain ⟨t, p₁, hadvance, h⟩ := bind_eq_ok.mp h
  have hend : headKind us ≠ .endOfText := by
    rcases hu with hu | hu <;> rw [hu] <;> decide
  obtain ⟨vs, rfl, hp₁⟩ := advance_eq_ok hp hend hadvance
  obtain ⟨args, p₂, hargs, h⟩ := bind_eq_ok.mp h
  obtain ⟨ts, ws, j, rfl, hp₂, d, hd, hargs⟩ := arguments_sound hexpr hp₁ hargs
  obtain ⟨rfl, rfl⟩ := pure_eq_ok.mp h
  exact ⟨t :: ts, ws, j, rfl, hp₂, d, hd, .write (isWrite_of_kind hu) hargs⟩

theorem statementOf_sound {compound : Rule (List Statement)} {expr : Rule Expr}
    (hcompound : Sound compound (IsCompound.Within n)) (hexpr : Sound expr (IsExpr.Within n)) :
    Sound (statementOf compound expr) (IsStatement.Within n) := by
  intro p q us i s hp h
  obtain ⟨t, p₁, hcurrent, h⟩ := bind_eq_ok.mp h
  cases hcurrent
  have hempty : (pure .empty : Rule Statement) p = .ok s q →
      ∃ ts vs j, us = ts ++ vs ∧ q.At vs j ∧ IsStatement.Within n ts i s j := by
    intro h
    obtain ⟨rfl, rfl⟩ := pure_eq_ok.mp h
    exact ⟨[], us, i, rfl, hp, 0, Nat.zero_le n, .empty⟩
  rw [hp.current_kind] at h
  cases hk : headKind us <;> rw [hk] at h
  case beginBlock =>
    obtain ⟨body, p₁, hbody, h⟩ := bind_eq_ok.mp h
    obtain ⟨ts, vs, j, rfl, hp₁, d, hd, hbody⟩ := hcompound hp hbody
    obtain ⟨rfl, rfl⟩ := pure_eq_ok.mp h
    exact ⟨ts, vs, j, rfl, hp₁, d, hd, .compound hbody⟩
  case identifier =>
    obtain ⟨k, p₁, hpeek, h⟩ := bind_eq_ok.mp h
    cases us with
    | nil => cases hk
    | cons t us =>
        obtain ⟨rfl, hp₁⟩ := Reads.peekKind.eq hp hpeek
        by_cases ha : headKind us = .assign
        · rw [ha] at h
          exact assignment_sound hexpr hp₁ h
        · rw [if_neg ha] at h
          obtain ⟨c, p₂, hc, h⟩ := bind_eq_ok.mp h
          obtain ⟨rfl, rfl⟩ := pure_eq_ok.mp h
          exact call_sound hexpr hp₁ hc
  case write => exact write_eq_ok hexpr hp (.inl hk) h
  case writeln => exact write_eq_ok hexpr hp (.inr hk) h
  all_goals exact hempty h

theorem compound_sound (n : Nat) : Sound (compound n) (IsCompound.Within n) := by
  induction n with
  | zero =>
      -- A compound statement is a level of its own, so without any left it is refused.
      intro p q us i body _ h
      cases h
  | succ n ih =>
      intro p q us i body hp h
      obtain ⟨_, p₁, hnote, h⟩ := bind_eq_ok.mp h
      obtain ⟨b, p₂, hb, h⟩ := bind_eq_ok.mp h
      obtain ⟨vs, rfl, hb, hp₂⟩ := eat_eq_ok (by decide) (note_eq_ok hp hnote) hb
      obtain ⟨body', p₃, hbody, h⟩ := bind_eq_ok.mp h
      obtain ⟨ts, ws, j, rfl, hp₃, d, hd, hbody⟩ :=
        separated_sound (by decide) (statementOf_sound ih (expr_sound n)) hp₂ hbody
      obtain ⟨e, p₄, he, h⟩ := bind_eq_ok.mp h
      obtain ⟨xs, rfl, he, hp₄⟩ := eat_eq_ok (by decide) hp₃ he
      obtain ⟨rfl, rfl⟩ := pure_eq_ok.mp h
      exact ⟨b :: (ts ++ [e]), xs, j, by simp, hp₄, d + 1, Nat.succ_le_succ hd,
        .mk hb hbody he⟩

/-! ### Declarations -/

theorem identifier_sound : Sound identifier (IsName.Within n) := by
  intro p q us i name hp h
  obtain ⟨t, vs, rfl, ht, rfl, hq⟩ := identifier_eq_ok hp h
  exact ⟨[t], vs, i, rfl, hq, 0, Nat.zero_le n, .mk ht⟩

theorem typeName_eq_ok {p q : Parser} {us : List Token} {i : NodeId} {r : DataType × Position}
    (hp : p.At us i) (h : typeName p = .ok r q) :
    ∃ t type vs, us = t :: vs ∧ IsType t.kind type ∧ r = (type, t.position) ∧ q.At vs i := by
  have htaken (type : DataType) (hu : headKind us ≠ .endOfText)
      (htype : IsType (headKind us) type)
      (h : (do return (type, (← advance).position) : Rule (DataType × Position)) p = .ok r q) :
      ∃ t type vs, us = t :: vs ∧ IsType t.kind type ∧ r = (type, t.position) ∧ q.At vs i := by
    obtain ⟨t, p₁, hadvance, h⟩ := bind_eq_ok.mp h
    obtain ⟨vs, rfl, hp₁⟩ := advance_eq_ok hp hu hadvance
    obtain ⟨rfl, rfl⟩ := pure_eq_ok.mp h
    exact ⟨t, type, vs, rfl, htype, rfl, hp₁⟩
  obtain ⟨t, p₁, hcurrent, h⟩ := bind_eq_ok.mp h
  cases hcurrent
  rw [hp.current_kind] at h
  cases hk : headKind us <;> rw [hk] at h htaken
  case integer => exact htaken .integer (by decide) .integer h
  case real => exact htaken .real (by decide) .real h
  case string => exact htaken .string (by decide) .string h
  all_goals cases h

theorem variableGroup_sound : Sound variableGroup (IsGroup.Within n) := by
  intro p q us i decls hp h
  obtain ⟨names, p₁, hnames, h⟩ := bind_eq_ok.mp h
  obtain ⟨ts, vs, j, rfl, hp₁, d, hd, hnames⟩ :=
    separated_sound (by decide) identifier_sound hp hnames
  obtain ⟨c, p₂, hc, h⟩ := bind_eq_ok.mp h
  obtain ⟨ws, rfl, hc, hp₂⟩ := eat_eq_ok (by decide) hp₁ hc
  obtain ⟨r, p₃, hr, h⟩ := bind_eq_ok.mp h
  obtain ⟨t, type, xs, rfl, ht, rfl, hp₃⟩ := typeName_eq_ok hp₂ hr
  obtain ⟨rfl, rfl⟩ := pure_eq_ok.mp h
  exact ⟨ts ++ [c, t], xs, j, by simp, hp₃, d, hd, .mk hnames hc ht⟩

/-- A group with its semicolon. -/
theorem line_sound :
    Sound (do let decls ← variableGroup; let _ ← eat .semicolon; return decls)
      (IsLine.Within n) := by
  intro p q us i decls hp h
  obtain ⟨decls', p₁, hdecls, h⟩ := bind_eq_ok.mp h
  obtain ⟨ts, vs, j, rfl, hp₁, d, hd, hdecls⟩ := variableGroup_sound hp hdecls
  obtain ⟨s, p₂, hs, h⟩ := bind_eq_ok.mp h
  obtain ⟨ws, rfl, hs, hp₂⟩ := eat_eq_ok (by decide) hp₁ hs
  obtain ⟨rfl, rfl⟩ := pure_eq_ok.mp h
  exact ⟨ts ++ [s], ws, j, by simp, hp₂, d, hd, .mk hdecls hs⟩

/-- A step that looks for the kind of the first token and leaves it to the item. -/
theorem checked_sound {kind : Token.Kind} {item : Rule α} {Item : Judgment α}
    (hitem : Sound item (Item.Within n)) :
    SoundStep (do if ← check kind then return some (← item) else return none)
      (Item.Within n) := by
  intro p q us i o hp h
  obtain ⟨c, p₁, hc, h⟩ := bind_eq_ok.mp h
  obtain ⟨-, hp₁⟩ := check_eq_ok hp hc
  cases c with
  | true =>
      obtain ⟨a, p₂, ha, h⟩ := bind_eq_ok.mp h
      obtain ⟨ts, vs, j, rfl, hp₂, ha⟩ := hitem hp₁ ha
      obtain ⟨rfl, rfl⟩ := pure_eq_ok.mp h
      exact .inr ⟨a, ts, vs, j, rfl, rfl, hp₂, ha⟩
  | false =>
      obtain ⟨rfl, rfl⟩ := pure_eq_ok.mp h
      exact .inl ⟨rfl, hp₁⟩

/-- The lines after the word `VAR`, which is read before them. -/
theorem sections_sound :
    SoundStep (do if ← accept .var then return some (← variableSection) else return none)
      (IsSection.Within n) := by
  intro p q us i o hp h
  obtain ⟨c, p₁, hc, h⟩ := bind_eq_ok.mp h
  rcases accept_eq_ok (by decide) hp hc with ⟨rfl, v, vs, rfl, hv, hp₁⟩ | ⟨rfl, -, hp₁⟩
  · obtain ⟨decls, p₂, hdecls, h⟩ := bind_eq_ok.mp h
    obtain ⟨first, p₃, hfirst, hdecls⟩ := bind_eq_ok.mp hdecls
    obtain ⟨ts, ws, j, rfl, hp₃, d, hd, hfirst⟩ := line_sound hp₁ hfirst
    obtain ⟨others, p₄, hothers, hdecls⟩ := bind_eq_ok.mp hdecls
    obtain ⟨ts', xs, k, rfl, hp₄, d', hd', hothers⟩ :=
      collect_sound (checked_sound line_sound) hp₃ hothers
    obtain ⟨rfl, rfl⟩ := pure_eq_ok.mp hdecls
    obtain ⟨rfl, rfl⟩ := pure_eq_ok.mp h
    exact .inr ⟨_, v :: (ts ++ ts'), xs, k, rfl, by simp, hp₄, max d d',
      Nat.max_le.mpr ⟨hd, hd'⟩, .mk hv hfirst hothers⟩
  · obtain ⟨rfl, rfl⟩ := pure_eq_ok.mp h
    exact .inl ⟨rfl, hp₁⟩

theorem procedureOf_sound {block : Rule Block} (hblock : Sound block (IsBlock.Within n)) :
    Sound (procedureOf block) (IsProcedure.Within n) := by
  intro p q us i proc hp h
  obtain ⟨_, p₁, hnote, h⟩ := bind_eq_ok.mp h
  obtain ⟨w, p₂, hw, h⟩ := bind_eq_ok.mp h
  obtain ⟨vs, rfl, hw, hp₂⟩ := eat_eq_ok (by decide) (note_eq_ok hp hnote) hw
  obtain ⟨name, p₃, hname, h⟩ := bind_eq_ok.mp h
  obtain ⟨t, ws, rfl, ht, rfl, hp₃⟩ := identifier_eq_ok hp₂ hname
  -- However the parameters were given, the rest is read in the same way.
  have hrest {r : Parser} (ts : List Token) {xs : List Token} {j : NodeId} {d : Nat}
      {groups : List (List VarDecl)} (hws : ws = ts ++ xs) (hr : r.At xs j) (hd : d ≤ n)
      (hparams : IsParams d ts i groups j)
      (h : (do
        let _ ← eat .semicolon
        let block ← block
        let _ ← eat .semicolon
        return .mk t.word t.position groups.flatten block : Rule Procedure) r = .ok proc q) :
      ∃ ts vs j, w :: t :: ws = ts ++ vs ∧ q.At vs j ∧ IsProcedure.Within n ts i proc j := by
    obtain ⟨s, r₁, hs, h⟩ := bind_eq_ok.mp h
    obtain ⟨ys, rfl, hs, hr₁⟩ := eat_eq_ok (by decide) hr hs
    obtain ⟨b, r₂, hb, h⟩ := bind_eq_ok.mp h
    obtain ⟨us, zs, k, rfl, hr₂, d', hd', hb⟩ := hblock hr₁ hb
    obtain ⟨s', r₃, hs', h⟩ := bind_eq_ok.mp h
    obtain ⟨rest, rfl, hs', hr₃⟩ := eat_eq_ok (by decide) hr₂ hs'
    obtain ⟨rfl, rfl⟩ := pure_eq_ok.mp h
    exact ⟨w :: t :: (ts ++ s :: (us ++ [s'])), rest, k, by simp [hws], hr₃, max d d',
      Nat.max_le.mpr ⟨hd, hd'⟩, .mk hw ht hparams hs hb hs'⟩
  obtain ⟨c, p₄, hc, h⟩ := bind_eq_ok.mp h
  rcases accept_eq_ok (by decide) hp₃ hc with ⟨rfl, l, xs, rfl, hl, hp₄⟩ | ⟨rfl, -, hp₄⟩
  · obtain ⟨c, p₅, hc, h⟩ := bind_eq_ok.mp h
    obtain ⟨-, hp₅⟩ := check_eq_ok hp₄ hc
    cases c with
    | true =>
        obtain ⟨params, p₆, hparams, h⟩ := bind_eq_ok.mp h
        obtain ⟨groups, p₇, hgroups, hparams⟩ := bind_eq_ok.mp hparams
        obtain ⟨rfl, rfl⟩ := pure_eq_ok.mp hparams
        obtain ⟨ts, ys, j, rfl, hp₆, d, hd, hgroups⟩ :=
          separated_sound (by decide) variableGroup_sound hp₅ hgroups
        obtain ⟨r, p₈, hr, h⟩ := bind_eq_ok.mp h
        obtain ⟨zs, rfl, hr, hp₈⟩ := eat_eq_ok (by decide) hp₆ hr
        exact hrest (l :: (ts ++ [r])) (by simp) hp₈ hd (.list hl hgroups hr) h
    | false =>
        obtain ⟨params, p₆, hparams, h⟩ := bind_eq_ok.mp h
        obtain ⟨rfl, rfl⟩ := pure_eq_ok.mp hparams
        obtain ⟨r, p₇, hr, h⟩ := bind_eq_ok.mp h
        obtain ⟨ys, rfl, hr, hp₇⟩ := eat_eq_ok (by decide) hp₅ hr
        exact hrest [l, r] rfl hp₇ (Nat.zero_le n) (.empty hl hr) h
  · exact hrest [] rfl hp₄ (Nat.zero_le n) .absent h

theorem declarationsOf_eq_ok {block : Rule Block} (hblock : Sound block (IsBlock.Within n))
    {p q : Parser} {us : List Token} {i : NodeId} {r : List VarDecl × List Procedure}
    (hp : p.At us i) (h : declarationsOf block p = .ok r q) :
    ∃ sections ts ts' vs j k, r.1 = sections.flatten ∧ us = ts ++ (ts' ++ vs) ∧ q.At vs k ∧
      (Many IsSection).Within n ts i sections j ∧ (Many IsProcedure).Within n ts' j r.2 k := by
  obtain ⟨_, p₁, hnote, h⟩ := bind_eq_ok.mp h
  obtain ⟨sections, p₂, hsections, h⟩ := bind_eq_ok.mp h
  obtain ⟨ts, vs, j, rfl, hp₂, hsections⟩ :=
    collect_sound sections_sound (note_eq_ok hp hnote) hsections
  obtain ⟨procedures, p₃, hprocedures, h⟩ := bind_eq_ok.mp h
  obtain ⟨ts', ws, k, rfl, hp₃, hprocedures⟩ :=
    collect_sound (checked_sound (procedureOf_sound hblock)) hp₂ hprocedures
  obtain ⟨rfl, rfl⟩ := pure_eq_ok.mp h
  exact ⟨sections, ts, ts', ws, j, k, rfl, rfl, hp₃, hsections, hprocedures⟩

theorem block_sound (n : Nat) : Sound (block n) (IsBlock.Within n) := by
  induction n with
  | zero =>
      intro p q us i b _ h
      cases h
  | succ n ih =>
      intro p q us i b hp h
      obtain ⟨r, p₁, hr, h⟩ := bind_eq_ok.mp h
      obtain ⟨sections, ts, ts', vs, j, k, hvars, rfl, hp₁, ⟨d, hd, hsections⟩, d', hd',
          hprocedures⟩ :=
        declarationsOf_eq_ok ih hp hr
      obtain ⟨body, p₂, hbody, h⟩ := bind_eq_ok.mp h
      obtain ⟨ts'', ws, l, rfl, hp₂, d'', hd'', hbody⟩ := compound_sound n hp₁ hbody
      obtain ⟨rfl, rfl⟩ := pure_eq_ok.mp h
      refine ⟨ts ++ (ts' ++ ts''), ws, l, by simp, hp₂, max d (max d' d'') + 1, ?_, ?_⟩
      · exact Nat.succ_le_succ (Nat.max_le.mpr ⟨hd, Nat.max_le.mpr ⟨hd', hd''⟩⟩)
      · rw [hvars]
        exact .mk hsections hprocedures hbody

theorem program_eq_ok {n : Nat} {p q : Parser} {us : List Token} {prog : Program}
    (hp : p.At us 0) (h : program n p = .ok prog q) :
    ∃ ts vs j, us = ts ++ vs ∧ q.At vs j ∧ ∃ d ≤ n, IsProgram d ts prog := by
  obtain ⟨_, p₁, hnote, h⟩ := bind_eq_ok.mp h
  obtain ⟨w, p₂, hw, h⟩ := bind_eq_ok.mp h
  obtain ⟨vs, rfl, hw, hp₂⟩ := eat_eq_ok (by decide) (note_eq_ok hp hnote) hw
  obtain ⟨name, p₃, hname, h⟩ := bind_eq_ok.mp h
  obtain ⟨t, ws, rfl, ht, rfl, hp₃⟩ := identifier_eq_ok hp₂ hname
  obtain ⟨s, p₄, hs, h⟩ := bind_eq_ok.mp h
  obtain ⟨xs, rfl, hs, hp₄⟩ := eat_eq_ok (by decide) hp₃ hs
  obtain ⟨b, p₅, hb, h⟩ := bind_eq_ok.mp h
  obtain ⟨ts, ys, j, rfl, hp₅, d, hd, hb⟩ := block_sound n hp₄ hb
  obtain ⟨dot, p₆, hdot, h⟩ := bind_eq_ok.mp h
  obtain ⟨zs, rfl, hdot, hp₆⟩ := eat_eq_ok (by decide) hp₅ hdot
  obtain ⟨rfl, rfl⟩ := pure_eq_ok.mp h
  exact ⟨w :: t :: s :: (ts ++ [dot]), zs, j, by simp, hp₆, d, hd, .mk hw ht hs hb hdot⟩

theorem wholeProgram_eq_ok {n : Nat} {p q : Parser} {us : List Token} {program : Program}
    (hp : p.At us 0) (h : wholeProgram n p = .ok program q) :
    ∃ d ≤ n, IsProgram d us program := by
  obtain ⟨_, p₁, hnote, h⟩ := bind_eq_ok.mp h
  obtain ⟨program', p₂, hprogram, h⟩ := bind_eq_ok.mp h
  obtain ⟨ts, vs, j, rfl, hp₂, d, hd, hderived⟩ := program_eq_ok (note_eq_ok hp hnote) hprogram
  obtain ⟨e, p₃, he, h⟩ := bind_eq_ok.mp h
  obtain ⟨rfl, rfl⟩ := pure_eq_ok.mp h
  -- Nothing but the end of the text is left.
  have hvs : vs = [] := hp₂.eq_nil (headKind_of_eat hp₂ he)
  rw [hvs, List.append_nil]
  exact ⟨d, hd, hderived⟩

end MiniPascal.Rule

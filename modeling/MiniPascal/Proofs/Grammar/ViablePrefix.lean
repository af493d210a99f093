import MiniPascal.Proofs.Grammar.Acceptance
import MiniPascal.Proofs.Grammar.Lookahead

/-!
What has been read when a token is refused can still become something. No rule leads into a
dead end: whatever a rule has read when it meets a token that it did not expect, some tokens
complete it.

A literal without a value would be refused after it has been taken, so every literal is assumed
to have one.
-/

namespace MiniPascal

namespace Grammar

/-- Some tokens after `ts` complete what the judgment derives. -/
def Judgment.Begins {α : Type} (D : Judgment α) (ts : List Token) (i : NodeId) : Prop :=
  ∃ xs d a j, D d (ts ++ xs) i a j

theorem Judgment.Begins.of {α : Type} {D : Judgment α} {d : Nat} {ts us : List Token}
    {i j : NodeId} {a : α} (xs : List Token) (h : D d us i a j) (hus : us = ts ++ xs) :
    D.Begins ts i :=
  ⟨xs, d, a, j, hus ▸ h⟩

/-- A token of which only the kind matters. -/
def sample (kind : Token.Kind) : Token := ⟨kind, some (.integer 0), .start⟩

@[simp]
theorem kind_sample (kind : Token.Kind) : (sample kind).kind = kind := rfl

theorem IsExpr.begins (i : NodeId) : IsExpr.Begins [] i :=
  ⟨[sample .identifier], 0, _, _, .one (.one (.var rfl))⟩

theorem IsFactor.begins (i : NodeId) : IsFactor.Begins [] i :=
  ⟨[sample .identifier], 0, _, _, .var rfl⟩

theorem IsCompound.begins (i : NodeId) : IsCompound.Begins [] i := by
  have hbody : Separated .semicolon IsStatement _ ([] ++ []) i _ i :=
    .mk IsStatement.empty .nil
  have hderived :=
    IsCompound.mk (b := sample .beginBlock) (e := sample .endBlock) rfl hbody rfl
  exact .of _ hderived rfl

theorem IsBlock.begins (i : NodeId) : IsBlock.Begins [] i := by
  obtain ⟨xs, d, body, j, h⟩ := IsCompound.begins i
  exact ⟨xs, _, _, j, .mk .nil .nil h⟩

/-- The literals among the tokens have values. -/
def Valued (ts : List Token) : Prop := ∀ t ∈ ts, IsLiteral t.kind → t.value.isSome

theorem Valued.right {ts us : List Token} (h : Valued (ts ++ us)) : Valued us :=
  fun t ht => h t (List.mem_append_right ts ht)

theorem Valued.tail {t : Token} {us : List Token} (h : Valued (t :: us)) : Valued us :=
  fun u hu => h u (List.mem_cons_of_mem t hu)

/-- Some tokens after `ts` complete a program. -/
def BeginsProgram (ts : List Token) : Prop := ∃ xs d program, IsProgram d (ts ++ xs) program

theorem BeginsProgram.of {d : Nat} {ts us : List Token} {program : Program} (xs : List Token)
    (h : IsProgram d us program) (hus : us = ts ++ xs) : BeginsProgram ts :=
  ⟨xs, d, program, hus ▸ h⟩

end Grammar

namespace Rule

open Grammar

variable {α β : Type} {n : Nat}

/-- When the rule refuses a token, what it has read so far begins something. -/
def Viable (r : Rule β) (D : Judgment α) : Prop :=
  ∀ ⦃p q : Parser⦄ ⦃us : List Token⦄ ⦃i : NodeId⦄ ⦃t : Token⦄ ⦃x : Option String⦄, p.At us i →
    Valued us → r p = .error (.unexpected t x) q →
    ∃ ts vs j, us = ts ++ vs ∧ q.At vs j ∧ q.current = t ∧ D.Begins ts i

theorem bind_eq_error {x : Rule α} {f : α → Rule β} {p q : Parser} {e : SyntaxError}
    (h : (x >>= f) p = .error e q) :
    x p = .error e q ∨ ∃ a r, x p = .ok a r ∧ f a r = .error e q := by
  cases hx : x p with
  | ok a r =>
      rw [bind_of_ok hx] at h
      exact .inr ⟨a, r, rfl, h⟩
  | error e' r =>
      rw [bind_of_error hx] at h
      cases h
      exact .inl rfl

theorem advance_ne_error {p q : Parser} {e : SyntaxError} : advance p ≠ .error e q := by
  rw [advance]
  split
  · simp
  · split <;> simp

theorem accept_ne_error {kind : Token.Kind} {p q : Parser} {e : SyntaxError} :
    accept kind p ≠ .error e q := by
  intro h
  rcases bind_eq_error h with h | ⟨c, p₁, -, h⟩
  · cases h
  · split at h
    · rcases bind_eq_error h with h | ⟨t, p₂, -, h⟩
      · exact advance_ne_error h
      · cases h
    · cases h

section

variable {p q : Parser} {us : List Token} {i : NodeId} {t : Token} {x : Option String}

/-- A token that is not eaten is refused where it stands. -/
theorem eat_eq_error {kind : Token.Kind} (hp : p.At us i)
    (h : eat kind p = .error (.unexpected t x) q) : q.At us i ∧ q.current = t := by
  obtain ⟨j, heat⟩ := eat_eq kind p
  rw [heat] at h
  split at h
  · exact absurd h advance_ne_error
  · cases h
    exact ⟨hp.journal j, rfl⟩

theorem identifier_eq_error (hp : p.At us i) (h : identifier p = .error (.unexpected t x) q) :
    q.At us i ∧ q.current = t := by
  rcases bind_eq_error h with h | ⟨u, p₁, -, h⟩
  · exact eat_eq_error hp h
  · cases h

theorem variableUse_eq_error (hp : p.At us i)
    (h : variableUse p = .error (.unexpected t x) q) :
    q.At us i ∧ q.current = t := by
  rcases bind_eq_error h with h | ⟨name, p₁, -, h⟩
  · exact identifier_eq_error hp h
  · cases h

theorem typeName_eq_error (hp : p.At us i) (h : typeName p = .error (.unexpected t x) q) :
    q.At us i ∧ q.current = t := by
  have htaken (type : DataType) :
      (do return (type, (← advance).position) : Rule (DataType × Position)) p ≠
        .error (.unexpected t x) q := by
    intro h
    rcases bind_eq_error h with h | ⟨u, p₁, -, h⟩
    · exact advance_ne_error h
    · cases h
  rcases bind_eq_error h with h | ⟨u, p₁, hcurrent, h⟩
  · cases h
  · cases hcurrent
    cases hk : p.current.kind <;> rw [hk] at h
    case integer => exact absurd h (htaken .integer)
    case real => exact absurd h (htaken .real)
    case string => exact absurd h (htaken .string)
    all_goals
      cases h
      exact ⟨hp, rfl⟩

end

/-! ### Repetition -/

theorem collectUpTo_viable {step : Rule (Option α)} {Item : Judgment α}
    (hsound : SoundStep step (Item.Within n)) (hviable : Viable step Item) (m : Nat) :
    Viable (collectUpTo step m) (Many Item) := by
  induction m with
  | zero =>
      intro p q us i t x _ _ h
      cases h
  | succ m ih =>
      intro p q us i t x hp hv h
      rcases bind_eq_error h with h | ⟨o, p₁, ho, h⟩
      · obtain ⟨ts, vs, j, rfl, hq, ht, xs, d, a, k, ha⟩ := hviable hp hv h
        exact ⟨ts, vs, j, rfl, hq, ht, .of xs (Many.cons ha .nil) (by simp)⟩
      · rcases hsound hp ho with ⟨rfl, -⟩ | ⟨a, ts, vs, j, rfl, rfl, hp₁, d, -, ha⟩
        · cases h
        · rcases bind_eq_error h with h | ⟨as, p₂, -, h⟩
          · obtain ⟨ts', ws, k, rfl, hq, ht, xs, d', as, l, has⟩ := ih hp₁ hv.right h
            exact ⟨ts ++ ts', ws, k, by simp, hq, ht, .of xs (Many.cons ha has) (by simp)⟩
          · cases h

theorem collect_viable {step : Rule (Option α)} {Item : Judgment α}
    (hsound : SoundStep step (Item.Within n)) (hviable : Viable step Item) :
    Viable (collect step) (Many Item) :=
  fun p _ _ _ _ _ hp hv h => collectUpTo_viable hsound hviable p.total hp hv h

theorem preceded_viable {sep : Token.Kind} {item : Rule α} {Item : Judgment α}
    (hsep : sep ≠ .endOfText) (hitem : Viable item Item) :
    Viable (do if ← accept sep then return some (← item) else return none)
      (Preceded sep Item) := by
  intro p q us i t x hp hv h
  rcases bind_eq_error h with h | ⟨c, p₁, hc, h⟩
  · exact absurd h accept_ne_error
  · rcases accept_eq_ok hsep hp hc with ⟨rfl, u, vs, rfl, hu, hp₁⟩ | ⟨rfl, -, -⟩
    · rcases bind_eq_error h with h | ⟨a, p₂, -, h⟩
      · obtain ⟨ts, ws, j, rfl, hq, ht, xs, d, a, k, ha⟩ := hitem hp₁ hv.tail h
        exact ⟨u :: ts, ws, j, rfl, hq, ht, xs, d, a, k, .mk hu ha⟩
      · cases h
    · cases h

theorem separated_viable {sep : Token.Kind} {item : Rule α} {Item : Judgment α}
    (hsep : sep ≠ .endOfText) (hsound : Sound item (Item.Within n))
    (hviable : Viable item Item) :
    Viable (separated sep item) (Separated sep Item) := by
  intro p q us i t x hp hv h
  rcases bind_eq_error h with h | ⟨a, p₁, ha, h⟩
  · obtain ⟨ts, vs, j, rfl, hq, ht, xs, d, a, k, ha⟩ := hviable hp hv h
    exact ⟨ts, vs, j, rfl, hq, ht, .of xs (Separated.mk ha .nil) (by simp)⟩
  · obtain ⟨ts, vs, j, rfl, hp₁, d, -, ha⟩ := hsound hp ha
    rcases bind_eq_error h with h | ⟨others, p₂, -, h⟩
    · obtain ⟨ts', ws, k, rfl, hq, ht, xs, d', as, l, has⟩ :=
        collect_viable (preceded_sound hsep hsound)
          (preceded_viable hsep hviable) hp₁ hv.right h
      exact ⟨ts ++ ts', ws, k, by simp, hq, ht, .of xs (Separated.mk ha has) (by simp)⟩
    · cases h

/-! ### Expressions -/

section Chain

variable {op? : Token.Kind → Option BinaryOp} {Op : Token.Kind → BinaryOp → Prop}
variable {operand : Rule Expr} {Operand : Judgment Expr}

theorem joinUpTo_viable (hop : ∀ k op, op? k = some op → Op k op)
    (hend : op? .endOfText = none) (hsound : Sound operand (Operand.Within n))
    (hviable : Viable operand Operand) (m : Nat)
    {p q : Parser} {d : Nat} {ts us : List Token} {i j : NodeId} {left : Expr} {t : Token}
    {x : Option String} (hleft : Chain Op Operand d ts i left j) (hp : p.At us j)
    (hv : Valued us) (h : joinUpTo op? operand m left p = .error (.unexpected t x) q) :
    ∃ ts' vs k, us = ts' ++ vs ∧ q.At vs k ∧ q.current = t ∧
      (Chain Op Operand).Begins (ts ++ ts') i := by
  induction m generalizing p d ts us j left with
  | zero => cases h
  | succ m ih =>
      rcases bind_eq_error h with h | ⟨u, p₁, hu, h⟩
      · cases h
      · cases hu
        cases hk : op? p.current.kind with
        | none =>
            rw [hk] at h
            cases h
        | some op =>
            rw [hk] at h
            rcases bind_eq_error h with h | ⟨u, p₂, hadvance, h⟩
            · exact absurd h advance_ne_error
            · rw [hp.current_kind] at hk
              have hne : headKind us ≠ .endOfText := by
                intro hu
                rw [hu, hend] at hk
                cases hk
              obtain ⟨vs, rfl, hp₂⟩ := advance_eq_ok hp hne hadvance
              rcases bind_eq_error h with h | ⟨right, p₃, hright, h⟩
              · obtain ⟨ts', ws, k, rfl, hq, ht, xs, d', right, l, hright⟩ :=
                  hviable hp₂ hv.tail h
                exact ⟨u :: ts', ws, k, rfl, hq, ht,
                  .of xs (Chain.more hleft (hop _ _ hk) hright) (by simp)⟩
              · obtain ⟨ts', ws, k, rfl, hp₃, d', -, hright⟩ := hsound hp₂ hright
                obtain ⟨us', ys, l, rfl, hq, ht, hchain⟩ :=
                  ih (Chain.more hleft (hop _ _ hk) hright) hp₃ hv.tail.right h
                rw [List.append_assoc] at hchain
                exact ⟨u :: (ts' ++ us'), ys, l, by simp, hq, ht, hchain⟩

theorem chain_viable (hop : ∀ k op, op? k = some op → Op k op) (hend : op? .endOfText = none)
    (hsound : Sound operand (Operand.Within n)) (hviable : Viable operand Operand) :
    Viable (chain op? operand) (Chain Op Operand) := by
  intro p q us i t x hp hv h
  rcases bind_eq_error h with h | ⟨first, p₁, hfirst, h⟩
  · obtain ⟨ts, vs, j, rfl, hq, ht, xs, d, e, k, he⟩ := hviable hp hv h
    exact ⟨ts, vs, j, rfl, hq, ht, xs, d, e, k, .one he⟩
  · obtain ⟨ts, vs, j, rfl, hp₁, d, -, hfirst⟩ := hsound hp hfirst
    obtain ⟨ts', ws, k, rfl, hq, ht, hchain⟩ :=
      joinUpTo_viable hop hend hsound hviable _ (.one hfirst) hp₁ hv.right h
    exact ⟨ts ++ ts', ws, k, by simp, hq, ht, hchain⟩

end Chain

theorem exprOf_viable {factor : Rule Expr} (hsound : Sound factor (IsFactor.Within n))
    (hviable : Viable factor IsFactor) : Viable (exprOf factor) IsExpr := by
  intro p q us i t x hp hv h
  rcases bind_eq_error h with h | ⟨_, p₁, hnote, h⟩
  · cases h
  · exact chain_viable isSumOp_of_sumOp? rfl (chain_sound isProductOp_of_productOp? rfl hsound)
      (chain_viable isProductOp_of_productOp? rfl hsound hviable) (note_eq_ok hp hnote) hv h

/-- A literal that has its value is not refused. -/
theorem literal_ne_error {p q : Parser} {u : Token} {us : List Token} {i : NodeId}
    {e : SyntaxError} (hp : p.At (u :: us) i) (hv : Valued (u :: us)) (hu : IsLiteral u.kind) :
    literal p ≠ .error e q := by
  intro h
  obtain ⟨v, hvalue⟩ := Option.isSome_iff_exists.mp (hv u List.mem_cons_self hu)
  obtain ⟨q', hread, -⟩ := Reads.literal hvalue p hp
  rw [hread] at h
  cases h

/-- A rule for factors that start with a token of a kind as `P` says. -/
def ViableFrom (P : Token.Kind → Prop) (r : Rule Expr) : Prop :=
  ∀ ⦃p q : Parser⦄ ⦃u : Token⦄ ⦃us : List Token⦄ ⦃i : NodeId⦄ ⦃t : Token⦄ ⦃x : Option String⦄,
    P u.kind → p.At (u :: us) i → Valued us → r p = .error (.unexpected t x) q →
    ∃ ts vs j, us = ts ++ vs ∧ q.At vs j ∧ q.current = t ∧ IsFactor.Begins (u :: ts) i

theorem tooDeep_viableFrom (P : Token.Kind → Prop) : ViableFrom P tooDeep := by
  intro p q u us i t x _ _ _ h
  cases h

theorem signed_viableFrom {factor : Rule Expr} (hviable : Viable factor IsFactor)
    (op : UnaryOp) :
    ViableFrom (IsSign · op) (signed factor op) := by
  intro p q u us i t x hu hp hv h
  rcases bind_eq_error h with h | ⟨w, p₁, hadvance, h⟩
  · exact absurd h advance_ne_error
  · obtain ⟨rfl, hp₁⟩ := Reads.advance.eq hp hadvance
    rcases bind_eq_error h with h | ⟨e, p₂, -, h⟩
    · obtain ⟨ts, vs, j, rfl, hq, ht, xs, d, e, k, he⟩ := hviable hp₁ hv h
      exact ⟨ts, vs, j, rfl, hq, ht, xs, _, _, k, .signed hu he⟩
    · cases h

theorem parenthesized_viableFrom {expr : Rule Expr} (hsound : Sound expr (IsExpr.Within n))
    (hviable : Viable expr IsExpr) : ViableFrom (· = .leftParen) (parenthesized expr) := by
  intro p q u us i t x hu hp hv h
  rcases bind_eq_error h with h | ⟨w, p₁, hadvance, h⟩
  · exact absurd h advance_ne_error
  · obtain ⟨rfl, hp₁⟩ := Reads.advance.eq hp hadvance
    rcases bind_eq_error h with h | ⟨inner, p₂, hinner, h⟩
    · obtain ⟨ts, vs, j, rfl, hq, ht, xs, d, e, k, he⟩ := hviable hp₁ hv h
      exact ⟨ts, vs, j, rfl, hq, ht, .of (xs ++ [sample .rightParen])
        (IsFactor.parenthesized hu he (kind_sample _)) (by simp)⟩
    · obtain ⟨ts, vs, j, rfl, hp₂, d, -, hinner⟩ := hsound hp₁ hinner
      rcases bind_eq_error h with h | ⟨r, p₃, -, h⟩
      · obtain ⟨hq, ht⟩ := eat_eq_error hp₂ h
        exact ⟨ts, vs, j, rfl, hq, ht, .of [sample .rightParen]
          (IsFactor.parenthesized hu hinner (kind_sample _)) (by simp)⟩
      · cases h

theorem factorOf_viable {signed : UnaryOp → Rule Expr} {parenthesized : Rule Expr}
    (hsigned : ∀ op, ViableFrom (IsSign · op) (signed op))
    (hparenthesized : ViableFrom (· = .leftParen) parenthesized) :
    Viable (factorOf signed parenthesized) IsFactor := by
  intro p q us i t x hp hv h
  rcases bind_eq_error h with h | ⟨u, p₁, hcurrent, h⟩
  · cases h
  cases hcurrent
  have hrefused : unexpected "expression" p =
      (.error (.unexpected t x) q : EStateM.Result _ _ Expr) →
      ∃ ts vs j, us = ts ++ vs ∧ q.At vs j ∧ q.current = t ∧ IsFactor.Begins ts i := by
    intro h
    cases h
    exact ⟨[], us, i, rfl, hp, rfl, IsFactor.begins i⟩
  cases us with
  | nil =>
      rw [hp.current_kind] at h
      exact hrefused h
  | cons u us =>
      rw [hp.current_eq] at h
      have hfrom : (∃ ts vs j, us = ts ++ vs ∧ q.At vs j ∧ q.current = t ∧
            IsFactor.Begins (u :: ts) i) →
          ∃ ts vs j, u :: us = ts ++ vs ∧ q.At vs j ∧ q.current = t ∧
          IsFactor.Begins ts i := by
        rintro ⟨ts, vs, j, rfl, hq, ht, hfactor⟩
        exact ⟨u :: ts, vs, j, rfl, hq, ht, hfactor⟩
      cases hk : u.kind <;> rw [hk] at h
      case plus => exact hfrom (hsigned .plus (by rw [hk]; exact .plus) hp hv.tail h)
      case minus => exact hfrom (hsigned .minus (by rw [hk]; exact .minus) hp hv.tail h)
      case leftParen => exact hfrom (hparenthesized hk hp hv.tail h)
      case integerLiteral =>
        exact absurd h (literal_ne_error hp hv (by rw [hk]; exact .integer))
      case realLiteral => exact absurd h (literal_ne_error hp hv (by rw [hk]; exact .real))
      case stringLiteral => exact absurd h (literal_ne_error hp hv (by rw [hk]; exact .string))
      case identifier =>
        rcases bind_eq_error h with h | ⟨v, p₁, -, h⟩
        · obtain ⟨hq, ht⟩ := variableUse_eq_error hp h
          exact ⟨[], u :: us, i, rfl, hq, ht, IsFactor.begins i⟩
        · cases h
      all_goals exact hrefused h

theorem factor_viable (n : Nat) : Viable (factor n) IsFactor := by
  induction n with
  | zero => exact factorOf_viable (fun _ => tooDeep_viableFrom _) (tooDeep_viableFrom _)
  | succ n ih =>
      exact factorOf_viable (signed_viableFrom ih)
        (parenthesized_viableFrom (exprOf_sound (factor_sound n))
          (exprOf_viable (factor_sound n) ih))

theorem expr_viable (n : Nat) : Viable (expr n) IsExpr :=
  exprOf_viable (factor_sound n) (factor_viable n)

/-! ### Statements -/

section Statements

variable {expr : Rule Expr}

theorem arguments_viable (hsound : Sound expr (IsExpr.Within n))
    (hviable : Viable expr IsExpr) :
    Viable (arguments expr) IsArguments := by
  intro p q us i t x hp hv h
  rcases bind_eq_error h with h | ⟨c, p₁, hc, h⟩
  · exact absurd h accept_ne_error
  rcases accept_eq_ok (by decide) hp hc with ⟨rfl, l, vs, rfl, hl, hp₁⟩ | ⟨rfl, -, -⟩
  · rcases bind_eq_error h with h | ⟨c, p₂, hc, h⟩
    · cases h
    obtain ⟨-, hp₂⟩ := check_eq_ok hp₁ hc
    cases c with
    | true =>
        rcases bind_eq_error h with h | ⟨args, p₃, hargs, h⟩
        · cases h
        obtain ⟨rfl, rfl⟩ := pure_eq_ok.mp hargs
        rcases bind_eq_error h with h | ⟨r, p₄, -, h⟩
        · obtain ⟨hq, ht⟩ := eat_eq_error hp₂ h
          exact ⟨[l], vs, i, rfl, hq, ht,
            .of [sample .rightParen] (Bracketed.empty hl rfl) rfl⟩
        · cases h
    | false =>
        rcases bind_eq_error h with h | ⟨args, p₃, hargs, h⟩
        · obtain ⟨ts, ws, j, rfl, hq, ht, xs, d, args, k, hargs⟩ :=
            separated_viable (by decide) hsound hviable hp₂ hv.tail h
          exact ⟨l :: ts, ws, j, rfl, hq, ht, .of (xs ++ [sample .rightParen])
            (Bracketed.list hl hargs (kind_sample _)) (by simp)⟩
        · obtain ⟨ts, ws, j, rfl, hp₃, d, -, hargs⟩ :=
            separated_sound (by decide) hsound hp₂ hargs
          rcases bind_eq_error h with h | ⟨r, p₄, -, h⟩
          · obtain ⟨hq, ht⟩ := eat_eq_error hp₃ h
            exact ⟨l :: ts, ws, j, rfl, hq, ht, .of [sample .rightParen]
              (Bracketed.list hl hargs (kind_sample _)) (by simp)⟩
          · cases h
  · cases h

theorem assignment_viable (hviable : Viable expr IsExpr) :
    Viable (assignment expr) IsStatement := by
  intro p q us i t x hp hv h
  rcases bind_eq_error h with h | ⟨_, p₁, hnote, h⟩
  · cases h
  have hp₁ := note_eq_ok hp hnote
  rcases bind_eq_error h with h | ⟨v, p₂, hname, h⟩
  · obtain ⟨hq, ht⟩ := variableUse_eq_error hp₁ h
    exact ⟨[], us, i, rfl, hq, ht, .of [] IsStatement.empty rfl⟩
  obtain ⟨u, vs, rfl, hu, rfl, hp₂⟩ := variableUse_eq_ok hp₁ hname
  rcases bind_eq_error h with h | ⟨a, p₃, ha, h⟩
  · obtain ⟨hq, ht⟩ := eat_eq_error hp₂ h
    obtain ⟨xs, d, e, k, he⟩ := IsExpr.begins (i + 1)
    exact ⟨[u], vs, _, rfl, hq, ht, .of (sample .assign :: xs)
      (IsStatement.assign hu rfl he) rfl⟩
  obtain ⟨ws, rfl, ha, hp₃⟩ := eat_eq_ok (by decide) hp₂ ha
  rcases bind_eq_error h with h | ⟨e, p₄, -, h⟩
  · obtain ⟨ts, ys, j, rfl, hq, ht, xs, d, e, k, he⟩ := hviable hp₃ hv.tail.tail h
    exact ⟨u :: a :: ts, ys, j, rfl, hq, ht, .of xs (IsStatement.assign hu ha he) rfl⟩
  · cases h

theorem call_viable (hsound : Sound expr (IsExpr.Within n)) (hviable : Viable expr IsExpr) :
    Viable (call expr) IsStatement := by
  intro p q us i t x hp hv h
  rcases bind_eq_error h with h | ⟨_, p₁, hnote, h⟩
  · cases h
  have hp₁ := note_eq_ok hp hnote
  rcases bind_eq_error h with h | ⟨name, p₂, hname, h⟩
  · obtain ⟨hq, ht⟩ := identifier_eq_error hp₁ h
    exact ⟨[], us, i, rfl, hq, ht, .of [] IsStatement.empty rfl⟩
  obtain ⟨u, vs, rfl, hu, rfl, hp₂⟩ := identifier_eq_ok hp₁ hname
  rcases bind_eq_error h with h | ⟨args, p₃, -, h⟩
  · obtain ⟨ts, ws, j, rfl, hq, ht, xs, d, args, k, hargs⟩ :=
      arguments_viable hsound hviable hp₂ hv.tail h
    exact ⟨u :: ts, ws, j, rfl, hq, ht, .of xs (IsStatement.call hu hargs) rfl⟩
  · cases h

theorem write_viable (hsound : Sound expr (IsExpr.Within n)) (hviable : Viable expr IsExpr)
    {p q : Parser} {us : List Token} {i : NodeId} {t : Token} {x : Option String}
    (hp : p.At us i) (hv : Valued us) (hu : headKind us = .write ∨ headKind us = .writeln)
    (h : write expr p = .error (.unexpected t x) q) :
    ∃ ts vs j, us = ts ++ vs ∧ q.At vs j ∧ q.current = t ∧ IsStatement.Begins ts i := by
  rcases bind_eq_error h with h | ⟨u, p₁, hadvance, h⟩
  · exact absurd h advance_ne_error
  have hend : headKind us ≠ .endOfText := by
    rcases hu with hu | hu <;> rw [hu] <;> decide
  obtain ⟨vs, rfl, hp₁⟩ := advance_eq_ok hp hend hadvance
  rcases bind_eq_error h with h | ⟨args, p₂, -, h⟩
  · obtain ⟨ts, ws, j, rfl, hq, ht, xs, d, args, k, hargs⟩ :=
      arguments_viable hsound hviable hp₁ hv.tail h
    exact ⟨u :: ts, ws, j, rfl, hq, ht,
      .of xs (IsStatement.write (isWrite_of_kind hu) hargs) rfl⟩
  · cases h

theorem statementOf_viable {compound : Rule (List Statement)}
    (hcompound : Viable compound IsCompound) (hsound : Sound expr (IsExpr.Within n))
    (hviable : Viable expr IsExpr) :
    Viable (statementOf compound expr) IsStatement := by
  intro p q us i t x hp hv h
  rcases bind_eq_error h with h | ⟨u, p₁, hcurrent, h⟩
  · cases h
  cases hcurrent
  rw [hp.current_kind] at h
  cases hk : headKind us <;> rw [hk] at h
  case beginBlock =>
    rcases bind_eq_error h with h | ⟨body, p₁, -, h⟩
    · obtain ⟨ts, vs, j, rfl, hq, ht, xs, d, body, k, hbody⟩ := hcompound hp hv h
      exact ⟨ts, vs, j, rfl, hq, ht, .of xs (IsStatement.compound hbody) rfl⟩
    · cases h
  case identifier =>
    obtain ⟨k, hpeek⟩ := exists_peekKind p
    rcases bind_eq_error h with h | ⟨k', p₁, hpeek', h⟩
    · rw [hpeek] at h
      cases h
    rw [hpeek] at hpeek'
    cases hpeek'
    split at h
    · exact assignment_viable hviable hp hv h
    · rcases bind_eq_error h with h | ⟨c, p₁, -, h⟩
      · exact call_viable hsound hviable hp hv h
      · cases h
  case write => exact write_viable hsound hviable hp hv (.inl hk) h
  case writeln => exact write_viable hsound hviable hp hv (.inr hk) h
  all_goals cases h

end Statements

theorem compound_viable (n : Nat) : Viable (compound n) IsCompound := by
  induction n with
  | zero =>
      intro p q us i t x _ _ h
      cases h
  | succ n ih =>
      intro p q us i t x hp hv h
      rcases bind_eq_error h with h | ⟨_, p₁, hnote, h⟩
      · cases h
      have hp₁ := note_eq_ok hp hnote
      rcases bind_eq_error h with h | ⟨b, p₂, hb, h⟩
      · obtain ⟨hq, ht⟩ := eat_eq_error hp₁ h
        exact ⟨[], us, i, rfl, hq, ht, IsCompound.begins i⟩
      obtain ⟨vs, rfl, hb, hp₂⟩ := eat_eq_ok (by decide) hp₁ hb
      have hsound := statementOf_sound (compound_sound n) (expr_sound n)
      rcases bind_eq_error h with h | ⟨body, p₃, hbody, h⟩
      · obtain ⟨ts, ws, j, rfl, hq, ht, xs, d, body, k, hbody⟩ :=
          separated_viable (by decide) hsound
            (statementOf_viable ih (expr_sound n) (expr_viable n)) hp₂ hv.tail h
        exact ⟨b :: ts, ws, j, rfl, hq, ht, .of (xs ++ [sample .endBlock])
          (IsCompound.mk hb hbody (kind_sample _)) (by simp)⟩
      obtain ⟨ts, ws, j, rfl, hp₃, d, -, hbody⟩ := separated_sound (by decide) hsound hp₂ hbody
      rcases bind_eq_error h with h | ⟨e, p₄, -, h⟩
      · obtain ⟨hq, ht⟩ := eat_eq_error hp₃ h
        exact ⟨b :: ts, ws, j, rfl, hq, ht, .of [sample .endBlock]
          (IsCompound.mk hb hbody (kind_sample _)) (by simp)⟩
      · cases h

/-! ### Declarations -/

theorem identifier_viable : Viable identifier IsName := by
  intro p q us i t x hp _ h
  obtain ⟨hq, ht⟩ := identifier_eq_error hp h
  exact ⟨[], us, i, rfl, hq, ht, .of [sample .identifier] (IsName.mk rfl) rfl⟩

theorem variableGroup_viable : Viable variableGroup IsGroup := by
  intro p q us i t x hp hv h
  have hsound : Sound identifier (IsName.Within 0) := identifier_sound
  rcases bind_eq_error h with h | ⟨names, p₁, hnames, h⟩
  · obtain ⟨ts, vs, j, rfl, hq, ht, xs, d, names, k, hnames⟩ :=
      separated_viable (by decide) hsound identifier_viable hp hv h
    exact ⟨ts, vs, j, rfl, hq, ht, .of (xs ++ [sample .colon, sample .integer])
      (IsGroup.mk (t := sample .integer) hnames (kind_sample _) .integer) (by simp)⟩
  obtain ⟨ts, vs, j, rfl, hp₁, d, -, hnames⟩ := separated_sound (by decide) hsound hp hnames
  rcases bind_eq_error h with h | ⟨c, p₂, hc, h⟩
  · obtain ⟨hq, ht⟩ := eat_eq_error hp₁ h
    exact ⟨ts, vs, j, rfl, hq, ht, .of [sample .colon, sample .integer]
      (IsGroup.mk hnames rfl .integer) rfl⟩
  obtain ⟨ws, rfl, hc, hp₂⟩ := eat_eq_ok (by decide) hp₁ hc
  rcases bind_eq_error h with h | ⟨type, p₃, -, h⟩
  · obtain ⟨hq, ht⟩ := typeName_eq_error hp₂ h
    exact ⟨ts ++ [c], ws, j, by simp, hq, ht, .of [sample .integer]
      (IsGroup.mk (t := sample .integer) hnames hc .integer) (by simp)⟩
  · cases h

theorem line_viable :
    Viable (do let decls ← variableGroup; let _ ← eat .semicolon; return decls) IsLine := by
  intro p q us i t x hp hv h
  have hsound : Sound variableGroup (IsGroup.Within 0) := variableGroup_sound
  rcases bind_eq_error h with h | ⟨decls, p₁, hdecls, h⟩
  · obtain ⟨ts, vs, j, rfl, hq, ht, xs, d, decls, k, hdecls⟩ := variableGroup_viable hp hv h
    exact ⟨ts, vs, j, rfl, hq, ht, .of (xs ++ [sample .semicolon])
      (IsLine.mk hdecls (kind_sample _)) (by simp)⟩
  obtain ⟨ts, vs, j, rfl, hp₁, d, -, hdecls⟩ := hsound hp hdecls
  rcases bind_eq_error h with h | ⟨s, p₂, -, h⟩
  · obtain ⟨hq, ht⟩ := eat_eq_error hp₁ h
    exact ⟨ts, vs, j, rfl, hq, ht, .of [sample .semicolon] (IsLine.mk hdecls rfl) rfl⟩
  · cases h

theorem checked_viable {kind : Token.Kind} {item : Rule α} {Item : Judgment α}
    (hitem : Viable item Item) :
    Viable (do if ← check kind then return some (← item) else return none) Item := by
  intro p q us i t x hp hv h
  rcases bind_eq_error h with h | ⟨c, p₁, hc, h⟩
  · cases h
  obtain ⟨-, hp₁⟩ := check_eq_ok hp hc
  cases c with
  | true =>
      rcases bind_eq_error h with h | ⟨a, p₂, -, h⟩
      · exact hitem hp₁ hv h
      · cases h
  | false => cases h

theorem sections_viable :
    Viable (do if ← accept .var then return some (← variableSection) else return none)
      IsSection := by
  intro p q us i t x hp hv h
  have hsound : Sound (do let decls ← variableGroup; let _ ← eat .semicolon; return decls)
    (IsLine.Within 0) := line_sound
  rcases bind_eq_error h with h | ⟨c, p₁, hc, h⟩
  · exact absurd h accept_ne_error
  rcases accept_eq_ok (by decide) hp hc with ⟨rfl, w, vs, rfl, hw, hp₁⟩ | ⟨rfl, -, -⟩
  · rcases bind_eq_error h with h | ⟨decls, p₂, -, h⟩
    · rcases bind_eq_error h with h | ⟨first, p₃, hfirst, h⟩
      · obtain ⟨ts, ws, j, rfl, hq, ht, xs, d, first, k, hfirst⟩ := line_viable hp₁ hv.tail h
        exact ⟨w :: ts, ws, j, rfl, hq, ht, .of xs (IsSection.mk hw hfirst .nil) (by simp)⟩
      obtain ⟨ts, ws, j, rfl, hp₃, d, -, hfirst⟩ := hsound hp₁ hfirst
      rcases bind_eq_error h with h | ⟨others, p₄, -, h⟩
      · obtain ⟨ts', ys, k, rfl, hq, ht, xs, d', others, l, hothers⟩ :=
          collect_viable (checked_sound hsound) (checked_viable line_viable) hp₃
            hv.tail.right h
        exact ⟨w :: (ts ++ ts'), ys, k, by simp, hq, ht,
          .of xs (IsSection.mk hw hfirst hothers) (by simp)⟩
      · cases h
    · cases h
  · cases h

/-- A procedure with its name, its parameters and some block. -/
theorem IsProcedure.begins_of_params {d : Nat} {w u : Token} {ts : List Token} {i j : NodeId}
    {groups : List (List VarDecl)} (hw : w.kind = .procedure) (hu : u.kind = .identifier)
    (hparams : IsParams d ts i groups j) : IsProcedure.Begins (w :: u :: ts) i := by
  obtain ⟨xs, d', b, k, hb⟩ := IsBlock.begins j
  exact .of (sample .semicolon :: (xs ++ [sample .semicolon]))
    (IsProcedure.mk hw hu hparams rfl hb rfl) rfl

/-- However the parameters were given, the rest of a procedure is read in the same way. -/
theorem procedureRest_viable {block : Rule Block} (hsound : Sound block (IsBlock.Within n))
    (hviable : Viable block IsBlock) {r q : Parser} {w u t : Token} {x : Option String}
    {ts ys ws : List Token} {i j : NodeId} {d : Nat} {groups : List (List VarDecl)}
    (hw : w.kind = .procedure) (hu : u.kind = .identifier) (hv : Valued ws)
    (hws : ws = ts ++ ys) (hparams : IsParams d ts i groups j) (hr : r.At ys j)
    (h : (do
      let _ ← eat .semicolon
      let block ← block
      let _ ← eat .semicolon
      return .mk u.word u.position groups.flatten block : Rule Procedure) r =
        .error (.unexpected t x) q) :
    ∃ ts vs j, w :: u :: ws = ts ++ vs ∧ q.At vs j ∧ q.current = t ∧
    IsProcedure.Begins ts i := by
  rcases bind_eq_error h with h | ⟨s, r₁, hs, h⟩
  · obtain ⟨hq, ht⟩ := eat_eq_error hr h
    exact ⟨w :: u :: ts, ys, j, by simp [hws], hq, ht,
      IsProcedure.begins_of_params hw hu hparams⟩
  obtain ⟨zs, rfl, hs, hr₁⟩ := eat_eq_ok (by decide) hr hs
  have hzs : Valued zs := by
    rw [hws] at hv
    exact hv.right.tail
  rcases bind_eq_error h with h | ⟨b, r₂, hb, h⟩
  · obtain ⟨us, rest, k, rfl, hq, ht, xs, d', b, l, hb⟩ := hviable hr₁ hzs h
    exact ⟨w :: u :: (ts ++ s :: us), rest, k, by simp [hws], hq, ht,
      .of (xs ++ [sample .semicolon])
        (IsProcedure.mk hw hu hparams hs hb (kind_sample _)) (by simp)⟩
  obtain ⟨us, rest, k, rfl, hr₂, d', -, hb⟩ := hsound hr₁ hb
  rcases bind_eq_error h with h | ⟨s', r₃, -, h⟩
  · obtain ⟨hq, ht⟩ := eat_eq_error hr₂ h
    exact ⟨w :: u :: (ts ++ s :: us), rest, k, by simp [hws], hq, ht,
      .of [sample .semicolon] (IsProcedure.mk hw hu hparams hs hb (kind_sample _)) (by simp)⟩
  · cases h

theorem procedureOf_viable {block : Rule Block} (hsound : Sound block (IsBlock.Within n))
    (hviable : Viable block IsBlock) : Viable (procedureOf block) IsProcedure := by
  intro p q us i t x hp hv h
  rcases bind_eq_error h with h | ⟨_, p₁, hnote, h⟩
  · cases h
  have hp₁ := note_eq_ok hp hnote
  rcases bind_eq_error h with h | ⟨w, p₂, hw, h⟩
  · obtain ⟨hq, ht⟩ := eat_eq_error hp₁ h
    obtain ⟨xs, hbegins⟩ := IsProcedure.begins_of_params (w := sample .procedure)
      (u := sample .identifier) (i := i) rfl rfl .absent
    exact ⟨[], us, i, rfl, hq, ht, _, hbegins⟩
  obtain ⟨vs, rfl, hw, hp₂⟩ := eat_eq_ok (by decide) hp₁ hw
  rcases bind_eq_error h with h | ⟨name, p₃, hname, h⟩
  · obtain ⟨hq, ht⟩ := identifier_eq_error hp₂ h
    obtain ⟨xs, hbegins⟩ :=
      IsProcedure.begins_of_params (u := sample .identifier) (i := i) hw rfl .absent
    exact ⟨[w], vs, i, rfl, hq, ht, _, hbegins⟩
  obtain ⟨u, ws, rfl, hu, rfl, hp₃⟩ := identifier_eq_ok hp₂ hname
  rcases bind_eq_error h with h | ⟨c, p₄, hc, h⟩
  · exact absurd h accept_ne_error
  rcases accept_eq_ok (by decide) hp₃ hc with ⟨rfl, l, ys, rfl, hl, hp₄⟩ | ⟨rfl, -, hp₄⟩
  · rcases bind_eq_error h with h | ⟨c, p₅, hc, h⟩
    · cases h
    obtain ⟨-, hp₅⟩ := check_eq_ok hp₄ hc
    cases c with
    | true =>
        have hgroup : Sound variableGroup (IsGroup.Within 0) := variableGroup_sound
        rcases bind_eq_error h with h | ⟨params, p₆, hparams, h⟩
        · rcases bind_eq_error h with h | ⟨groups, p₇, -, h⟩
          · obtain ⟨ts, zs, j, rfl, hq, ht, xs, d, groups, k, hgroups⟩ :=
              separated_viable (by decide) hgroup variableGroup_viable hp₅ hv.tail.tail.tail h
            obtain ⟨xs', hbegins⟩ := IsProcedure.begins_of_params hw hu
              (.list (r := sample .rightParen) hl hgroups rfl)
            refine ⟨w :: u :: l :: ts, zs, j, rfl, hq, ht,
              xs ++ (sample .rightParen :: xs'), ?_⟩
            simpa using hbegins
          · cases h
        obtain ⟨groups, p₇, hgroups, hparams⟩ := bind_eq_ok.mp hparams
        obtain ⟨rfl, rfl⟩ := pure_eq_ok.mp hparams
        obtain ⟨ts, zs, j, rfl, hp₆, d, -, hgroups⟩ :=
          separated_sound (by decide) hgroup hp₅ hgroups
        rcases bind_eq_error h with h | ⟨r, p₈, hr, h⟩
        · obtain ⟨hq, ht⟩ := eat_eq_error hp₆ h
          obtain ⟨xs', hbegins⟩ := IsProcedure.begins_of_params hw hu
            (.list (r := sample .rightParen) hl hgroups rfl)
          refine ⟨w :: u :: l :: ts, zs, j, rfl, hq, ht, sample .rightParen :: xs', ?_⟩
          simpa using hbegins
        obtain ⟨zs, rfl, hr, hp₈⟩ := eat_eq_ok (by decide) hp₆ hr
        exact procedureRest_viable hsound hviable hw hu hv.tail.tail (by simp)
          (.list hl hgroups hr) hp₈ h
    | false =>
        rcases bind_eq_error h with h | ⟨params, p₆, hparams, h⟩
        · cases h
        obtain ⟨rfl, rfl⟩ := pure_eq_ok.mp hparams
        rcases bind_eq_error h with h | ⟨r, p₇, hr, h⟩
        · obtain ⟨hq, ht⟩ := eat_eq_error hp₅ h
          obtain ⟨xs', hbegins⟩ := IsProcedure.begins_of_params (i := i) hw hu
            (.empty (r := sample .rightParen) hl rfl)
          exact ⟨[w, u, l], ys, i, rfl, hq, ht, sample .rightParen :: xs', hbegins⟩
        obtain ⟨zs, rfl, hr, hp₇⟩ := eat_eq_ok (by decide) hp₅ hr
        exact procedureRest_viable hsound hviable hw hu hv.tail.tail rfl (.empty hl hr) hp₇ h
  · exact procedureRest_viable hsound hviable hw hu hv.tail.tail rfl .absent hp₄ h

theorem block_viable (n : Nat) : Viable (block n) IsBlock := by
  induction n with
  | zero =>
      intro p q us i t x _ _ h
      cases h
  | succ n ih =>
      intro p q us i t x hp hv h
      have hsections :
          SoundStep (do if ← accept .var then return some (← variableSection) else return none)
          (IsSection.Within 0) := sections_sound
      have hprocedures : SoundStep
          (do
            if ← check .procedure then return some (← procedureOf (block n)) else return none)
          (IsProcedure.Within n) := checked_sound (procedureOf_sound (block_sound n))
      rcases bind_eq_error h with h | ⟨r, p₁, hr, h⟩
      · rcases bind_eq_error h with h | ⟨_, p₂, hnote, h⟩
        · cases h
        have hp₂ := note_eq_ok hp hnote
        rcases bind_eq_error h with h | ⟨sections, p₃, hread, h⟩
        · obtain ⟨ts, vs, j, rfl, hq, ht, xs, d, sections, k, hderived⟩ :=
            collect_viable hsections sections_viable hp₂ hv h
          obtain ⟨ys, d', body, l, hbody⟩ := IsCompound.begins k
          exact ⟨ts, vs, j, rfl, hq, ht,
            .of (xs ++ ys) (IsBlock.mk hderived .nil hbody) (by simp)⟩
        obtain ⟨ts, vs, j, rfl, hp₃, d, -, hderived⟩ := collect_sound hsections hp₂ hread
        rcases bind_eq_error h with h | ⟨procedures, p₄, -, h⟩
        · obtain ⟨ts', ws, k, rfl, hq, ht, xs, d', procedures, l, hderived'⟩ :=
            collect_viable hprocedures
              (checked_viable (procedureOf_viable (block_sound n) ih)) hp₃
              hv.right h
          obtain ⟨ys, d'', body, l', hbody⟩ := IsCompound.begins l
          exact ⟨ts ++ ts', ws, k, by simp, hq, ht,
            .of (xs ++ ys) (IsBlock.mk hderived hderived' hbody) (by simp)⟩
        · cases h
      obtain ⟨sections, ts, ts', vs, j, k, -, rfl, hp₁, ⟨d, -, hderived⟩, d', -, hderived'⟩ :=
        declarationsOf_eq_ok (block_sound n) hp hr
      rcases bind_eq_error h with h | ⟨body, p₂, -, h⟩
      · obtain ⟨us, ws, l, rfl, hq, ht, xs, d'', body, l', hbody⟩ :=
          compound_viable n hp₁ hv.right.right h
        exact ⟨ts ++ (ts' ++ us), ws, l, by simp, hq, ht,
          .of xs (IsBlock.mk hderived hderived' hbody) (by simp)⟩
      · cases h

theorem program_viable {n : Nat} {p q : Parser} {us : List Token} {t : Token}
    {x : Option String} (hp : p.At us 0) (hv : Valued us)
    (h : program n p = .error (.unexpected t x) q) :
    ∃ ts vs j, us = ts ++ vs ∧ q.At vs j ∧ q.current = t ∧ BeginsProgram ts := by
  rcases bind_eq_error h with h | ⟨_, p₁, hnote, h⟩
  · cases h
  have hp₁ := note_eq_ok hp hnote
  obtain ⟨xs, d, b, j, hb⟩ := IsBlock.begins 0
  have hprogram (w u s : Token) (hw : w.kind = .program) (hu : u.kind = .identifier)
      (hs : s.kind = .semicolon) : IsProgram d (w :: u :: s :: (xs ++ [sample .dot])) _ :=
    .mk hw hu hs hb rfl
  rcases bind_eq_error h with h | ⟨w, p₂, hw, h⟩
  · obtain ⟨hq, ht⟩ := eat_eq_error hp₁ h
    exact ⟨[], us, 0, rfl, hq, ht, .of _ (hprogram (sample .program) (sample .identifier)
      (sample .semicolon) rfl rfl rfl) rfl⟩
  obtain ⟨vs, rfl, hw, hp₂⟩ := eat_eq_ok (by decide) hp₁ hw
  rcases bind_eq_error h with h | ⟨name, p₃, hname, h⟩
  · obtain ⟨hq, ht⟩ := identifier_eq_error hp₂ h
    exact ⟨[w], vs, 0, rfl, hq, ht, .of _ (hprogram w (sample .identifier) (sample .semicolon)
      hw rfl rfl) rfl⟩
  obtain ⟨u, ws, rfl, hu, rfl, hp₃⟩ := identifier_eq_ok hp₂ hname
  rcases bind_eq_error h with h | ⟨s, p₄, hs, h⟩
  · obtain ⟨hq, ht⟩ := eat_eq_error hp₃ h
    exact ⟨[w, u], ws, 0, rfl, hq, ht, .of _ (hprogram w u (sample .semicolon) hw hu rfl) rfl⟩
  obtain ⟨ys, rfl, hs, hp₄⟩ := eat_eq_ok (by decide) hp₃ hs
  rcases bind_eq_error h with h | ⟨b, p₅, hb, h⟩
  · obtain ⟨ts, zs, j, rfl, hq, ht, xs, d, b, k, hb⟩ := block_viable n hp₄ hv.tail.tail.tail h
    exact ⟨w :: u :: s :: ts, zs, j, rfl, hq, ht, .of (xs ++ [sample .dot])
      (.mk hw hu hs hb (kind_sample _)) (by simp)⟩
  obtain ⟨ts, zs, j, rfl, hp₅, d, -, hb⟩ := block_sound n hp₄ hb
  rcases bind_eq_error h with h | ⟨e, p₆, -, h⟩
  · obtain ⟨hq, ht⟩ := eat_eq_error hp₅ h
    exact ⟨w :: u :: s :: ts, zs, j, rfl, hq, ht, .of [sample .dot]
      (.mk hw hu hs hb (kind_sample _)) rfl⟩
  · cases h

/-- What has been read when a token is refused is the beginning of a program. -/
theorem wholeProgram_viable {n : Nat} {p q : Parser} {us : List Token} {t : Token}
    {x : Option String} (hp : p.At us 0) (hv : Valued us)
    (h : wholeProgram n p = .error (.unexpected t x) q) :
    ∃ ts vs j, us = ts ++ vs ∧ q.At vs j ∧ q.current = t ∧ BeginsProgram ts := by
  rcases bind_eq_error h with h | ⟨_, p₁, hnote, h⟩
  · cases h
  have hp₁ := note_eq_ok hp hnote
  rcases bind_eq_error h with h | ⟨program, p₂, hprogram, h⟩
  · exact program_viable hp₁ hv h
  obtain ⟨ts, vs, j, rfl, hp₂, d, -, hderived⟩ := program_eq_ok hp₁ hprogram
  rcases bind_eq_error h with h | ⟨e, p₃, -, h⟩
  · obtain ⟨hq, ht⟩ := eat_eq_error hp₂ h
    exact ⟨ts, vs, j, rfl, hq, ht, .of [] hderived (by simp)⟩
  · cases h

end Rule

end MiniPascal

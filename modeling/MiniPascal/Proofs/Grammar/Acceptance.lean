import Mathlib.Data.List.Forall2
import Mathlib.Data.List.TakeWhile
import MiniPascal.Proofs.Grammar.Completeness
import MiniPascal.Proofs.Grammar.Soundness

/-!
The parser accepts exactly the programs of the grammar, and answers with the derived tree.

The grammar is one of kinds: whether tokens derive a program depends on their kinds alone, as
long as every literal has a value. `Derivable` is the language of kinds, and the second section
shows that any tokens of these kinds will do.
-/

namespace MiniPascal

namespace Grammar

/-- Some tokens of these kinds derive a program, with `d` levels open at once. -/
def Derivable (d : Nat) (kinds : List Token.Kind) : Prop :=
  ∃ ts program, ts.map Token.kind = kinds ∧ IsProgram d ts program

/-! ### Kinds decide -/

/-- Tokens `ts` of the same kinds as `us`, with values for the literals among them. -/
def Alike (ts us : List Token) : Prop :=
  List.Forall₂ (fun t u => t.kind = u.kind ∧ (IsLiteral t.kind → t.value.isSome)) ts us

theorem Alike.exists_append {xs ts us : List Token} (h : Alike xs (ts ++ us)) :
    ∃ ts' us', xs = ts' ++ us' ∧ Alike ts' ts ∧ Alike us' us :=
  ⟨xs.take ts.length, xs.drop ts.length, (List.take_append_drop ..).symm,
    List.forall₂_take_append xs ts us h, List.forall₂_drop_append xs ts us h⟩

theorem Alike.exists_cons {xs us : List Token} {u : Token} (h : Alike xs (u :: us)) :
    ∃ t ts, xs = t :: ts ∧ t.kind = u.kind ∧ (IsLiteral t.kind → t.value.isSome) ∧
    Alike ts us := by
  obtain ⟨t, ts, ⟨hkind, hvalue⟩, hts, rfl⟩ := List.forall₂_cons_right_iff.mp h
  exact ⟨t, ts, rfl, hkind, hvalue, hts⟩

theorem Alike.exists_concat {xs us : List Token} {u : Token} (h : Alike xs (us ++ [u])) :
    ∃ ts t, xs = ts ++ [t] ∧ t.kind = u.kind ∧ Alike ts us := by
  obtain ⟨ts, xs', rfl, hts, h⟩ := h.exists_append
  obtain ⟨t, ts', rfl, hkind, -, h⟩ := h.exists_cons
  obtain rfl := List.forall₂_nil_right_iff.mp h
  exact ⟨ts, t, rfl, hkind, hts⟩

theorem Alike.eq_nil {xs : List Token} (h : Alike xs []) : xs = [] :=
  List.forall₂_nil_right_iff.mp h

theorem alike_of_map_kind {xs ts : List Token} (h : xs.map Token.kind = ts.map Token.kind)
    (hvalues : ∀ t ∈ xs, IsLiteral t.kind → t.value.isSome) : Alike xs ts := by
  induction xs generalizing ts with
  | nil =>
      obtain rfl := List.map_eq_nil_iff.mp h.symm
      exact .nil
  | cons x xs ih =>
      obtain ⟨t, ts, rfl, hkind, hkinds⟩ := List.map_eq_cons_iff.mp h.symm
      have hx := hvalues x List.mem_cons_self
      exact .cons ⟨hkind.symm, hx⟩
        (ih hkinds.symm fun t ht => hvalues t (List.mem_cons_of_mem _ ht))

/-- Whatever the judgment derives with at most `n` levels, it derives something of the same
depth from all tokens alike, whatever number is next. -/
def OfKinds {α : Type} (D : Judgment α) (n : Nat) : Prop :=
  ∀ ⦃d ts i a j⦄, D d ts i a j → d ≤ n → ∀ ⦃xs⦄, Alike xs ts → ∀ i', ∃ a' j', D d xs i' a' j'

variable {α : Type} {n : Nat}

theorem Many.ofKinds {Item : Judgment α} (hitem : OfKinds Item n) : OfKinds (Many Item) n := by
  intro d ts i as j h hd
  induction h with
  | nil =>
      intro xs hxs i'
      obtain rfl := hxs.eq_nil
      exact ⟨[], i', .nil⟩
  | cons ha _ ih =>
      intro xs hxs i'
      obtain ⟨hd, hd'⟩ := Nat.max_le.mp hd
      obtain ⟨ts', us', rfl, hts, hus⟩ := hxs.exists_append
      obtain ⟨a', j', ha'⟩ := hitem ha hd hts i'
      obtain ⟨as', k', has'⟩ := ih hd' hus j'
      exact ⟨a' :: as', k', .cons ha' has'⟩

theorem Separated.ofKinds {sep : Token.Kind} {Item : Judgment α} (hitem : OfKinds Item n) :
    OfKinds (Separated sep Item) n := by
  have hpreceded : OfKinds (Preceded sep Item) n := by
    rintro d _ i a j ⟨ht, ha⟩ hd xs hxs i'
    obtain ⟨t, ts', rfl, hkind, -, hts⟩ := hxs.exists_cons
    obtain ⟨a', j', ha'⟩ := hitem ha hd hts i'
    exact ⟨a', j', .mk (hkind.trans ht) ha'⟩
  rintro d _ i as j ⟨ha, has⟩ hd xs hxs i'
  obtain ⟨hd, hd'⟩ := Nat.max_le.mp hd
  obtain ⟨ts', us', rfl, hts, hus⟩ := hxs.exists_append
  obtain ⟨a', j', ha'⟩ := hitem ha hd hts i'
  obtain ⟨as', k', has'⟩ := Many.ofKinds hpreceded has hd' hus j'
  exact ⟨a' :: as', k', .mk ha' has'⟩

theorem Bracketed.ofKinds {Items : Judgment (List α)} (hitems : OfKinds Items n) :
    OfKinds (Bracketed Items) n := by
  intro d ts i as j h hd xs hxs i'
  cases h with
  | absent =>
      obtain rfl := hxs.eq_nil
      exact ⟨[], i', .absent⟩
  | empty hl hr =>
      obtain ⟨l', xs', rfl, hkind, -, hxs⟩ := hxs.exists_cons
      obtain ⟨r', xs', rfl, hkind', -, hxs⟩ := hxs.exists_cons
      obtain rfl := hxs.eq_nil
      exact ⟨[], i', .empty (hkind.trans hl) (hkind'.trans hr)⟩
  | list hl has hr =>
      obtain ⟨l', xs', rfl, hkind, -, hxs⟩ := hxs.exists_cons
      obtain ⟨ts', r', rfl, hkind', hts⟩ := hxs.exists_concat
      obtain ⟨as', j', has'⟩ := hitems has hd hts i'
      exact ⟨as', j', .list (hkind.trans hl) has' (hkind'.trans hr)⟩

theorem Chain.ofKinds {Op : Token.Kind → BinaryOp → Prop} {Operand : Judgment Expr}
    (hoperand : OfKinds Operand n) : OfKinds (Chain Op Operand) n := by
  intro d ts i e j h hd
  induction h with
  | one he =>
      intro xs hxs i'
      obtain ⟨e', j', he'⟩ := hoperand he hd hxs i'
      exact ⟨e', j', .one he'⟩
  | more _ ht hright ih =>
      intro xs hxs i'
      obtain ⟨hd, hd'⟩ := Nat.max_le.mp hd
      obtain ⟨ts', xs', rfl, hts, hxs⟩ := hxs.exists_append
      obtain ⟨t', us', rfl, hkind, -, hus⟩ := hxs.exists_cons
      obtain ⟨left', j', hleft'⟩ := ih hd hts i'
      obtain ⟨right', k', hright'⟩ := hoperand hright hd' hus j'
      exact ⟨_, k', .more hleft' (hkind ▸ ht) hright'⟩

theorem IsFactor.ofKinds (n : Nat) : OfKinds IsFactor n := by
  induction n with
  | zero =>
      intro d ts i e j h hd xs hxs i'
      cases h with
      | signed _ _ => cases hd
      | parenthesized _ _ _ => cases hd
      | literal ht _ =>
          obtain ⟨t, ts', rfl, hkind, hvalue, hnil⟩ := hxs.exists_cons
          obtain rfl := hnil.eq_nil
          rw [← hkind] at ht
          obtain ⟨v, hv⟩ := Option.isSome_iff_exists.mp (hvalue ht)
          exact ⟨_, i', .literal ht hv⟩
      | var ht =>
          obtain ⟨t, ts', rfl, hkind, -, hnil⟩ := hxs.exists_cons
          obtain rfl := hnil.eq_nil
          exact ⟨_, i' + 1, .var (hkind.trans ht)⟩
  | succ n ih =>
      intro d ts i e j h hd xs hxs i'
      cases h with
      | literal ht hv => exact ih (.literal (i := i) ht hv) (Nat.zero_le n) hxs i'
      | var ht => exact ih (.var (i := i) ht) (Nat.zero_le n) hxs i'
      | signed ht he =>
          obtain ⟨t, ts', rfl, hkind, -, hts⟩ := hxs.exists_cons
          obtain ⟨e', j', he'⟩ := ih he (Nat.le_of_succ_le_succ hd) hts i'
          exact ⟨_, j', .signed (hkind ▸ ht) he'⟩
      | parenthesized hl he hr =>
          obtain ⟨l', xs', rfl, hkind, -, hxs⟩ := hxs.exists_cons
          obtain ⟨ts', r', rfl, hkind', hts⟩ := hxs.exists_concat
          obtain ⟨e', j', he'⟩ :=
            Chain.ofKinds (Chain.ofKinds ih) he (Nat.le_of_succ_le_succ hd) hts i'
          exact ⟨e', j', .parenthesized (hkind.trans hl) he' (hkind'.trans hr)⟩

theorem IsExpr.ofKinds (n : Nat) : OfKinds IsExpr n :=
  Chain.ofKinds (Chain.ofKinds (IsFactor.ofKinds n))

theorem IsArguments.ofKinds (n : Nat) : OfKinds IsArguments n :=
  Bracketed.ofKinds (Separated.ofKinds (IsExpr.ofKinds n))

theorem IsStatement.ofKinds {n : Nat} (hcompound : OfKinds IsCompound n) :
    OfKinds IsStatement n := by
  intro d ts i s j h hd xs hxs i'
  cases h with
  | compound hbody =>
      obtain ⟨body', j', hbody'⟩ := hcompound hbody hd hxs i'
      exact ⟨_, j', .compound hbody'⟩
  | assign ht ha he =>
      obtain ⟨t', xs', rfl, hkind, -, hxs⟩ := hxs.exists_cons
      obtain ⟨a', ts', rfl, hkind', -, hts⟩ := hxs.exists_cons
      obtain ⟨e', j', he'⟩ := IsExpr.ofKinds n he hd hts (i' + 1)
      exact ⟨_, j', .assign (hkind.trans ht) (hkind'.trans ha) he'⟩
  | call ht hargs =>
      obtain ⟨t', ts', rfl, hkind, -, hts⟩ := hxs.exists_cons
      obtain ⟨args', j', hargs'⟩ := IsArguments.ofKinds n hargs hd hts i'
      exact ⟨_, j' + 1, .call (hkind.trans ht) hargs'⟩
  | write ht hargs =>
      obtain ⟨t', ts', rfl, hkind, -, hts⟩ := hxs.exists_cons
      obtain ⟨args', j', hargs'⟩ := IsArguments.ofKinds n hargs hd hts i'
      exact ⟨_, j', .write (hkind ▸ ht) hargs'⟩
  | empty =>
      obtain rfl := hxs.eq_nil
      exact ⟨_, i', .empty⟩

theorem IsCompound.ofKinds (n : Nat) : OfKinds IsCompound n := by
  induction n with
  | zero =>
      rintro d _ i body j ⟨_, _, _⟩ hd
      cases hd
  | succ n ih =>
      rintro d _ i body j ⟨hb, hbody, he⟩ hd xs hxs i'
      obtain ⟨b', xs', rfl, hkind, -, hxs⟩ := hxs.exists_cons
      obtain ⟨ts', e', rfl, hkind', hts⟩ := hxs.exists_concat
      obtain ⟨body', j', hbody'⟩ := Separated.ofKinds (IsStatement.ofKinds ih) hbody
        (Nat.le_of_succ_le_succ hd) hts i'
      exact ⟨body', j', .mk (hkind.trans hb) hbody' (hkind'.trans he)⟩

theorem IsGroup.ofKinds (n : Nat) : OfKinds IsGroup n := by
  have hname : OfKinds IsName n := by
    rintro d _ i name j ⟨ht⟩ hd xs hxs i'
    obtain ⟨t', xs', rfl, hkind, -, hnil⟩ := hxs.exists_cons
    obtain rfl := hnil.eq_nil
    exact ⟨_, i', .mk (hkind.trans ht)⟩
  rintro d _ i decls j ⟨hnames, hc, ht⟩ hd xs hxs i'
  obtain ⟨ts', xs', rfl, hts, hxs⟩ := hxs.exists_append
  obtain ⟨c', xs'', rfl, hkind, -, hxs⟩ := hxs.exists_cons
  obtain ⟨t', xs''', rfl, hkind', -, hnil⟩ := hxs.exists_cons
  obtain rfl := hnil.eq_nil
  obtain ⟨names', j', hnames'⟩ := Separated.ofKinds hname hnames hd hts i'
  exact ⟨_, j', .mk hnames' (hkind.trans hc) (hkind' ▸ ht)⟩

theorem IsSection.ofKinds (n : Nat) : OfKinds IsSection n := by
  have hline : OfKinds IsLine n := by
    rintro d _ i decls j ⟨hdecls, hs⟩ hd xs hxs i'
    obtain ⟨ts', s', rfl, hkind, hts⟩ := hxs.exists_concat
    obtain ⟨decls', j', hdecls'⟩ := IsGroup.ofKinds n hdecls hd hts i'
    exact ⟨decls', j', .mk hdecls' (hkind.trans hs)⟩
  rintro d _ i decls j ⟨hv, hfirst, hothers⟩ hd xs hxs i'
  obtain ⟨hd, hd'⟩ := Nat.max_le.mp hd
  obtain ⟨v', xs', rfl, hkind, -, hxs⟩ := hxs.exists_cons
  obtain ⟨ts', us', rfl, hts, hus⟩ := hxs.exists_append
  obtain ⟨first', j', hfirst'⟩ := hline hfirst hd hts i'
  obtain ⟨others', k', hothers'⟩ := Many.ofKinds hline hothers hd' hus j'
  exact ⟨_, k', .mk (hkind.trans hv) hfirst' hothers'⟩

theorem IsProcedure.ofKinds {n : Nat} (hblock : OfKinds IsBlock n) :
    OfKinds IsProcedure n := by
  rintro d _ i proc j ⟨hp, ht, hparams, hs, hb, hs'⟩ hd xs hxs i'
  obtain ⟨hd, hd'⟩ := Nat.max_le.mp hd
  obtain ⟨p', xs₁, rfl, hkind₁, -, hxs⟩ := hxs.exists_cons
  obtain ⟨t', xs₂, rfl, hkind₂, -, hxs⟩ := hxs.exists_cons
  obtain ⟨ts', xs₃, rfl, hts, hxs⟩ := hxs.exists_append
  obtain ⟨s', xs₄, rfl, hkind₃, -, hxs⟩ := hxs.exists_cons
  obtain ⟨us', s'', rfl, hkind₄, hus⟩ := hxs.exists_concat
  obtain ⟨groups', j', hparams'⟩ :=
    Bracketed.ofKinds (Separated.ofKinds (IsGroup.ofKinds n)) hparams hd hts i'
  obtain ⟨b', k', hb'⟩ := hblock hb hd' hus j'
  exact ⟨_, k', .mk (hkind₁.trans hp) (hkind₂.trans ht) hparams' (hkind₃.trans hs) hb'
    (hkind₄.trans hs')⟩

theorem IsBlock.ofKinds (n : Nat) : OfKinds IsBlock n := by
  induction n with
  | zero =>
      rintro d _ i b j ⟨_, _, _⟩ hd
      cases hd
  | succ n ih =>
      rintro d _ i b j ⟨hsections, hprocedures, hbody⟩ hd xs hxs i'
      obtain ⟨hd, hd'⟩ := Nat.max_le.mp (Nat.le_of_succ_le_succ hd)
      obtain ⟨hd', hd''⟩ := Nat.max_le.mp hd'
      obtain ⟨ts', xs', rfl, hts, hxs⟩ := hxs.exists_append
      obtain ⟨us', vs', rfl, hus, hvs⟩ := hxs.exists_append
      obtain ⟨sections', j', hsections'⟩ :=
        Many.ofKinds (IsSection.ofKinds n) hsections hd hts i'
      obtain ⟨procedures', k', hprocedures'⟩ :=
        Many.ofKinds (IsProcedure.ofKinds ih) hprocedures hd' hus j'
      obtain ⟨body', l', hbody'⟩ := IsCompound.ofKinds n hbody hd'' hvs k'
      exact ⟨_, l', .mk hsections' hprocedures' hbody'⟩

/-- Tokens alike derive programs of the same depth. -/
theorem IsProgram.exists_of_alike {d : Nat} {ts xs : List Token} {program : Program}
    (h : IsProgram d ts program) (hxs : Alike xs ts) :
    ∃ program', IsProgram d xs program' := by
  obtain ⟨hp, ht, hs, hb, he⟩ := h
  obtain ⟨p', xs₁, rfl, hkind₁, -, hxs⟩ := hxs.exists_cons
  obtain ⟨t', xs₂, rfl, hkind₂, -, hxs⟩ := hxs.exists_cons
  obtain ⟨s', xs₃, rfl, hkind₃, -, hxs⟩ := hxs.exists_cons
  obtain ⟨ts', e', rfl, hkind₄, hts⟩ := hxs.exists_concat
  obtain ⟨b', j', hb'⟩ := IsBlock.ofKinds d hb (Nat.le_refl d) hts 0
  exact ⟨_, .mk (hkind₁.trans hp) (hkind₂.trans ht) (hkind₃.trans hs) hb' (hkind₄.trans he)⟩

end Grammar

/-! ### From rows of tokens to the parser -/

/-- The tokens before the end of the text. -/
def body (tokens : List Token) : List Token := tokens.takeWhile (·.kind ≠ .endOfText)

theorem body_cons_endOfText {t : Token} {ts : List Token} (ht : t.kind = .endOfText) :
    body (t :: ts) = [] := by
  simp [body, ht]

theorem body_cons {t : Token} {ts : List Token} (ht : t.kind ≠ .endOfText) :
    body (t :: ts) = t :: body ts := by
  simp [body, ht]

theorem kind_ne_of_mem_body {tokens : List Token} {t : Token} (ht : t ∈ body tokens) :
    t.kind ≠ .endOfText := by
  have hkind := List.mem_takeWhile_imp ht
  simpa using hkind

theorem exists_eq_body_append {tokens : List Token} (h : ∃ t ∈ tokens, t.kind = .endOfText) :
    ∃ e rest, tokens = body tokens ++ e :: rest ∧ e.kind = .endOfText := by
  induction tokens with
  | nil =>
      obtain ⟨t, ht, -⟩ := h
      cases ht
  | cons u tokens ih =>
      by_cases hu : u.kind = .endOfText
      · exact ⟨u, tokens, by rw [body_cons_endOfText hu, List.nil_append], hu⟩
      · have h' : ∃ t ∈ tokens, t.kind = .endOfText := by
          obtain ⟨t, ht, hkind⟩ := h
          rcases List.mem_cons.mp ht with rfl | ht
          · exact absurd hkind hu
          · exact ⟨t, ht, hkind⟩
        obtain ⟨e, rest, htokens, he⟩ := ih h'
        exact ⟨e, rest, by rw [body_cons hu, List.cons_append, ← htokens], he⟩

theorem body_eq_filter {tokens : List Token} (h : ∀ t ∈ tokens.dropLast, t.kind ≠ .endOfText) :
    body tokens = tokens.filter (·.kind ≠ .endOfText) := by
  induction tokens with
  | nil => rfl
  | cons u tokens ih =>
      cases tokens with
      | nil => by_cases hu : u.kind = .endOfText <;> simp [body, hu]
      | cons v tokens =>
          rw [List.dropLast_cons_cons] at h
          have hu := h u List.mem_cons_self
          rw [body_cons hu, ih fun t ht => h t (List.mem_cons_of_mem _ ht)]
          simp [hu]

theorem body_concat {tokens : List Token} {e : Token} (he : e.kind = .endOfText) :
    body (tokens ++ [e]) = body tokens := by
  induction tokens with
  | nil => exact body_cons_endOfText he
  | cons u tokens ih =>
      rw [List.cons_append]
      by_cases hu : u.kind = .endOfText
      · rw [body_cons_endOfText hu, body_cons_endOfText hu]
      · rw [body_cons hu, body_cons hu, ih]

theorem Parser.at_body {p : Parser} {row : List Token} (hrow : p.current :: p.ahead = row)
    (hend : ∃ t ∈ row, t.kind = .endOfText) (hid : p.nextId = 0)
    (htotal : p.total = row.length) :
    p.At (body row) 0 := by
  obtain ⟨e, rest, heq, he⟩ := exists_eq_body_append hend
  refine ⟨⟨e, rest, hrow.trans heq, he⟩, fun t => kind_ne_of_mem_body, hid, ?_⟩
  have hlength := congrArg List.length heq
  rw [List.length_append, List.length_cons] at hlength
  omega

theorem Parser.at_ofTokens (tokens : List Token) (settings : Settings) (journal : Journal) :
    (Parser.ofTokens tokens settings journal).At (body tokens) 0 := by
  cases tokens with
  | nil =>
      have hat : (Parser.ofTokens [] settings journal).At
          (body [⟨.endOfText, none, .start⟩]) 0 :=
        Parser.at_body rfl ⟨_, List.mem_singleton.mpr rfl, rfl⟩ rfl rfl
      exact hat
  | cons t ts =>
      by_cases hlast : (ts.getLastD t).kind = .endOfText
      · have hmem : ts.getLastD t ∈ t :: ts := by
          cases ts with
          | nil => exact List.mem_singleton.mpr rfl
          | cons u us => exact List.mem_cons_of_mem _ (by simp [List.getLastD])
        refine Parser.at_body ?_ ⟨_, hmem, hlast⟩ rfl ?_
        · simp only [Parser.ofTokens, if_pos hlast]
        · simp only [Parser.ofTokens, if_pos hlast, List.length_cons]
      · -- The row is given an end, which is no part of its body.
        have hconcat : body (t :: ts) =
            body (t :: ts ++ [⟨.endOfText, none, (ts.getLastD t).position⟩]) :=
            (body_concat rfl).symm
        rw [hconcat]
        refine Parser.at_body ?_
          ⟨_, List.mem_append_right _ (List.mem_singleton.mpr rfl), rfl⟩ rfl ?_
        · simp only [Parser.ofTokens, if_neg hlast, List.cons_append]
        · simp only [Parser.ofTokens, if_neg hlast, List.cons_append, List.length_cons]

/-- Whatever stands after the end of the text is not looked at. -/
theorem parseProgram_eq_ok_iff (tokens : List Token) (settings : Settings) (journal : Journal)
    (program : Program) :
    (parseProgram tokens settings journal).1 = .ok program ↔
      ∃ d ≤ settings.maxNesting, Grammar.IsProgram d (body tokens) program := by
  have hat := Parser.at_ofTokens tokens settings journal
  constructor
  · intro h
    unfold parseProgram at h
    cases hrun : Rule.wholeProgram settings.maxNesting (.ofTokens tokens settings journal) with
    | ok program' q =>
        rw [hrun] at h
        cases h
        exact Rule.wholeProgram_eq_ok hat hrun
    | error e q =>
        rw [hrun] at h
        cases h
  · rintro ⟨d, hd, h⟩
    obtain ⟨q, hrun⟩ := Rule.wholeProgram_complete h hd hat
    unfold parseProgram
    rw [hrun]

/-- An identifier has a text and a literal a value. -/
def Token.HasPayload (t : Token) : Prop :=
  (t.kind = .identifier → t.spelling?.isSome) ∧ (Grammar.IsLiteral t.kind → t.value.isSome)

instance : DecidablePred Token.HasPayload := fun _ => inferInstanceAs (Decidable (_ ∧ _))

/-- **The parser accepts exactly its grammar.** Where the end of the text stands last or not at
all, and every token has what it should have, a program is read if and only if the kinds of the
tokens derive one with no more levels open at once than the settings allow; and the program
that is read is the derived one. -/
theorem parser_accepts_exactly_the_grammar (tokens : List Token) (settings : Settings)
    (journal : Journal) (hend : ∀ t ∈ tokens.dropLast, t.kind ≠ .endOfText)
    (hpayload : ∀ t ∈ tokens, t.HasPayload) :
    ((∃ program, (parseProgram tokens settings journal).1 = .ok program) ↔
      ∃ d ≤ settings.maxNesting,
        Grammar.Derivable d ((tokens.filter (·.kind ≠ .endOfText)).map Token.kind)) ∧
    ∀ program, (parseProgram tokens settings journal).1 = .ok program ↔
      ∃ d ≤ settings.maxNesting,
        Grammar.IsProgram d (tokens.filter (·.kind ≠ .endOfText)) program := by
  rw [← body_eq_filter hend]
  refine ⟨?_, parseProgram_eq_ok_iff tokens settings journal⟩
  constructor
  · rintro ⟨program, h⟩
    obtain ⟨d, hd, h⟩ := (parseProgram_eq_ok_iff tokens settings journal program).mp h
    exact ⟨d, hd, body tokens, program, rfl, h⟩
  · rintro ⟨d, hd, ts, program, hkinds, h⟩
    -- The kinds are derived for some tokens, and so they are for these, in as many levels.
    have hvalues : ∀ t ∈ body tokens, Grammar.IsLiteral t.kind → t.value.isSome :=
      fun t ht => (hpayload t ((List.takeWhile_sublist _).subset ht)).2
    obtain ⟨program', h'⟩ := h.exists_of_alike (Grammar.alike_of_map_kind hkinds.symm hvalues)
    exact ⟨program', (parseProgram_eq_ok_iff tokens settings journal program').mpr ⟨d, hd, h'⟩⟩

/-- The tokens of `PROGRAM P; BEGIN X := - 1 END.`, which have three levels open at once. -/
def signedAssignment : List Token :=
  [⟨.program, some (.string "PROGRAM"), ⟨1, 1⟩⟩, ⟨.identifier, some (.string "P"), ⟨1, 9⟩⟩,
    ⟨.semicolon, some (.string ";"), ⟨1, 10⟩⟩, ⟨.beginBlock, some (.string "BEGIN"), ⟨1, 12⟩⟩,
    ⟨.identifier, some (.string "X"), ⟨1, 18⟩⟩, ⟨.assign, some (.string ":="), ⟨1, 20⟩⟩,
    ⟨.minus, some (.string "-"), ⟨1, 23⟩⟩, ⟨.integerLiteral, some (.integer 1), ⟨1, 25⟩⟩,
    ⟨.endBlock, some (.string "END"), ⟨1, 27⟩⟩, ⟨.dot, some (.string "."), ⟨1, 30⟩⟩,
    ⟨.endOfText, none, ⟨1, 31⟩⟩]

theorem signedAssignment_derivable :
    (∀ t ∈ signedAssignment.dropLast, t.kind ≠ .endOfText) ∧
    (∀ t ∈ signedAssignment, t.HasPayload) ∧
    ∃ d ≤ 3, Grammar.Derivable d
      [.program, .identifier, .semicolon, .beginBlock, .identifier, .assign, .minus,
        .integerLiteral, .endBlock, .dot] := by
  have hend : ∀ t ∈ signedAssignment.dropLast, t.kind ≠ .endOfText := by decide
  have hpayload : ∀ t ∈ signedAssignment, t.HasPayload := by decide
  refine ⟨hend, hpayload, ?_⟩
  have hread : (parseProgram signedAssignment { maxNesting := 3 }
      { traces := [], dumps := [] }).1.toBool := by decide +kernel
  refine (parser_accepts_exactly_the_grammar signedAssignment { maxNesting := 3 }
    { traces := [], dumps := [] } hend hpayload).1.mp ?_
  cases hresult : (parseProgram signedAssignment { maxNesting := 3 }
      { traces := [], dumps := [] }).1 with
  | ok program => exact ⟨program, rfl⟩
  | error e =>
      rw [hresult] at hread
      cases hread

end MiniPascal

import MiniPascal.Proofs.Grammar.ViablePrefix
import MiniPascal.Proofs.Grammar.Writing

/-!
A syntax error names the first token that cannot be there. What stands before the token is the
beginning of a program, since no rule leads into a dead end. With the token it is not: a
program that began so would be read, and would be refused at the same token, because no rule
looks past it.
-/

namespace MiniPascal

namespace Grammar

/-- A program of the grammar, with the end of the text after it, starts with these kinds. -/
def StartsProgram (kinds : List Token.Kind) : Prop :=
  ∃ d ks, Derivable d ks ∧ kinds <+: ks ++ [.endOfText]

/-! ### The end of the text is no part of a program -/

def Endless (ts : List Token) : Prop := ∀ t ∈ ts, t.kind ≠ .endOfText

@[simp] theorem endless_nil : Endless [] := by simp [Endless]

@[simp] theorem endless_cons {t : Token} {ts : List Token} :
    Endless (t :: ts) ↔ t.kind ≠ .endOfText ∧ Endless ts := by
  simp [Endless]

@[simp] theorem endless_append {ts us : List Token} :
    Endless (ts ++ us) ↔ Endless ts ∧ Endless us := by
  simp only [Endless, List.forall_mem_append]

/-- What is derived with at most `n` levels is endless. -/
def DerivesEndless {α : Type} (D : Judgment α) (n : Nat) : Prop :=
  ∀ ⦃d ts i a j⦄, D d ts i a j → d ≤ n → Endless ts

variable {α : Type} {n : Nat}

theorem Many.endless {Item : Judgment α} (hitem : DerivesEndless Item n) :
    DerivesEndless (Many Item) n := by
  intro d ts i as j h hd
  induction h with
  | nil => exact endless_nil
  | cons ha _ ih =>
      obtain ⟨hd, hd'⟩ := Nat.max_le.mp hd
      exact endless_append.mpr ⟨hitem ha hd, ih hd'⟩

theorem Separated.endless {sep : Token.Kind} (hsep : sep ≠ .endOfText) {Item : Judgment α}
    (hitem : DerivesEndless Item n) : DerivesEndless (Separated sep Item) n := by
  have hpreceded : DerivesEndless (Preceded sep Item) n := by
    rintro d _ i a j ⟨ht, ha⟩ hd
    exact endless_cons.mpr ⟨ht ▸ hsep, hitem ha hd⟩
  rintro d _ i as j ⟨ha, has⟩ hd
  obtain ⟨hd, hd'⟩ := Nat.max_le.mp hd
  exact endless_append.mpr ⟨hitem ha hd, Many.endless hpreceded has hd'⟩

theorem Bracketed.endless {Items : Judgment (List α)} (hitems : DerivesEndless Items n) :
    DerivesEndless (Bracketed Items) n := by
  intro d ts i as j h hd
  cases h with
  | absent => exact endless_nil
  | empty hl hr => simp [hl, hr]
  | list hl has hr => simp [hl, hr, hitems has hd]

theorem Chain.endless {Op : Token.Kind → BinaryOp → Prop} {Operand : Judgment Expr}
    (hop : ∀ k op, Op k op → k ≠ .endOfText) (hoperand : DerivesEndless Operand n) :
    DerivesEndless (Chain Op Operand) n := by
  intro d ts i e j h hd
  induction h with
  | one he => exact hoperand he hd
  | more _ ht hright ih =>
      obtain ⟨hd, hd'⟩ := Nat.max_le.mp hd
      exact endless_append.mpr ⟨ih hd, endless_cons.mpr ⟨hop _ _ ht, hoperand hright hd'⟩⟩

theorem IsExpr.endless_of_isFactor (h : DerivesEndless IsFactor n) :
    DerivesEndless IsExpr n := by
  refine Chain.endless ?_ (Chain.endless ?_ h)
  · rintro k op (_ | _) <;> decide
  · rintro k op (_ | _ | _) <;> decide

theorem IsFactor.endless (n : Nat) : DerivesEndless IsFactor n := by
  have hsign : ∀ k op, IsSign k op → k ≠ .endOfText := by
    rintro k op (_ | _) <;> decide
  have hliteral : ∀ k, IsLiteral k → k ≠ .endOfText := by
    rintro k (_ | _ | _) <;> decide
  induction n with
  | zero =>
      intro d ts i e j h hd
      cases h with
      | signed _ _ => cases hd
      | parenthesized _ _ _ => cases hd
      | literal ht _ => simpa using hliteral _ ht
      | var ht => simp [ht]
  | succ n ih =>
      intro d ts i e j h hd
      cases h with
      | literal ht _ => simpa using hliteral _ ht
      | var ht => simp [ht]
      | signed ht he =>
          exact endless_cons.mpr ⟨hsign _ _ ht, ih he (Nat.le_of_succ_le_succ hd)⟩
      | parenthesized hl he hr =>
          simp [hl, hr, IsExpr.endless_of_isFactor ih he (Nat.le_of_succ_le_succ hd)]

theorem IsExpr.endless (n : Nat) : DerivesEndless IsExpr n :=
  IsExpr.endless_of_isFactor (IsFactor.endless n)

theorem IsStatement.endless (hcompound : DerivesEndless IsCompound n) :
    DerivesEndless IsStatement n := by
  have hargs : DerivesEndless IsArguments n :=
    Bracketed.endless (Separated.endless (by decide) (IsExpr.endless n))
  have hwrite : ∀ k b, IsWrite k b → k ≠ .endOfText := by
    rintro k b (_ | _) <;> decide
  intro d ts i s j h hd
  cases h with
  | compound hbody => exact hcompound hbody hd
  | assign ht ha he => simp [ht, ha, IsExpr.endless n he hd]
  | call ht has => simp [ht, hargs has hd]
  | write ht has => exact endless_cons.mpr ⟨hwrite _ _ ht, hargs has hd⟩
  | empty => exact endless_nil

theorem IsCompound.endless (n : Nat) : DerivesEndless IsCompound n := by
  induction n with
  | zero =>
      rintro d _ i body j ⟨_, _, _⟩ hd
      cases hd
  | succ n ih =>
      rintro d _ i body j ⟨hb, hbody, he⟩ hd
      have hlist :=
        Separated.endless (by decide) (IsStatement.endless ih) hbody
          (Nat.le_of_succ_le_succ hd)
      simp [hb, he, hlist]

theorem IsGroup.endless (n : Nat) : DerivesEndless IsGroup n := by
  have hname : DerivesEndless IsName n := by
    rintro d _ i name j ⟨ht⟩ hd
    simp [ht]
  have htype : ∀ k type, IsType k type → k ≠ .endOfText := by
    rintro k type (_ | _ | _) <;> decide
  rintro d _ i decls j ⟨hnames, hc, ht⟩ hd
  have hlist := Separated.endless (by decide) hname hnames hd
  simp [hc, hlist, htype _ _ ht]

theorem IsSection.endless (n : Nat) : DerivesEndless IsSection n := by
  have hline : DerivesEndless IsLine n := by
    rintro d _ i decls j ⟨hdecls, hs⟩ hd
    simp [hs, IsGroup.endless n hdecls hd]
  rintro d _ i decls j ⟨hv, hfirst, hothers⟩ hd
  obtain ⟨hd, hd'⟩ := Nat.max_le.mp hd
  simp [hv, hline hfirst hd, Many.endless hline hothers hd']

theorem IsBlock.endless (n : Nat) : DerivesEndless IsBlock n := by
  induction n with
  | zero =>
      rintro d _ i b j ⟨_, _, _⟩ hd
      cases hd
  | succ n ih =>
      have hprocedure : DerivesEndless IsProcedure n := by
        rintro d _ i proc j ⟨hp, ht, hparams, hs, hb, hs'⟩ hd
        obtain ⟨hd, hd'⟩ := Nat.max_le.mp hd
        have hgroups :=
          Bracketed.endless (Separated.endless (by decide) (IsGroup.endless n)) hparams hd
        simp [hp, ht, hs, hs', hgroups, ih hb hd']
      rintro d _ i b j ⟨hsections, hprocedures, hbody⟩ hd
      obtain ⟨hd, hd'⟩ := Nat.max_le.mp (Nat.le_of_succ_le_succ hd)
      obtain ⟨hd', hd''⟩ := Nat.max_le.mp hd'
      simp [Many.endless (IsSection.endless n) hsections hd,
        Many.endless hprocedure hprocedures hd', IsCompound.endless n hbody hd'']

theorem IsProgram.endless {d : Nat} {ts : List Token} {program : Program}
    (h : IsProgram d ts program) :
    Endless ts := by
  obtain ⟨hp, ht, hs, hb, he⟩ := h
  simp [hp, ht, hs, he, IsBlock.endless d hb (Nat.le_refl d)]

end Grammar

/-! ### The token that is refused -/

open Grammar

/-- Tokens as a text gives them: the end of the text comes last and nowhere else, and every
literal has a value. -/
structure Lexed (tokens : List Token) : Prop where
  ended : ∃ us e, tokens = us ++ [e] ∧ e.kind = .endOfText ∧ Endless us
  valued : Valued tokens

section

variable {settings : Settings} {j : Journal} {us : List Token} {e : Token}

theorem Parser.row_ofTokens (he : e.kind = .endOfText) :
    (Parser.ofTokens (us ++ [e]) settings j).row = us ++ [e] := by
  cases us with
  | nil => simp [Parser.ofTokens, Parser.row, he]
  | cons u us => simp [Parser.ofTokens, Parser.row, he]

theorem Parser.total_ofTokens (he : e.kind = .endOfText) :
    (Parser.ofTokens (us ++ [e]) settings j).total = (us ++ [e]).length := by
  cases us with
  | nil => simp [Parser.ofTokens, he]
  | cons u us => simp [Parser.ofTokens, he]

@[simp]
theorem Parser.nextId_ofTokens (tokens : List Token) :
    (Parser.ofTokens tokens settings j).nextId = 0 := by
  cases tokens <;> rfl

/-- Parsers of tokens that begin alike. -/
theorem Parser.shares_ofTokens {xs rest : List Token} {e' : Token} {n : Nat}
    (he : e.kind = .endOfText) (he' : e'.kind = .endOfText)
    (h : (us ++ [e]).take (n + 1) ++ rest = xs ++ [e']) :
    (Parser.ofTokens (us ++ [e]) settings j).Shares ((us ++ [e]).drop (n + 1)) rest
      (.ofTokens (xs ++ [e']) settings j) := by
  obtain ⟨u, us', htake⟩ : ∃ u us', (us ++ [e]).take (n + 1) = u :: us' := by
    cases h : (us ++ [e]).take (n + 1) with
    | nil => simp at h
    | cons u us' => exact ⟨u, us', rfl⟩
  refine ⟨⟨u, us', ?_, ?_⟩, ⟨us, e, Parser.row_ofTokens he, he⟩, ?_, ?_, ?_⟩
  · rw [Parser.row_ofTokens he, ← List.cons_append, ← htake, List.take_append_drop]
  · rw [Parser.row_ofTokens he', ← List.cons_append, ← htake, h]
  · rw [Parser.nextId_ofTokens, Parser.nextId_ofTokens]
  · rw [Parser.row_ofTokens he, Parser.total_ofTokens he]
  · rw [Parser.row_ofTokens he', Parser.total_ofTokens he']

theorem body_of_endless (hus : Endless us) (he : e.kind = .endOfText) :
    body (us ++ [e]) = us := by
  rw [body_concat he]
  induction us with
  | nil => rfl
  | cons u us ih =>
      obtain ⟨hu, hus⟩ := endless_cons.mp hus
      rw [body_cons hu, ih hus]

/-- Where tokens are left, they are the last ones. -/
theorem Parser.At.row_eq {q : Parser} {vs : List Token} {k : NodeId} (hq : q.At vs k)
    (hrow : q.row <:+ us ++ [e]) (hus : Endless us) : q.row = vs ++ [e] := by
  obtain ⟨e', rest, htokens, he'⟩ := hq.tokens
  rcases List.suffix_concat_iff.mp hrow with hnil | ⟨us', hus', hsuffix⟩
  · cases hnil
  have hrow : vs ++ e' :: rest = us' ++ [e] := htokens.symm.trans hus'
  rcases List.eq_nil_or_concat rest with rfl | ⟨rest', l, rfl⟩
  · obtain ⟨rfl, hlast⟩ := List.append_inj' hrow rfl
    rw [Parser.row, htokens, hlast]
  · -- The end of the text would stand among the tokens before it.
    have hlast : (vs ++ e' :: rest') ++ [l] = us' ++ [e] := by simpa using hrow
    obtain ⟨rfl, -⟩ := List.append_inj' hlast rfl
    exact absurd he' (hus e' (hsuffix.subset (by simp)))

end

section

variable {tokens : List Token} {settings : Settings} {j : Journal} {q : Parser} {t : Token}
  {x : Option String}

/-- The refused token stands right behind tokens that begin a program. -/
theorem exists_startsProgram (htokens : Lexed tokens)
    (h : Rule.wholeProgram settings.maxNesting (.ofTokens tokens settings j) =
      .error (.unexpected t x) q) :
    ∃ i, tokens[i]? = some t ∧ q.row = tokens.drop i ∧
      StartsProgram ((tokens.take i).map Token.kind) := by
  obtain ⟨us, e, rfl, he, hus⟩ := htokens.ended
  have hp := Parser.at_ofTokens (us ++ [e]) settings j
  rw [body_of_endless hus he] at hp
  have hvalued : Valued us := fun t ht => htokens.valued t (List.mem_append_left _ ht)
  obtain ⟨ts, vs, k, rfl, hq, hcurrent, xs, d, program, hprogram⟩ :=
    Rule.wholeProgram_viable hp hvalued h
  have hforward := Rule.Forward.of_follows (.wholeProgram (Nat.le_refl settings.maxNesting))
    (.ofTokens (ts ++ vs ++ [e]) settings j)
  rw [h, Rule.stop, Parser.row_ofTokens he] at hforward
  have hrow := hq.row_eq hforward hus
  refine ⟨ts.length, ?_, ?_, d, (ts ++ xs).map Token.kind,
    ⟨ts ++ xs, program, rfl, hprogram⟩, ?_⟩
  · have hhead : q.row[0]? = some t := by rw [Parser.row, hcurrent, List.getElem?_cons_zero]
    rw [hrow] at hhead
    rw [List.append_assoc, List.getElem?_append_right (Nat.le_refl _), Nat.sub_self, hhead]
  · rw [hrow, List.append_assoc, List.drop_left]
  · rw [List.append_assoc, List.take_left, List.map_append, List.append_assoc]
    exact List.prefix_append _ _

/-- With the refused token no program begins. -/
theorem not_startsProgram (htokens : Lexed tokens)
    (h : Rule.wholeProgram settings.maxNesting (.ofTokens tokens settings j) =
      .error (.unexpected t x) q) {i : Nat} (hi : q.row = tokens.drop i) :
    ¬ StartsProgram ((tokens.take (i + 1)).map Token.kind) := by
  rintro ⟨d, ks, ⟨ts, program, rfl, hprogram⟩, kinds, hkinds⟩
  have hlt : i < tokens.length := by
    have hlength := congrArg List.length hi
    rw [Parser.row, List.length_cons, List.length_drop] at hlength
    omega
  -- The tokens up to the refused one, and tokens that complete a program after them.
  have hrow' : (tokens.take (i + 1) ++ kinds.map sample).map Token.kind =
      ts.map Token.kind ++ [.endOfText] := by
    rw [← hkinds, List.map_append, List.map_map]
    exact congrArg _ (List.map_id kinds)
  obtain ⟨xs, ys, hrow, hxs, hys⟩ := List.map_eq_append_iff.mp hrow'
  obtain ⟨e', rfl, he'⟩ := List.map_eq_singleton_iff.mp hys
  have hvalued : Valued (tokens.take (i + 1) ++ kinds.map sample) := by
    intro u hu hliteral
    rcases List.mem_append.mp hu with hu | hu
    · exact htokens.valued u (List.mem_of_mem_take hu) hliteral
    · obtain ⟨k, -, rfl⟩ := List.mem_map.mp hu
      rfl
  rw [hrow] at hvalued
  obtain ⟨program', hprogram'⟩ := hprogram.exists_of_alike
    (alike_of_map_kind hxs fun u hu => hvalued u (List.mem_append_left _ hu))
  have hp' := Parser.at_ofTokens (xs ++ [e']) settings j
  rw [body_of_endless hprogram'.endless he'] at hp'
  obtain ⟨q', hread⟩ := Rule.wholeProgram_complete hprogram'
    (Nat.le_max_right settings.maxNesting d) hp'
  -- The parser of the completed tokens cannot but fail as well.
  have hshares : (Parser.ofTokens tokens settings j).Shares (tokens.drop (i + 1))
      (kinds.map sample)
      (.ofTokens (xs ++ [e']) settings j) := by
    obtain ⟨us, e, rfl, he, -⟩ := htokens.ended
    exact Parser.shares_ofTokens he he' hrow
  have htracks :=
    (Rule.Follows.wholeProgram (Nat.le_max_left settings.maxNesting d)).tracks hshares
  rw [h, hread] at htracks
  cases htracks with
  | past hpast =>
      rw [Rule.stop, hi, List.length_drop, List.length_drop] at hpast
      omega

end

/-! ### Texts -/

theorem Piece.isSome_value {q : Piece} {p : Position} {t : Token} (h : q.token? p = some t) :
    t.value.isSome := by
  cases q with
  | blank c hc => cases h
  | comment inside hinside => cases h
  | _ =>
      cases h
      rfl

theorem lexed_of_tokens {text : String} {ts : List Token} (h : tokens text = .ok ts) :
    Lexed ts := by
  obtain ⟨pieces, -, rfl⟩ := tokens_eq_ok_iff.mp h
  refine ⟨⟨_, _, rfl, rfl, fun t ht => ?_⟩, fun t ht hliteral => ?_⟩
  · obtain ⟨q, -, p, hq⟩ := exists_piece_of_mem ht
    exact Piece.kind_ne_endOfText hq
  · rcases List.mem_append.mp ht with ht | ht
    · obtain ⟨q, -, p, hq⟩ := exists_piece_of_mem ht
      exact Piece.isSome_value hq
    · rw [List.mem_singleton.mp ht] at hliteral
      cases hliteral

theorem Position.Before.ne {p q : Position} (h : p.Before q) : p ≠ q := by
  rintro rfl
  unfold Before at h
  omega

/-- No two tokens of a text stand at the same place. -/
theorem getElem?_inj_of_tokens {text : String} {ts : List Token}
    (h : tokens text = .ok ts) {i k : Nat} {t : Token} (hi : ts[i]? = some t)
    (hk : ts[k]? = some t) : k = i := by
  obtain ⟨pieces, hpieces, rfl⟩ := tokens_eq_ok_iff.mp h
  have htext : text.toList = pieces.flatMap Piece.chars := by simpa using hpieces.eq_append
  have hnodup := (pairwise_before [] pieces).imp Position.Before.ne
  rw [List.nil_append, ← htext] at hnodup
  have hpositions := congrArg (Option.map Token.position) (hi.trans hk.symm)
  rw [← List.getElem?_map, ← List.getElem?_map, List.map_append] at hpositions
  obtain ⟨hlt, -⟩ := List.getElem?_eq_some_iff.mp hi
  exact ((List.getElem?_inj (by simpa using hlt) hnodup).mp hpositions).symm

theorem exists_of_parse_eq_error {settings : Settings} {text : String} {j : Journal}
    {e : SyntaxError} (h : (parse settings text j).1 = .error (.syntactic e)) :
    ∃ ts j' q, (tokenize text j).1 = .ok ts ∧ tokens text = .ok ts ∧
      Rule.wholeProgram settings.maxNesting (.ofTokens ts settings j') = .error e q := by
  rw [parse] at h
  split at h
  next e' j₁ htokenize =>
    -- An error of the tokens is no error of their order.
    rw [tokenize] at htokenize
    cases h
    split at htokenize <;> cases htokenize
  next ts j₁ htokenize =>
    have hfirst : (tokenize text j).1 = .ok ts := congrArg Prod.fst htokenize
    have htokens : tokens text = .ok ts := tokenize_eq_ok_iff.mp hfirst
    split at h
    next e' j₂ hparse =>
      cases h
      rw [parseProgram] at hparse
      split at hparse
      next => cases hparse
      next e' q hread =>
        cases hparse
        exact ⟨ts, j₁, q, hfirst, htokens, hread⟩
    next => cases h

/-- **A syntax error names the first token that fits no program.** If the tokens of a text are
refused because of a token, at whatever limit of nesting, then the token is one of the text,
and just one. The kinds of the tokens before it start some program of the grammar, nested as
deeply as it may be, with the end of the text behind it; and with the kind of the token itself
they start none. -/
theorem syntax_error_at_first_misfit (settings : Settings) (text : String) (j : Journal)
    (e : SyntaxError) (h : (parse settings text j).1 = .error (.syntactic e))
    (hcode : e.code = .unexpectedToken) :
    ∃ ts i, (tokenize text j).1 = .ok ts ∧ ts[i]? = some e.token ∧
      (∀ k, ts[k]? = some e.token → k = i) ∧
      StartsProgram ((ts.take i).map Token.kind) ∧
      ¬ StartsProgram ((ts.take (i + 1)).map Token.kind) := by
  obtain ⟨ts, j', q, htokenize, htokens, hread⟩ := exists_of_parse_eq_error h
  cases e with
  | tooDeep t limit => cases hcode
  | unexpected t x =>
      have hlexed := lexed_of_tokens htokens
      obtain ⟨i, hi, hrow, hstarts⟩ := exists_startsProgram hlexed hread
      exact ⟨ts, i, htokenize, hi, fun k => getElem?_inj_of_tokens htokens hi, hstarts,
        not_startsProgram hlexed hread hrow⟩

/-- A text that is refused with a syntax error that passes a test. -/
theorem exists_syntaxError_any (settings : Settings) (text : String) (j : Journal)
    (test : SyntaxError → Bool)
    (h : (match (parse settings text j).1 with
      | .error (.syntactic e) => test e
      | _ => false) = true) :
    ∃ e, (parse settings text j).1 = .error (.syntactic e) ∧ test e = true := by
  split at h
  next e he => exact ⟨e, he, h⟩
  next => cases h

/-- What looks like a call is refused only at the word after it. -/
def unseparatedText : String := "PROGRAM P; BEGIN IF X END."

theorem unseparatedText_refused :
    ∃ e, (parse {} unseparatedText { traces := [], dumps := [] }).1 = .error (.syntactic e) ∧
      e.code = .unexpectedToken ∧ e.token = ⟨.identifier, some (.string "X"), ⟨1, 21⟩⟩ ∧
      StartsProgram [.program, .identifier, .semicolon, .beginBlock, .identifier] ∧
      ¬ StartsProgram [.program, .identifier, .semicolon, .beginBlock, .identifier,
        .identifier] := by
  obtain ⟨e, he, htest⟩ :=
    exists_syntaxError_any {} unseparatedText { traces := [], dumps := [] }
      (fun e => e.code = .unexpectedToken ∧
        e.token = ⟨.identifier, some (.string "X"), ⟨1, 21⟩⟩)
      (by decide +kernel)
  obtain ⟨hcode, htoken⟩ := of_decide_eq_true htest
  have htokens :
      (tokenize unseparatedText { traces := [], dumps := [] }).1.toOption.any (fun ts =>
        ts[5]? = some ⟨.identifier, some (.string "X"), ⟨1, 21⟩⟩ ∧
        (ts.take 6).map Token.kind =
          [.program, .identifier, .semicolon, .beginBlock, .identifier, .identifier]) =
      true := by
    decide +kernel
  obtain ⟨ts, i, hts, -, hunique, hstarts, hnot⟩ :=
    syntax_error_at_first_misfit {} unseparatedText
      { traces := [], dumps := [] } e he hcode
  rw [hts] at htokens
  obtain ⟨hfifth, hkinds⟩ := of_decide_eq_true htokens
  obtain rfl : 5 = i := hunique 5 (htoken ▸ hfifth)
  have hkinds' := congrArg (List.take 5) hkinds
  rw [← List.map_take, List.take_take] at hkinds'
  rw [show ts.take 5 = ts.take (min 5 6) from rfl, hkinds'] at hstarts
  rw [hkinds] at hnot
  exact ⟨e, he, hcode, htoken, hstarts, hnot⟩

end MiniPascal

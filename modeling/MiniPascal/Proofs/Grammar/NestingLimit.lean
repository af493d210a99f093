import MiniPascal.Proofs.Grammar.FirstMisfit
import MiniPascal.Proofs.Grammar.OpenLevels

/-!
What the limit on nesting does. Tokens are read once with room for `n` levels and once with
room for more. Both readings are the same up to the token at which the first finds no room for
another level; from there the second goes on, so it succeeds or is refused at that token or at
a later one.
-/

namespace MiniPascal

open Grammar

namespace Parser

/-- The tokens from the refused one on. Only a literal without a value is refused after it was
taken. -/
def refused (q : Parser) : SyntaxError → List Token
  | .unexpected t expected => if expected = some "literal" then t :: q.row else q.row
  | .tooDeep _ _ => q.row

/-- Some tokens have been taken, none of them the end of the text, and `rest` is left. -/
def Leaves (p : Parser) (rest : List Token) : Prop := ∃ ts, p.row = ts ++ rest ∧ Endless ts

variable {p p' q : Parser} {rest : List Token}

theorem leaves_row (p : Parser) : p.Leaves p.row := ⟨[], rfl, endless_nil⟩

theorem Leaves.trans (h : p.Leaves q.row) (h' : q.Leaves rest) : p.Leaves rest := by
  obtain ⟨ts, hp, hts⟩ := h
  obtain ⟨us, hq, hus⟩ := h'
  exact ⟨ts ++ us, by rw [hp, hq, List.append_assoc], endless_append.mpr ⟨hts, hus⟩⟩

theorem Leaves.ended (h : p.Leaves q.row) (hp : p.Ended) : q.Ended := by
  obtain ⟨ts, hrow, -⟩ := h
  exact hp.of_suffix ⟨ts, hrow.symm⟩

/-- The two parsers differ at most in their limits and in what they have noted. -/
def Twin (p p' : Parser) : Prop := ∃ k j, p' = { p with maxNesting := k, journal := j }

theorem Twin.ended (h : p.Twin p') (hp : p.Ended) : p'.Ended := by
  obtain ⟨k, j, rfl⟩ := h
  exact hp

theorem Twin.refused (h : p.Twin p') (e : SyntaxError) : p'.refused e = p.refused e := by
  obtain ⟨k, j, rfl⟩ := h
  cases e <;> rfl

end Parser

namespace Rule

variable {α β : Type}

/-- A rule that has started with `p` has ended, and if it has failed, then because of the first
token that is left. -/
inductive StopsAfter (p : Parser) : EStateM.Result SyntaxError Parser α → Prop
  | ok {a : α} {q : Parser} : p.Leaves q.row → StopsAfter p (.ok a q)
  | error {e : SyntaxError} {q : Parser} {rest : List Token} :
      q.refused e = e.token :: rest → p.Leaves (e.token :: rest) → StopsAfter p (.error e q)

theorem StopsAfter.trans {p q : Parser} {r : EStateM.Result SyntaxError Parser α}
    (h : p.Leaves q.row) (hr : StopsAfter q r) : StopsAfter p r := by
  cases hr with
  | ok hq => exact .ok (h.trans hq)
  | error he hq => exact .error he (h.trans hq)

/-- How a rule ends for a parser, and how the rule with more room ends for its twin. -/
inductive Outlasts : EStateM.Result SyntaxError Parser α →
    EStateM.Result SyntaxError Parser α → Prop
  | ok {a : α} {q q' : Parser} : q.Twin q' → Outlasts (.ok a q) (.ok a q')
  | error {e : SyntaxError} {q q' : Parser} : q.Twin q' → Outlasts (.error e q) (.error e q')
  | deep {t : Token} {k : Nat} {q : Parser} {r : EStateM.Result SyntaxError Parser α} :
      StopsAfter q r → Outlasts (.error (.tooDeep t k) q) r

/-- Where there is more room, no more tokens are left. -/
theorem Outlasts.length_refused_le {t : Token} {k : Nat} {q q' : Parser} {e : SyntaxError}
    (h : Outlasts (.error (.tooDeep t k) q : EStateM.Result _ _ α) (.error e q')) :
    (q'.refused e).length ≤ q.row.length := by
  cases h with
  | error htwin => exact Nat.le_of_eq (congrArg _ (htwin.refused _))
  | deep hstops =>
      cases hstops with
      | error he hleaves =>
          obtain ⟨ts, hrow, -⟩ := hleaves
          rw [hrow, he, List.length_append]
          exact Nat.le_add_left _ _

/-- With the limit raised, a rule does the same until the limit was reached, and ends where it
has read at least as far. -/
structure Widened (x x' : Rule α) : Prop where
  stops {p : Parser} : p.Ended → StopsAfter p (x' p)
  outlasts {p p' : Parser} : p.Ended → p.Twin p' → Outlasts (x p) (x' p')

theorem Widened.bind {x x' : Rule α} {f f' : α → Rule β} (hx : Widened x x')
    (hf : ∀ a, Widened (f a) (f' a)) : Widened (x >>= f) (x' >>= f') := by
  have hnext {p q : Parser} {a : α} (hp : p.Ended) (hq : p.Leaves q.row) :
      StopsAfter p (f' a q) :=
    .trans hq ((hf a).stops (hq.ended hp))
  constructor
  case stops =>
    intro p hp
    have hstops := hx.stops hp
    cases h : x' p with
    | ok a q =>
        rw [h] at hstops
        cases hstops with
        | ok hq =>
            rw [bind_of_ok h]
            exact hnext hp hq
    | error e q =>
        rw [h] at hstops
        cases hstops with
        | error he hq =>
            rw [bind_of_error h]
            exact .error he hq
  case outlasts =>
    intro p p' hp htwin
    have hstops := hx.stops (htwin.ended hp)
    have hend := hx.outlasts hp htwin
    generalize h : x p = r at hend
    generalize h' : x' p' = r' at hend hstops
    cases hend with
    | @ok a q q' hq =>
        cases hstops with
        | ok hq' =>
            rw [bind_of_ok h, bind_of_ok h']
            have hended : q.Ended := by
              obtain ⟨k, j, rfl⟩ := hq
              exact hq'.ended (htwin.ended hp)
            exact (hf a).outlasts hended hq
    | error hq =>
        rw [bind_of_error h, bind_of_error h']
        exact .error hq
    | deep hr =>
        rw [bind_of_error h]
        cases hr with
        | ok hq =>
            rw [bind_of_ok h']
            cases hstops with
            | ok hq' => exact .deep (.trans hq ((hf _).stops (hq'.ended (htwin.ended hp))))
        | error he hq =>
            rw [bind_of_error h']
            exact .deep (.error he hq)

/-- A rule that takes no token and looks at neither the limit nor the journal. -/
theorem Widened.stay {r : Rule α} (h : ∀ p : Parser, ∃ a q, r p = .ok a q ∧ q.row = p.row ∧
      ∀ p', p.Twin p' → ∃ q', r p' = .ok a q' ∧ q.Twin q') : Widened r r := by
  constructor
  case stops =>
    intro p _
    obtain ⟨a, q, hr, hrow, -⟩ := h p
    rw [hr]
    exact .ok (hrow ▸ p.leaves_row)
  case outlasts =>
    intro p p' _ htwin
    obtain ⟨a, q, hr, -, hr'⟩ := h p
    obtain ⟨q', hr', hq⟩ := hr' p' htwin
    rw [hr, hr']
    exact .ok hq

theorem Widened.peekKind : Widened peekKind peekKind := by
  refine .stay fun p => ?_
  obtain ⟨kind, hkind⟩ := exists_peekKind p
  refine ⟨kind, p, hkind, rfl, ?_⟩
  rintro _ ⟨k, j, rfl⟩
  refine ⟨{ p with maxNesting := k, journal := j }, ?_, k, j, rfl⟩
  rw [Rule.peekKind] at hkind ⊢
  dsimp only
  split at hkind
  next hahead => cases hkind; rw [hahead]
  next hahead => cases hkind; rw [hahead]

theorem Widened.advance : Widened advance advance := by
  constructor
  case stops =>
    intro p hp
    by_cases hend : p.current.kind = .endOfText
    · rw [advance_of_endOfText hend]
      exact .ok p.leaves_row
    · obtain ⟨t, ts, hahead⟩ := exists_ahead hp hend
      rw [advance_of_cons hend hahead]
      exact .ok ⟨[p.current], by rw [Parser.row, hahead]; rfl, by simpa using hend⟩
  case outlasts =>
    rintro p p' hp ⟨k, j, hp'⟩
    have hcurrent : p'.current = p.current := by rw [hp']
    by_cases hend : p.current.kind = .endOfText
    · rw [advance_of_endOfText hend, advance_of_endOfText (hcurrent ▸ hend), hcurrent]
      exact .ok ⟨k, j, hp'⟩
    · obtain ⟨t, ts, hahead⟩ := exists_ahead hp hend
      have hahead' : p'.ahead = t :: ts := by rw [hp', ← hahead]
      rw [advance_of_cons hend hahead, advance_of_cons (hcurrent ▸ hend) hahead',
        hcurrent, hp']
      exact .ok ⟨k, j, rfl⟩

theorem Widened.unexpected {expected : String} (h : expected ≠ "literal") :
    Widened (unexpected expected : Rule α) (unexpected expected) := by
  constructor
  case stops =>
    intro p _
    refine .error (if_neg ?_) p.leaves_row
    simpa using h
  case outlasts =>
    rintro p _ _ ⟨k, j, rfl⟩
    exact .error ⟨k, j, rfl⟩

theorem Widened.tooDeep {r : Rule α} (h : ∀ {p : Parser}, p.Ended → StopsAfter p (r p)) :
    Widened tooDeep r := by
  refine ⟨h, ?_⟩
  rintro p _ hp ⟨k, j, rfl⟩
  exact .deep (.trans (q := { p with maxNesting := k, journal := j }) p.leaves_row (h hp))

theorem literal_of_cons {p : Parser} {t : Token} {ts : List Token}
    (hkind : p.current.kind ≠ .endOfText) (hahead : p.ahead = t :: ts) :
    literal p = match p.current.value with
      | some v => .ok (.literal v) { p with current := t, ahead := ts }
      | none =>
          .error (.unexpected p.current (some "literal"))
            { p with current := t, ahead := ts } := by
  rw [literal, bind_of_ok (advance_of_cons hkind hahead)]
  cases p.current.value <;> rfl

theorem literal_stops {p : Parser} (hp : p.Ended) (hkind : p.current.kind ≠ .endOfText) :
    StopsAfter p (literal p) := by
  obtain ⟨t, ts, hahead⟩ := exists_ahead hp hkind
  have hrow : p.row = p.current :: t :: ts := by rw [Parser.row, hahead]
  rw [literal_of_cons hkind hahead]
  split
  · exact .ok ⟨[p.current], hrow, by simpa using hkind⟩
  · have hrefused : ({ p with current := t, ahead := ts } : Parser).refused
        (.unexpected p.current (some "literal")) = p.current :: t :: ts := by
      rw [Parser.refused, if_pos rfl, Parser.row]
    exact .error hrefused (hrow ▸ p.leaves_row)

theorem literal_outlasts {p p' : Parser} (hp : p.Ended) (hkind : p.current.kind ≠ .endOfText)
    (htwin : p.Twin p') : Outlasts (literal p) (literal p') := by
  obtain ⟨k, j, rfl⟩ := htwin
  obtain ⟨t, ts, hahead⟩ := exists_ahead hp hkind
  rw [literal_of_cons hkind hahead,
    literal_of_cons (p := { p with maxNesting := k, journal := j }) hkind hahead]
  dsimp only
  split
  · exact .ok ⟨k, j, rfl⟩
  · exact .error ⟨k, j, rfl⟩

theorem Widened.factorOf {signed signed' : UnaryOp → Rule Expr}
    {parenthesized parenthesized' : Rule Expr}
    (hsigned : ∀ op, Widened (signed op) (signed' op))
    (hparenthesized : Widened parenthesized parenthesized')
    (hvariable : Widened variableUse variableUse) :
    Widened (factorOf signed parenthesized) (factorOf signed' parenthesized') := by
  have hcurrent (p : Parser) : current p = .ok p.current p := rfl
  have hvar : Widened (do return .var (← variableUse)) (do return Expr.var (← variableUse)) :=
    hvariable.bind fun _ => .stay fun p => ⟨_, p, rfl, rfl, fun p' htwin => ⟨p', rfl, htwin⟩⟩
  constructor
  case stops =>
    intro p hp
    rw [Rule.factorOf, bind_of_ok (hcurrent p)]
    cases hkind : p.current.kind
    case plus => exact (hsigned .plus).stops hp
    case minus => exact (hsigned .minus).stops hp
    case leftParen => exact hparenthesized.stops hp
    case integerLiteral => exact literal_stops hp (by rw [hkind]; decide)
    case realLiteral => exact literal_stops hp (by rw [hkind]; decide)
    case stringLiteral => exact literal_stops hp (by rw [hkind]; decide)
    case identifier => exact hvar.stops hp
    all_goals exact (Widened.unexpected (by decide)).stops hp
  case outlasts =>
    intro p p' hp htwin
    have hkind' : p'.current.kind = p.current.kind := by
      obtain ⟨k, j, rfl⟩ := htwin
      rfl
    rw [Rule.factorOf, Rule.factorOf, bind_of_ok (hcurrent p),
      bind_of_ok (hcurrent p'), hkind']
    cases hkind : p.current.kind
    case plus => exact (hsigned .plus).outlasts hp htwin
    case minus => exact (hsigned .minus).outlasts hp htwin
    case leftParen => exact hparenthesized.outlasts hp htwin
    case integerLiteral => exact literal_outlasts hp (by rw [hkind]; decide) htwin
    case realLiteral => exact literal_outlasts hp (by rw [hkind]; decide) htwin
    case stringLiteral => exact literal_outlasts hp (by rw [hkind]; decide) htwin
    case identifier => exact hvar.outlasts hp htwin
    all_goals exact (Widened.unexpected (by decide)).outlasts hp htwin

theorem widened_congruence : Congruence Widened where
  pure a := .stay fun p => ⟨a, p, rfl, rfl, fun p' htwin => ⟨p', rfl, htwin⟩⟩
  bind hx hf := hx.bind hf
  note message := by
    refine .stay fun p => ⟨(), _, rfl, rfl, ?_⟩
    rintro _ ⟨k, j, rfl⟩
    exact ⟨_, rfl, k, _, rfl⟩
  current := by
    refine .stay fun p => ⟨p.current, p, rfl, rfl, ?_⟩
    rintro _ ⟨k, j, rfl⟩
    exact ⟨_, rfl, k, j, rfl⟩
  check kind := by
    refine .stay fun p => ⟨_, p, rfl, rfl, ?_⟩
    rintro _ ⟨k, j, rfl⟩
    exact ⟨_, rfl, k, j, rfl⟩
  peekKind := .peekKind
  advance := .advance
  unexpected h := .unexpected h
  newId := by
    refine .stay fun p => ⟨p.nextId, _, rfl, rfl, ?_⟩
    rintro _ ⟨k, j, rfl⟩
    exact ⟨_, rfl, k, j, rfl⟩
  bounded hf := by
    refine ⟨fun {p} hp => (hf p.total).stops hp, ?_⟩
    rintro p _ hp ⟨k, j, rfl⟩
    exact (hf p.total).outlasts hp ⟨k, j, rfl⟩
  factorOf hsigned hparenthesized hvariable := .factorOf hsigned hparenthesized hvariable

/-- The limit makes no difference up to the token at which it is reached. -/
theorem wholeProgram_widened {n m : Nat} (hnm : n ≤ m) :
    Widened (wholeProgram n) (wholeProgram m) := by
  refine widened_congruence.wholeProgram ⟨hnm, ?_, fun _ h => .tooDeep h.stops⟩
  exact .tooDeep fun {p} _ => .error rfl p.leaves_row

end Rule

/-! ### Programs -/

/-- The index of the token at which reading fails, if it does. -/
def failureIndex? (tokens : List Token) (settings : Settings) (j : Journal) : Option Nat :=
  let p := Parser.ofTokens tokens settings j
  match Rule.wholeProgram settings.maxNesting p with
  | .ok _ _ => none
  | .error e q => some (p.row.length - (q.refused e).length)

section

variable {tokens : List Token} {settings : Settings} {j : Journal} {e : SyntaxError}
    {q : Parser}

theorem Parser.ended_ofTokens (tokens : List Token) (settings : Settings) (j : Journal) :
    (Parser.ofTokens tokens settings j).Ended := by
  cases tokens with
  | nil => exact ⟨[], _, rfl, rfl⟩
  | cons t ts =>
      by_cases hlast : (ts.getLastD t).kind = .endOfText
      · have hrow : (Parser.ofTokens (t :: ts) settings j).row = t :: ts := by
          simp only [Parser.ofTokens, Parser.row, if_pos hlast]
        rcases List.eq_nil_or_concat ts with rfl | ⟨us, u, rfl⟩
        · exact ⟨[], t, hrow, hlast⟩
        · exact ⟨t :: us, u, hrow.trans (by simp), by simpa using hlast⟩
      · refine ⟨t :: ts, ⟨.endOfText, none, (ts.getLastD t).position⟩, ?_, rfl⟩
        simp only [Parser.ofTokens, Parser.row, if_neg hlast, List.cons_append]

theorem Parser.row_ofTokens_congr (tokens : List Token) (s s' : Settings) :
    (Parser.ofTokens tokens s j).row = (Parser.ofTokens tokens s' j).row := by
  cases tokens <;> rfl

theorem Parser.twin_ofTokens (tokens : List Token) (settings : Settings) (j : Journal)
    (n m : Nat) :
    (Parser.ofTokens tokens { settings with maxNesting := n } j).Twin
      (Parser.ofTokens tokens { settings with maxNesting := m } j) := by
  cases tokens <;> exact ⟨m, j, rfl⟩

/-- What is read up to an error stands at the beginning, and the index is that of the next
token. -/
theorem exists_failureIndex?
    (h : Rule.wholeProgram settings.maxNesting (.ofTokens tokens settings j) = .error e q) :
    ∃ ts rest, (Parser.ofTokens tokens settings j).row = ts ++ e.token :: rest ∧ Endless ts ∧
      q.refused e = e.token :: rest ∧ failureIndex? tokens settings j = some ts.length := by
  have hstops := (Rule.wholeProgram_widened (Nat.le_refl settings.maxNesting)).stops
    (Parser.ended_ofTokens tokens settings j)
  rw [h] at hstops
  cases hstops with
  | @error _ _ rest he hleaves =>
      obtain ⟨ts, hrow, hts⟩ := hleaves
      refine ⟨ts, rest, hrow, hts, he, ?_⟩
      simp only [failureIndex?, h, hrow, he, List.length_append, Nat.add_sub_cancel]

theorem body_append {ts us : List Token} (hts : Endless ts) :
    body (ts ++ us) = ts ++ body us := by
  induction ts with
  | nil => rfl
  | cons t ts ih =>
      obtain ⟨ht, hts⟩ := endless_cons.mp hts
      rw [List.cons_append, body_cons ht, ih hts, List.cons_append]

theorem Parser.At.body_row {p : Parser} {us : List Token} {i : NodeId} (h : p.At us i) :
    body p.row = us := by
  obtain ⟨e, rest, hrow, he⟩ := h.tokens
  rw [Parser.row, hrow, body_append h.inside, body_cons_endOfText he, List.append_nil]

/-- Where the nesting is too deep, as many levels are open as the limit allows. -/
theorem exists_openProgram {t : Token} {k : Nat}
    (h : Rule.wholeProgram settings.maxNesting (.ofTokens tokens settings j) =
      .error (.tooDeep t k) q) :
    ∃ ts rest, (Parser.ofTokens tokens settings j).row = ts ++ t :: rest ∧ q.row = t :: rest ∧
      failureIndex? tokens settings j = some ts.length ∧
      OpenProgram settings.maxNesting (tokens.take ts.length) := by
  obtain ⟨ts, rest, hrow, hts, hq, hindex⟩ := exists_failureIndex? h
  have hp := Parser.at_ofTokens tokens settings j
  obtain ⟨ts', vs, l, hbody, hq', hopen⟩ := Rule.wholeProgram_opens _ hp h
  -- What has been read is known from both ends of the row.
  have hsame : ts ++ vs = ts' ++ vs := by
    rw [← hbody, ← hp.body_row, hrow, body_append hts, ← hq, ← hq'.body_row]
    rfl
  obtain rfl := List.append_cancel_right hsame
  have hprefix : ts <+: tokens :=
    (List.prefix_append ts vs).trans (hbody ▸ List.takeWhile_prefix _)
  exact ⟨ts, rest, hrow, hq, hindex, List.prefix_iff_eq_take.mp hprefix ▸ hopen⟩

theorem parseProgram_eq_error {e : SyntaxError}
    (h : (parseProgram tokens settings j).1 = .error e) :
    ∃ q, Rule.wholeProgram settings.maxNesting (.ofTokens tokens settings j) = .error e q := by
  rw [parseProgram] at h
  split at h
  · cases h
  next e' q hread =>
    cases h
    exact ⟨q, hread⟩

end

/-- **The limit on nesting only adds its own error.** Read any tokens with room for `n` levels
and with room for `m`, where `m` is not less. If the first does not fail because the nesting is
too deep, then both come to the same: the same program, with the same numbers and positions, or
the same error. If it does so fail, at the token of index `i`, then `n` levels are open there,
and the second succeeds, or fails at that token or at a later one. -/
theorem nesting_limit_adds_one_error (tokens : List Token) (settings : Settings) (j : Journal)
    (n m : Nat) (hnm : n ≤ m) :
    let read (limit : Nat) := (parseProgram tokens { settings with maxNesting := limit } j).1
    let index (limit : Nat) := failureIndex? tokens { settings with maxNesting := limit } j
    let row := (Parser.ofTokens tokens settings j).row
    ((∀ e, read n = .error e → e.code ≠ .nestingTooDeep) → read m = read n) ∧
      ∀ e, read n = .error e → e.code = .nestingTooDeep →
        ∃ i, index n = some i ∧ row[i]? = some e.token ∧ OpenProgram n (tokens.take i) ∧
          ∀ e', read m = .error e' → ∃ i', index m = some i' ∧ row[i']? = some e'.token ∧
          i ≤ i' := by
  intro read index row
  have htwin := Parser.twin_ofTokens tokens settings j n m
  have hend := (Rule.wholeProgram_widened hnm).outlasts (Parser.ended_ofTokens _ _ _) htwin
  constructor
  · intro hread
    simp only [read, parseProgram] at hread ⊢
    generalize Rule.wholeProgram n _ = r at hend hread
    generalize Rule.wholeProgram m _ = r' at hend
    cases hend with
    | ok hq => rfl
    | error hq => rfl
    | deep hr => exact absurd rfl (hread _ rfl)
  · intro e hread hcode
    obtain ⟨q, hq⟩ := parseProgram_eq_error hread
    cases e with
    | unexpected t expected => cases hcode
    | tooDeep t k =>
        have hat {us rest : List Token} {u : Token} (h : row = us ++ u :: rest) :
            row[us.length]? = some u := by simp [h]
        obtain ⟨ts, rest, hrow, hqrow, hindex, hopen⟩ := exists_openProgram hq
        rw [Parser.row_ofTokens_congr tokens _ settings] at hrow
        refine ⟨ts.length, hindex, hat hrow, hopen, ?_⟩
        intro e' hread'
        obtain ⟨q', hq'⟩ := parseProgram_eq_error hread'
        obtain ⟨ts', rest', hrow', -, hrefused, hindex'⟩ := exists_failureIndex? hq'
        rw [Parser.row_ofTokens_congr tokens _ settings] at hrow'
        refine ⟨ts'.length, hindex', hat hrow', ?_⟩
        -- The rows that are left tell which of the two has come further.
        rw [hq, hq'] at hend
        have hleft := hend.length_refused_le
        have hlength := congrArg List.length (hrow.symm.trans hrow')
        rw [hrefused, hqrow] at hleft
        simp only [List.length_append, List.length_cons] at hlength hleft
        omega

/-- Tokens that are refused with an error that passes a test. -/
theorem exists_error_any (r : Except SyntaxError Program) (test : SyntaxError → Bool)
    (h : (match r with
      | .error e => test e
      | .ok _ => false) = true) :
    ∃ e, r = .error e ∧ test e = true := by
  cases r with
  | ok program => cases h
  | error e => exact ⟨e, rfl, h⟩

/-- A sign and two parentheses in the body of a program, one of them not closed. -/
def unclosedTokens : List Token :=
  (tokens "PROGRAM P; VAR X : INTEGER; BEGIN X := -((1) END.").toOption.getD []

/-- With four levels there is no room for the second parenthesis, and with five its end is
missed. -/
theorem unclosedTokens_four_levels :
    failureIndex? unclosedTokens { maxNesting := 4 } (.ofSettings {}) = some 13 ∧
      OpenProgram 4 (unclosedTokens.take 13) ∧
      failureIndex? unclosedTokens { maxNesting := 5 } (.ofSettings {}) = some 16 := by
  obtain ⟨e, he, hcode⟩ := exists_error_any
    (parseProgram unclosedTokens { maxNesting := 4 } (.ofSettings {})).1
    (fun e => e.code = .nestingTooDeep) (by decide +kernel)
  obtain ⟨i, hi, -, hopen, -⟩ :=
    (nesting_limit_adds_one_error unclosedTokens {} (.ofSettings {}) 4 5
      (by decide)).2 e he (of_decide_eq_true hcode)
  have hfour : failureIndex? unclosedTokens { maxNesting := 4 } (.ofSettings {}) =
      some 13 := by
    decide +kernel
  obtain rfl := Option.some.inj (hi.symm.trans hfour)
  exact ⟨hfour, hopen, by decide +kernel⟩

end MiniPascal

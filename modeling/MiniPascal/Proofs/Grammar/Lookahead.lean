import MiniPascal.Proofs.Grammar.Reading
import MiniPascal.Proofs.Sequencing

/-!
No rule looks past the token at which it stops. Two parsers that share their next tokens, up to
some place behind which they may have anything, do the same until the first of them has taken
all that is shared; and the second may be allowed more levels of nesting. So an error at a
shared token is an error whatever comes later, unless it is that the nesting is too deep.

Each rule is compared with itself, or with the same rule at more levels, along the combinators
that it is made of. That loops are given enough rounds is part of it: every round takes a
token.
-/

namespace MiniPascal

/-- The tokens from the current one on. -/
def Parser.row (p : Parser) : List Token := p.current :: p.ahead

/-- The last token is the end of the text. -/
def Parser.Ended (p : Parser) : Prop := ∃ ts e, p.row = ts ++ [e] ∧ e.kind = .endOfText

theorem Parser.Ended.of_suffix {p q : Parser} (hp : p.Ended) (h : q.row <:+ p.row) :
    q.Ended := by
  obtain ⟨ts, e, hrow, he⟩ := hp
  rw [hrow] at h
  rcases List.suffix_concat_iff.mp h with hnil | ⟨us, hus, -⟩
  · cases hnil
  · exact ⟨us, e, hus, he⟩

/-- The first tokens are the same, and at least the current one is among them. Behind them
there is `rest` for one parser and `rest'` for the other. -/
structure Parser.Shares (rest rest' : List Token) (p p' : Parser) : Prop where
  rows : ∃ t ts, p.row = t :: (ts ++ rest) ∧ p'.row = t :: (ts ++ rest')
  ended : p.Ended
  nextId : p.nextId = p'.nextId
  total : p.row.length ≤ p.total
  total' : p'.row.length ≤ p'.total

/-- What is not shared makes the difference in length. -/
theorem Parser.Shares.length_row {rest rest' : List Token} {p p' : Parser}
    (h : p.Shares rest rest' p') :
    p.row.length + rest'.length = p'.row.length + rest.length := by
  obtain ⟨t, ts, hrow, hrow'⟩ := h.rows
  simp only [hrow, hrow', List.length_cons, List.length_append]
  omega

namespace Rule

/-- Where a rule stops, whether it succeeds or not. -/
def stop {α : Type} : EStateM.Result SyntaxError Parser α → Parser
  | .ok _ q => q
  | .error _ q => q

variable {α β : Type} {rest rest' : List Token}

/-- How the same rule ends for two parsers that share tokens: in the same way, or the first has
taken all tokens that are shared, or has failed because its nesting is too deep. -/
inductive Tracks (rest rest' : List Token) :
    EStateM.Result SyntaxError Parser α → EStateM.Result SyntaxError Parser α → Prop
  | ok {a : α} {q q' : Parser} : q.Shares rest rest' q' →
      Tracks rest rest' (.ok a q) (.ok a q')
  | error {e : SyntaxError} {q q' : Parser} : Tracks rest rest' (.error e q) (.error e q')
  | past {r r' : EStateM.Result SyntaxError Parser α} :
      (stop r).row.length ≤ rest.length → Tracks rest rest' r r'
  | deep {t : Token} {n : Nat} {q : Parser} {r' : EStateM.Result SyntaxError Parser α} :
      Tracks rest rest' (.error (.tooDeep t n) q) r'

/-- The rule only moves forward. -/
def Forward (r : Rule α) : Prop := ∀ p, (stop (r p)).row <:+ p.row

structure Follows (rest rest' : List Token) (r r' : Rule α) : Prop where
  forward : Forward r
  tracks {p p' : Parser} : p.Shares rest rest' p' → Tracks rest rest' (r p) (r' p')

theorem Forward.of_follows {r r' : Rule α} (h : Follows [] [] r r') : Forward r := h.forward

/-- Where a token of the kind is next, the rule takes it, whatever comes of the rest. -/
def Takes (kind : Token.Kind) (r : Rule α) : Prop :=
  ∀ ⦃p : Parser⦄, p.Ended → p.current.kind = kind → (stop (r p)).row.length < p.row.length

/-! ### Sequence -/

section Sequence

variable {x x' : Rule α} {f f' : α → Rule β}

theorem Forward.bind (hx : Forward x) (hf : ∀ a, Forward (f a)) : Forward (x >>= f) := by
  intro p
  have hp := hx p
  cases h : x p with
  | ok a q =>
      rw [h] at hp
      rw [bind_of_ok h]
      exact (hf a q).trans hp
  | error e q =>
      rw [h] at hp
      rw [bind_of_error h]
      exact hp

theorem Tracks.bind {p p' : Parser} (hx : Tracks rest rest' (x p) (x' p'))
    (hf : ∀ a, Forward (f a)) (hnext : ∀ {a q q'}, x p = .ok a q → q.Shares rest rest' q' →
      Tracks rest rest' (f a q) (f' a q')) :
    Tracks rest rest' ((x >>= f) p) ((x' >>= f') p') := by
  generalize hr : x p = r at hx
  generalize hr' : x' p' = r' at hx
  cases hx with
  | ok hq =>
      rw [bind_of_ok hr, bind_of_ok hr']
      exact hnext hr hq
  | error =>
      rw [bind_of_error hr, bind_of_error hr']
      exact .error
  | deep =>
      rw [bind_of_error hr]
      exact .deep
  | past hpast =>
      apply Tracks.past
      cases r with
      | ok a q =>
          rw [bind_of_ok hr]
          exact Nat.le_trans (hf a q).length_le hpast
      | error e q =>
          rw [bind_of_error hr]
          exact hpast

theorem Follows.bind (hx : Follows rest rest' x x')
    (hf : ∀ a, Follows rest rest' (f a) (f' a)) :
    Follows rest rest' (x >>= f) (x' >>= f') where
  forward := hx.forward.bind fun a => (hf a).forward
  tracks h := (hx.tracks h).bind (fun a => (hf a).forward) fun _ hq => (hf _).tracks hq

theorem Takes.bind {kind : Token.Kind} (hx : Takes kind x) (hf : ∀ a, Forward (f a)) :
    Takes kind (x >>= f) := by
  intro p hp hkind
  have hlt := hx hp hkind
  cases h : x p with
  | ok a q =>
      rw [h] at hlt
      rw [bind_of_ok h]
      exact Nat.lt_of_le_of_lt (hf a q).length_le hlt
  | error e q =>
      rw [h] at hlt
      rw [bind_of_error h]
      exact hlt

end Sequence

/-! ### Single tokens -/

theorem Forward.stay {r : Rule α} (h : ∀ p, (stop (r p)).row = p.row) : Forward r :=
  fun p => h p ▸ List.suffix_refl _

theorem Follows.pure (a : α) : Follows rest rest' (pure a) (pure a) :=
  ⟨.stay fun _ => rfl, fun h => .ok h⟩

theorem Follows.note (message : Unit → String) :
    Follows rest rest' (note message) (note message) :=
  ⟨.stay fun _ => rfl, fun h => .ok ⟨h.rows, h.ended, h.nextId, h.total, h.total'⟩⟩

theorem Follows.newId : Follows rest rest' newId newId where
  forward := .stay fun _ => rfl
  tracks {p p'} h := by
    rw [Rule.newId, Rule.newId, h.nextId]
    exact .ok ⟨h.rows, h.ended, rfl, h.total, h.total'⟩

theorem Follows.tooDeep (r' : Rule α) : Follows rest rest' tooDeep r' :=
  ⟨.stay fun _ => rfl, fun _ => .deep⟩

theorem current_of_shares {p p' : Parser} (h : p.Shares rest rest' p') :
    p.current = p'.current := by
  obtain ⟨t, ts, hrow, hrow'⟩ := h.rows
  exact (List.cons.inj hrow).1.trans (List.cons.inj hrow').1.symm

theorem Follows.current : Follows rest rest' current current where
  forward := .stay fun _ => rfl
  tracks h := by
    rw [Rule.current, Rule.current, current_of_shares h]
    exact .ok h

theorem Follows.check (kind : Token.Kind) : Follows rest rest' (check kind) (check kind) where
  forward := .stay fun _ => rfl
  tracks h := by
    rw [Rule.check, Rule.check, current_of_shares h]
    exact .ok h

theorem Follows.unexpected (expected : String) :
    Follows rest rest' (unexpected expected : Rule α) (unexpected expected) where
  forward := .stay fun _ => rfl
  tracks h := by
    rw [Rule.unexpected, Rule.unexpected, current_of_shares h]
    exact .error

theorem advance_of_endOfText {p : Parser} (hp : p.current.kind = .endOfText) :
    advance p = .ok p.current p := by
  rw [advance]
  split
  · rfl
  · rw [if_pos hp]

theorem advance_of_cons {p : Parser} {t : Token} {ts : List Token}
    (hp : p.current.kind ≠ .endOfText) (hahead : p.ahead = t :: ts) :
    advance p = .ok p.current { p with current := t, ahead := ts } := by
  rw [advance, hahead]
  exact if_neg hp

/-- Only the end of the text has nothing after it. -/
theorem exists_ahead {p : Parser} (h : p.Ended) (hp : p.current.kind ≠ .endOfText) :
    ∃ t ts, p.ahead = t :: ts := by
  obtain ⟨us, e, hrow, he⟩ := h
  cases hahead : p.ahead with
  | cons t ts => exact ⟨t, ts, rfl⟩
  | nil =>
      rw [Parser.row, hahead] at hrow
      obtain ⟨rfl, hcurrent⟩ :=
        List.append_eq_singleton_iff.mp hrow.symm |>.resolve_right (by simp)
      rw [List.singleton_inj.mp hcurrent] at he
      exact absurd he hp

theorem Forward.advance : Forward advance := by
  intro p
  rw [Rule.advance]
  split
  · exact List.suffix_refl _
  next hahead =>
    split
    · exact List.suffix_refl _
    · rw [stop, Parser.row, Parser.row, hahead]
      exact List.suffix_cons _ _

theorem Follows.advance : Follows rest rest' advance advance where
  forward := .advance
  tracks {p p'} h := by
    have hcurrent := current_of_shares h
    by_cases hend : p.current.kind = .endOfText
    · rw [advance_of_endOfText hend, advance_of_endOfText (hcurrent ▸ hend), hcurrent]
      exact .ok h
    · obtain ⟨u, us, hahead⟩ := exists_ahead h.ended hend
      obtain ⟨t, ts, hrow, hrow'⟩ := h.rows
      have hrest : p.ahead = ts ++ rest := (List.cons.inj hrow).2
      have hrest' : p'.ahead = ts ++ rest' := (List.cons.inj hrow').2
      rw [advance_of_cons hend hahead]
      cases ts with
      | nil =>
          -- The only token that was shared is taken.
          refine .past (Nat.le_of_eq ?_)
          rw [stop, Parser.row, ← hahead, hrest, List.nil_append]
      | cons v ts =>
          rw [hahead] at hrest
          rw [List.cons_append] at hrest hrest'
          rw [advance_of_cons (hcurrent ▸ hend) hrest', hcurrent]
          obtain ⟨rfl, rfl⟩ := List.cons.inj hrest
          have htotal := h.total
          have htotal' := h.total'
          rw [Parser.row, hahead, List.length_cons] at htotal
          rw [Parser.row, hrest', List.length_cons] at htotal'
          refine .ok ⟨⟨u, ts, rfl, rfl⟩, ?_, h.nextId, Nat.le_of_lt htotal,
            Nat.le_of_lt htotal'⟩
          apply h.ended.of_suffix
          rw [Parser.row, Parser.row, hahead]
          exact List.suffix_cons _ _

theorem Follows.ite {c : Prop} [Decidable c] {x x' y y' : Rule α}
    (hx : Follows rest rest' x x') (hy : Follows rest rest' y y') :
    Follows rest rest' (if c then x else y) (if c then x' else y') := by
  split
  · exact hx
  · exact hy

theorem Follows.accept (kind : Token.Kind) : Follows rest rest' (accept kind) (accept kind) :=
  (Follows.check kind).bind fun _ => .ite (Follows.advance.bind fun _ => .pure _) (.pure _)

theorem Follows.eat (kind : Token.Kind) : Follows rest rest' (eat kind) (eat kind) :=
  Follows.current.bind fun _ => (Follows.note _).bind fun _ =>
    (Follows.check kind).bind fun _ => .ite .advance (.unexpected _)

theorem Follows.identifier : Follows rest rest' identifier identifier :=
  (Follows.eat _).bind fun _ => .pure _

theorem Takes.note {kind : Token.Kind} {r : Rule α} (hr : Takes kind r)
    (message : Unit → String) :
    Takes kind (Rule.note message >>= fun _ => r) :=
  fun _ hp hkind => hr hp hkind

theorem Takes.advance {kind : Token.Kind} (hkind : kind ≠ .endOfText) :
    Takes kind advance := by
  intro p hp hcurrent
  have hend : p.current.kind ≠ .endOfText := hcurrent ▸ hkind
  obtain ⟨t, ts, hahead⟩ := exists_ahead hp hend
  rw [advance_of_cons hend hahead, stop, Parser.row, Parser.row, hahead]
  exact Nat.lt_succ_self _

theorem eat_eq (kind : Token.Kind) (p : Parser) :
    ∃ j, eat kind p = if p.current.kind = kind then advance { p with journal := j }
      else unexpected kind.name { p with journal := j } := by
  refine ⟨p.journal.trace .parser fun _ => s!"eat({kind.name}) at {p.current.text}", ?_⟩
  by_cases hkind : p.current.kind = kind
  · rw [if_pos hkind]
    exact congrFun (if_pos (decide_eq_true hkind)) _
  · rw [if_neg hkind]
    exact congrFun (if_neg (mt of_decide_eq_true hkind)) _

theorem Takes.eat {kind : Token.Kind} (hkind : kind ≠ .endOfText) : Takes kind (eat kind) := by
  intro p hp hcurrent
  obtain ⟨j, heat⟩ := eat_eq kind p
  rw [heat, if_pos hcurrent]
  exact Takes.advance hkind (p := { p with journal := j }) hp hcurrent

theorem Takes.identifier : Takes .identifier identifier :=
  (Takes.eat (by decide)).bind fun _ => .stay fun _ => rfl

/-! ### Repetition -/

/-- When a step finds something, it has taken a token. -/
def StepConsumes (step : Rule (Option α)) : Prop :=
  ∀ ⦃p q : Parser⦄ ⦃a : α⦄, p.Ended → step p = .ok (some a) q → q.row.length < p.row.length

theorem Forward.collectUpTo {step : Rule (Option α)} (hstep : Forward step) (m : Nat) :
    Forward (collectUpTo step m) := by
  induction m with
  | zero => exact .stay fun _ => rfl
  | succ m ih =>
      apply hstep.bind
      rintro (_ | a)
      · exact .stay fun _ => rfl
      · exact ih.bind fun _ => .stay fun _ => rfl

theorem Tracks.collectUpTo {step step' : Rule (Option α)}
    (hstep : Follows rest rest' step step') (hconsumes : StepConsumes step) (m m' : Nat)
    {p p' : Parser} (h : p.Shares rest rest' p')
    (hm : p.row.length ≤ m) (hm' : p'.row.length ≤ m') :
    Tracks rest rest' (collectUpTo step m p) (collectUpTo step' m' p') := by
  induction m generalizing m' p p' with
  | zero => cases hm
  | succ m ih =>
      cases m' with
      | zero => cases hm'
      | succ m' =>
          refine (hstep.tracks h).bind ?_ ?_
          · rintro (_ | a)
            · exact .stay fun _ => rfl
            · exact (Forward.collectUpTo hstep.forward m).bind fun _ => .stay fun _ => rfl
          · rintro (_ | a) q q' ha hq
            · exact .ok hq
            · have hlt := hconsumes h.ended ha
              have hlength := h.length_row
              have hlength' := hq.length_row
              have hrest := ih m' hq (by omega) (by omega)
              exact hrest.bind (fun _ => .stay fun _ => rfl) fun _ hq => .ok hq

theorem Follows.collect {step step' : Rule (Option α)} (hstep : Follows rest rest' step step')
    (hconsumes : StepConsumes step) : Follows rest rest' (collect step) (collect step') where
  forward p := Forward.collectUpTo hstep.forward p.total p
  tracks h := Tracks.collectUpTo hstep hconsumes _ _ h h.total h.total'

section Repetition

variable {item item' : Rule α}

/-- A step that takes a token of the given kind first. -/
theorem Follows.preceded (kind : Token.Kind) (hitem : Follows rest rest' item item') :
    Follows rest rest' (do if ← Rule.accept kind then return some (← item) else return none)
      (do if ← Rule.accept kind then return some (← item') else return none) :=
  (Follows.accept kind).bind fun _ => .ite (hitem.bind fun _ => .pure _) (.pure _)

theorem StepConsumes.preceded {kind : Token.Kind} (hkind : kind ≠ .endOfText)
    (hitem : Forward item) :
    StepConsumes (do if ← accept kind then return some (← item) else return none) := by
  intro p q a hp h
  obtain ⟨c, p₁, hc, h⟩ := bind_eq_ok.mp h
  obtain ⟨c', p₀, hcheck, hc⟩ := bind_eq_ok.mp hc
  cases hcheck
  by_cases hcurrent : p.current.kind = kind
  · rw [decide_eq_true hcurrent] at hc
    obtain ⟨t, p₂, ht, hc⟩ := bind_eq_ok.mp hc
    obtain ⟨rfl, rfl⟩ := pure_eq_ok.mp hc
    obtain ⟨b, p₃, hb, h⟩ := bind_eq_ok.mp h
    obtain ⟨-, rfl⟩ := pure_eq_ok.mp h
    have hforward := (hitem p₂).length_le
    have htaken := Takes.advance hkind hp hcurrent
    rw [hb] at hforward
    rw [ht] at htaken
    exact Nat.lt_of_le_of_lt hforward htaken
  · rw [decide_eq_false hcurrent] at hc
    obtain ⟨rfl, rfl⟩ := pure_eq_ok.mp hc
    obtain ⟨hnone, -⟩ := pure_eq_ok.mp h
    cases hnone

/-- A step that looks for a kind and leaves it to the item. -/
theorem Follows.checked (kind : Token.Kind) (hitem : Follows rest rest' item item') :
    Follows rest rest' (do if ← Rule.check kind then return some (← item) else return none)
      (do if ← Rule.check kind then return some (← item') else return none) :=
  (Follows.check kind).bind fun _ => .ite (hitem.bind fun _ => .pure _) (.pure _)

theorem StepConsumes.checked {kind : Token.Kind} (hitem : Takes kind item) :
    StepConsumes (do if ← check kind then return some (← item) else return none) := by
  intro p q a hp h
  obtain ⟨c, p₁, hc, h⟩ := bind_eq_ok.mp h
  cases hc
  by_cases hcurrent : p.current.kind = kind
  · rw [decide_eq_true hcurrent] at h
    obtain ⟨b, p₂, hb, h⟩ := bind_eq_ok.mp h
    obtain ⟨-, rfl⟩ := pure_eq_ok.mp h
    have htaken := hitem hp hcurrent
    rw [hb] at htaken
    exact htaken
  · rw [decide_eq_false hcurrent] at h
    obtain ⟨hnone, -⟩ := pure_eq_ok.mp h
    cases hnone

theorem Follows.separated {sep : Token.Kind} (hsep : sep ≠ .endOfText)
    (hitem : Follows rest rest' item item') :
    Follows rest rest' (separated sep item) (separated sep item') :=
  hitem.bind fun _ =>
    ((Follows.preceded sep hitem).collect (.preceded hsep hitem.forward)).bind
    fun _ => .pure _

end Repetition

/-! ### Expressions -/

section Chain

variable {op? : Token.Kind → Option BinaryOp} {operand operand' : Rule Expr}

theorem Forward.joinUpTo (hoperand : Forward operand) (m : Nat) (left : Expr) :
    Forward (joinUpTo op? operand m left) := by
  induction m generalizing left with
  | zero => exact .stay fun _ => rfl
  | succ m ih =>
      apply (Forward.stay fun _ => rfl : Forward current).bind
      intro t
      cases op? t.kind with
      | none => exact .stay fun _ => rfl
      | some op => exact Forward.advance.bind fun t => hoperand.bind fun right => ih _

theorem Tracks.joinUpTo (hend : op? .endOfText = none)
    (hoperand : Follows rest rest' operand operand') (m m' : Nat) {p p' : Parser} (left : Expr)
    (h : p.Shares rest rest' p') (hm : p.row.length ≤ m)
    (hm' : p'.row.length ≤ m') :
    Tracks rest rest' (joinUpTo op? operand m left p) (joinUpTo op? operand' m' left p') := by
  induction m generalizing m' p p' left with
  | zero => cases hm
  | succ m ih =>
      cases m' with
      | zero => cases hm'
      | succ m' =>
          have hstep : Tracks rest rest' (current p) (current p') := Follows.current.tracks h
          refine hstep.bind (fun t => ?_) ?_
          · cases op? t.kind with
            | none => exact .stay fun _ => rfl
            | some op =>
                exact Forward.advance.bind fun _ => hoperand.forward.bind fun _ =>
                  Forward.joinUpTo hoperand.forward m _
          · rintro t q q' ht hq
            cases ht
            cases hop : op? p.current.kind with
            | none => exact .ok hq
            | some op =>
                have hkind : p.current.kind ≠ .endOfText := by
                  intro hkind
                  rw [hkind, hend] at hop
                  cases hop
                refine (Follows.advance.tracks hq).bind
                  (fun _ => hoperand.forward.bind
                  fun _ => Forward.joinUpTo hoperand.forward m _) ?_
                intro t q₁ q₁' hadvance hq₁
                have hlt := Takes.advance hkind hq.ended rfl
                rw [hadvance] at hlt
                simp only [stop] at hlt
                refine (hoperand.tracks hq₁).bind
                  (fun _ => Forward.joinUpTo hoperand.forward m _) ?_
                intro right q₂ q₂' hright hq₂
                have hle : (stop (operand q₁)).row.length ≤ q₁.row.length :=
                  (hoperand.forward q₁).length_le
                rw [hright, stop] at hle
                have hlength := h.length_row
                have hlength' := hq₂.length_row
                exact ih m' _ hq₂ (by omega) (by omega)

theorem Follows.chain (hend : op? .endOfText = none)
    (hoperand : Follows rest rest' operand operand') :
    Follows rest rest' (chain op? operand) (chain op? operand') := by
  apply hoperand.bind
  intro first
  exact ⟨fun p => Forward.joinUpTo hoperand.forward p.total first p,
    fun h => Tracks.joinUpTo hend hoperand _ _ first h h.total h.total'⟩

end Chain

theorem Follows.exprOf {factor factor' : Rule Expr}
    (hfactor : Follows rest rest' factor factor') :
    Follows rest rest' (exprOf factor) (exprOf factor') :=
  (Follows.note _).bind fun _ => .chain rfl (.chain rfl hfactor)

theorem Follows.variableUse : Follows rest rest' variableUse variableUse :=
  Follows.identifier.bind fun _ => Follows.newId.bind fun _ => .pure _

theorem Follows.literal : Follows rest rest' literal literal := by
  apply Follows.advance.bind
  intro t
  cases t.value with
  | none => exact ⟨.stay fun _ => rfl, fun _ => .error⟩
  | some v => exact .pure _

theorem Follows.factorOf {signed signed' : UnaryOp → Rule Expr}
    {parenthesized parenthesized' : Rule Expr}
    (hsigned : ∀ op, Follows rest rest' (signed op) (signed' op))
    (hparenthesized : Follows rest rest' parenthesized parenthesized') :
    Follows rest rest' (factorOf signed parenthesized) (factorOf signed' parenthesized') := by
  apply Follows.current.bind
  intro t
  cases t.kind
  case plus => exact hsigned .plus
  case minus => exact hsigned .minus
  case leftParen => exact hparenthesized
  case integerLiteral => exact .literal
  case realLiteral => exact .literal
  case stringLiteral => exact .literal
  case identifier => exact Follows.variableUse.bind fun _ => .pure _
  all_goals exact .unexpected _

theorem Follows.factor {n m : Nat} (hnm : n ≤ m) :
    Follows rest rest' (factor n) (factor m) := by
  induction n generalizing m with
  | zero =>
      cases m with
      | zero => exact .factorOf (fun _ => .tooDeep _) (.tooDeep _)
      | succ m => exact .factorOf (fun _ => .tooDeep _) (.tooDeep _)
  | succ n ih =>
      cases m with
      | zero => cases hnm
      | succ m =>
          have hfactor := ih (Nat.le_of_succ_le_succ hnm)
          refine .factorOf (fun op => ?_) ?_
          · exact Follows.advance.bind fun _ => hfactor.bind fun _ => .pure _
          · exact Follows.advance.bind fun _ => hfactor.exprOf.bind fun _ =>
              (Follows.eat _).bind fun _ => .pure _

theorem Follows.expr {n m : Nat} (hnm : n ≤ m) : Follows rest rest' (expr n) (expr m) :=
  (Follows.factor hnm).exprOf

/-! ### Statements -/

section Statements

variable {expr expr' : Rule Expr} {compound compound' : Rule (List Statement)}

theorem Follows.arguments (hexpr : Follows rest rest' expr expr') :
    Follows rest rest' (arguments expr) (arguments expr') := by
  refine (Follows.accept _).bind fun _ => .ite ?_ (.pure _)
  refine (Follows.check _).bind fun _ => .ite ?_ ?_
  · exact (Follows.pure _).bind fun _ => (Follows.eat _).bind fun _ => .pure _
  · exact (Follows.separated (by decide) hexpr).bind
      fun _ => (Follows.eat _).bind fun _ => .pure _

theorem Follows.assignment (hexpr : Follows rest rest' expr expr') :
    Follows rest rest' (assignment expr) (assignment expr') :=
  (Follows.note _).bind fun _ => Follows.variableUse.bind
    fun _ => (Follows.eat _).bind fun _ =>
    hexpr.bind fun _ => .pure _

theorem Follows.call (hexpr : Follows rest rest' expr expr') :
    Follows rest rest' (call expr) (call expr') :=
  (Follows.note _).bind fun _ => Follows.identifier.bind fun _ => hexpr.arguments.bind fun _ =>
    Follows.newId.bind fun _ => .pure _

theorem Follows.write (hexpr : Follows rest rest' expr expr') :
    Follows rest rest' (write expr) (write expr') :=
  Follows.advance.bind fun _ => hexpr.arguments.bind fun _ => .pure _

theorem exists_peekKind (p : Parser) : ∃ k, peekKind p = .ok k p := by
  rw [peekKind]
  split
  · exact ⟨_, rfl⟩
  · exact ⟨_, rfl⟩

theorem peekKind_of_cons {p : Parser} {t : Token} {ts : List Token} (h : p.ahead = t :: ts) :
    peekKind p = .ok t.kind p := by
  rw [peekKind, h]

/-- The word after an identifier decides what it starts. If the identifier is the last token
that is shared, that word need not be the same; but the identifier is taken in either case. -/
theorem Tracks.identified (hexpr : Follows rest rest' expr expr') {p p' : Parser}
    (h : p.Shares rest rest' p') (hkind : p.current.kind = .identifier) :
    Tracks rest rest'
      ((do
        if (← peekKind) = Token.Kind.assign then assignment expr
        else return Statement.call (← call expr)) p)
      ((do
        if (← peekKind) = Token.Kind.assign then assignment expr'
        else return Statement.call (← call expr')) p') := by
  have hassignment := hexpr.assignment
  have hcall : Follows rest rest' (do return Statement.call (← call expr))
    (do return Statement.call (← call expr')) := hexpr.call.bind fun _ => .pure _
  obtain ⟨t, ts, hrow, hrow'⟩ := h.rows
  have hahead : p.ahead = ts ++ rest := (List.cons.inj hrow).2
  have hahead' : p'.ahead = ts ++ rest' := (List.cons.inj hrow').2
  cases ts with
  | nil =>
      have hassigned : Takes .identifier (assignment expr) :=
        ((Takes.identifier.bind fun _ =>
          .of_follows (Follows.newId.bind fun _ => .pure _)).bind
          fun _ => (Forward.of_follows (Follows.eat _)).bind fun _ =>
            hexpr.forward.bind fun _ => .stay fun _ => rfl).note _
      have hcalled : Takes .identifier (do return Statement.call (← call expr)) :=
        ((Takes.identifier.bind fun _ => hexpr.arguments.forward.bind fun _ =>
          .of_follows (Follows.newId.bind fun _ => .pure _)).note _).bind
            fun _ => .stay fun _ => rfl
      have htaken : Takes .identifier (do
          if (← peekKind) = Token.Kind.assign then assignment expr
          else return Statement.call (← call expr)) := by
        intro p hp hkind
        obtain ⟨k, hk⟩ := exists_peekKind p
        rw [bind_of_ok hk]
        split
        · exact hassigned hp hkind
        · exact hcalled hp hkind
      apply Tracks.past
      have hlt := htaken h.ended hkind
      rw [hrow, List.nil_append, List.length_cons] at hlt
      exact Nat.le_of_lt_succ hlt
  | cons v ts =>
      rw [List.cons_append] at hahead hahead'
      rw [bind_of_ok (peekKind_of_cons hahead), bind_of_ok (peekKind_of_cons hahead')]
      exact (Follows.ite hassignment hcall).tracks h

theorem Forward.peekKind : Forward peekKind := by
  intro p
  obtain ⟨k, hk⟩ := exists_peekKind p
  rw [hk]
  exact List.suffix_refl _

theorem Follows.statementOf (hcompound : Follows rest rest' compound compound')
    (hexpr : Follows rest rest' expr expr') :
    Follows rest rest' (statementOf compound expr) (statementOf compound' expr') where
  forward := by
    apply (Forward.of_follows Follows.current).bind
    intro t
    cases t.kind
    case beginBlock => exact hcompound.forward.bind fun _ => .stay fun _ => rfl
    case identifier =>
      exact Forward.peekKind.bind fun _ =>
        (Follows.ite hexpr.assignment (hexpr.call.bind fun _ => .pure _)).forward
    case write => exact hexpr.write.forward
    case writeln => exact hexpr.write.forward
    all_goals exact .stay fun _ => rfl
  tracks {p p'} h := by
    have hcurrent : Rule.current p = .ok p.current p := rfl
    have hcurrent' : Rule.current p' = .ok p.current p' := by
      rw [Rule.current, current_of_shares h]
    rw [Rule.statementOf, Rule.statementOf, bind_of_ok hcurrent, bind_of_ok hcurrent']
    cases hkind : p.current.kind
    case beginBlock => exact (hcompound.bind fun _ => .pure _).tracks h
    case identifier => exact .identified hexpr h hkind
    case write => exact hexpr.write.tracks h
    case writeln => exact hexpr.write.tracks h
    all_goals exact .ok h

end Statements

theorem Follows.compound {n m : Nat} (hnm : n ≤ m) :
    Follows rest rest' (compound n) (compound m) := by
  induction n generalizing m with
  | zero => exact ⟨.stay fun _ => rfl, fun _ => .deep⟩
  | succ n ih =>
      cases m with
      | zero => cases hnm
      | succ m =>
          have hnm := Nat.le_of_succ_le_succ hnm
          exact (Follows.note _).bind fun _ => (Follows.eat _).bind fun _ =>
            (Follows.separated (by decide) ((ih hnm).statementOf (.expr hnm))).bind fun _ =>
              (Follows.eat _).bind fun _ => .pure _

/-! ### Declarations -/

theorem Follows.typeName : Follows rest rest' typeName typeName := by
  apply Follows.current.bind
  intro t
  cases t.kind
  case integer => exact Follows.advance.bind fun _ => .pure _
  case real => exact Follows.advance.bind fun _ => .pure _
  case string => exact Follows.advance.bind fun _ => .pure _
  all_goals exact .unexpected _

theorem Follows.variableGroup : Follows rest rest' variableGroup variableGroup :=
  (Follows.separated (by decide) .identifier).bind fun _ => (Follows.eat _).bind fun _ =>
    Follows.typeName.bind fun _ => .pure _

theorem Follows.line :
    Follows rest rest'
      (do let decls ← Rule.variableGroup; let _ ← Rule.eat .semicolon; return decls)
      (do let decls ← Rule.variableGroup; let _ ← Rule.eat .semicolon; return decls) :=
  Follows.variableGroup.bind fun _ => (Follows.eat _).bind fun _ => .pure _

theorem Takes.variableGroup : Takes .identifier variableGroup := by
  have hnames : Takes .identifier (separated .comma Rule.identifier) :=
    Takes.identifier.bind fun _ => .of_follows (((Follows.preceded _ .identifier).collect
      (.preceded (by decide) (.of_follows .identifier))).bind fun _ => .pure _)
  exact hnames.bind fun _ => .of_follows ((Follows.eat _).bind fun _ => Follows.typeName.bind
    fun _ => .pure _)

theorem Takes.line :
    Takes .identifier
      (do let decls ← Rule.variableGroup; let _ ← Rule.eat .semicolon; return decls) :=
  Takes.variableGroup.bind fun _ => .of_follows ((Follows.eat _).bind fun _ => .pure _)

theorem Follows.variableSection : Follows rest rest' variableSection variableSection :=
  Follows.line.bind fun _ => ((Follows.checked _ .line).collect (.checked .line)).bind
    fun _ => .pure _

section Blocks

variable {block block' : Rule Block}

theorem procedureOf_follows (hblock : Follows rest rest' block block') :
    Follows rest rest' (procedureOf block) (procedureOf block') ∧
      Takes .procedure (procedureOf block) := by
  -- What comes after the first word is the same for both parts.
  have hstart {message : Unit → String} {f f' : Token → Rule Procedure}
      (hf : ∀ t, Follows rest rest' (f t) (f' t)) :
      Follows rest rest' (note message >>= fun _ => eat .procedure >>= f)
          (note message >>= fun _ => eat .procedure >>= f') ∧
        Takes .procedure (note message >>= fun _ => eat .procedure >>= f) :=
    ⟨(Follows.note _).bind fun _ => (Follows.eat _).bind hf,
      ((Takes.eat (by decide)).bind fun t => (hf t).forward).note _⟩
  have hrest (name : String) (position : Position) (params : List VarDecl) : Follows rest rest'
      (do
        let _ ← eat .semicolon
        let block ← block
        let _ ← eat .semicolon
        return Procedure.mk name position params block)
      (do
        let _ ← eat .semicolon
        let block ← block'
        let _ ← eat .semicolon
        return Procedure.mk name position params block) :=
    (Follows.eat _).bind fun _ => hblock.bind fun _ => (Follows.eat _).bind fun _ => .pure _
  refine hstart fun _ => Follows.identifier.bind fun _ => ?_
  refine (Follows.accept _).bind fun _ => .ite ?_ ((Follows.pure _).bind fun _ => hrest _ _ _)
  refine (Follows.check _).bind fun _ => .ite ?_ ?_
  · exact ((Follows.separated (by decide) .variableGroup).bind fun _ => .pure _).bind fun _ =>
      (Follows.eat _).bind fun _ => (Follows.pure _).bind fun _ => hrest _ _ _
  · exact (Follows.pure _).bind fun _ => (Follows.eat _).bind
      fun _ => (Follows.pure _).bind fun _ =>
      hrest _ _ _

theorem Follows.declarationsOf (hblock : Follows rest rest' block block') :
    Follows rest rest' (declarationsOf block) (declarationsOf block') := by
  obtain ⟨hprocedure, htakes⟩ := procedureOf_follows hblock
  refine (Follows.note _).bind fun _ => Follows.bind (Follows.collect ?_ ?_) fun _ =>
    Follows.bind (Follows.collect ?_ ?_) fun _ => .pure _
  · exact .preceded _ .variableSection
  · exact .preceded (by decide) (.of_follows .variableSection)
  · exact .checked _ hprocedure
  · exact .checked htakes

end Blocks

theorem Follows.block {n m : Nat} (hnm : n ≤ m) : Follows rest rest' (block n) (block m) := by
  induction n generalizing m with
  | zero => exact .tooDeep _
  | succ n ih =>
      cases m with
      | zero => cases hnm
      | succ m =>
          have hnm := Nat.le_of_succ_le_succ hnm
          exact (ih hnm).declarationsOf.bind fun _ =>
            (Follows.compound hnm).bind fun _ => .pure _

theorem Follows.program {n m : Nat} (hnm : n ≤ m) :
    Follows rest rest' (program n) (program m) :=
  (Follows.note _).bind fun _ => (Follows.eat _).bind fun _ => Follows.identifier.bind fun _ =>
    (Follows.eat _).bind fun _ => (Follows.block hnm).bind
      fun _ => (Follows.eat _).bind fun _ => .pure _

/-- An error at a token that is shared is found whatever comes later, also where more levels
may be opened. -/
theorem Follows.wholeProgram {n m : Nat} (hnm : n ≤ m) :
    Follows rest rest' (wholeProgram n) (wholeProgram m) :=
  (Follows.note _).bind fun _ => (Follows.program hnm).bind
    fun _ => (Follows.eat _).bind fun _ => .pure _

end Rule

end MiniPascal

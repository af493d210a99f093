import MiniPascal.Proofs.Grammar.FirstMisfit
import MiniPascal.Proofs.Grammar.Watching

/-!
The rules of the grammar agree with the rules under watch. Wherever a parser stands, a rule
comes to the same end with and without watching. Nothing is cut off, since every round of a
loop takes a token and every step of a recursion takes a level; each level that is opened is
closed again, whether the rule succeeds or fails; and what a rule builds when it succeeds is
what its result holds.

Each rule is followed along the combinators that it is made of.
-/

namespace MiniPascal

/-! ### Where a parser gets -/

/-- From `p` tokens are taken up to `q`, none of which is the end of the text. -/
structure Parser.Reaches (p q : Parser) : Prop where
  taken : ∃ ts, p.row = ts ++ q.row ∧ Grammar.Endless ts
  nextId : p.nextId ≤ q.nextId
  total : q.total = p.total
  maxNesting : q.maxNesting = p.maxNesting

namespace Parser.Reaches

variable {p q r : Parser}

theorem refl (p : Parser) : p.Reaches p :=
  ⟨⟨[], rfl, Grammar.endless_nil⟩, Nat.le_refl _, rfl, rfl⟩

theorem trans (hpq : p.Reaches q) (hqr : q.Reaches r) : p.Reaches r where
  taken := by
    obtain ⟨ts, hts, htsEndless⟩ := hpq.taken
    obtain ⟨us, hus, husEndless⟩ := hqr.taken
    refine ⟨ts ++ us, ?_, Grammar.endless_append.mpr ⟨htsEndless, husEndless⟩⟩
    rw [hts, hus, List.append_assoc]
  nextId := hpq.nextId.trans hqr.nextId
  total := hqr.total.trans hpq.total
  maxNesting := hqr.maxNesting.trans hpq.maxNesting

theorem suffix (h : p.Reaches q) : q.row <:+ p.row := by
  obtain ⟨ts, hts, -⟩ := h.taken
  exact ⟨ts, hts.symm⟩

end Parser.Reaches

namespace Watch

/-- What holds of a watched parser all the time. -/
structure Sound (w : Watch) : Prop where
  ended : w.parser.Ended
  rounds : w.parser.row.length ≤ w.parser.total
  numbered : w.built.map Use.id = List.range w.parser.nextId
  uncut : w.cut = false

/-- From `v` the watched parser gets to `w`, where as many levels are open. -/
structure Leads (v w : Watch) : Prop where
  reaches : v.parser.Reaches w.parser
  sound : w.Sound
  depth : w.depth = v.depth
  built : v.built <+: w.built

variable {u v w : Watch}

theorem Leads.refl (h : w.Sound) : w.Leads w := ⟨.refl _, h, rfl, List.prefix_refl _⟩

theorem Leads.trans (huv : u.Leads v) (hvw : v.Leads w) : u.Leads w :=
  ⟨huv.reaches.trans hvw.reaches, hvw.sound, hvw.depth.trans huv.depth,
    huv.built.trans hvw.built⟩

/-- As many levels may still be opened. -/
theorem Leads.levels (h : v.Leads w) {levels : Nat}
    (hv : v.depth + levels = v.parser.maxNesting) :
    w.depth + levels = w.parser.maxNesting := by
  rw [h.depth, h.reaches.maxNesting, hv]

/-- A parser that has only taken tokens. -/
theorem Sound.moved (h : w.Sound) {q : Parser} (hreaches : w.parser.Reaches q)
    (hid : q.nextId = w.parser.nextId) : w.Leads { w with parser := q } where
  reaches := hreaches
  depth := rfl
  built := List.prefix_refl _
  sound :=
    { ended := h.ended.of_suffix hreaches.suffix
      rounds := by
        have hle := hreaches.suffix.length_le
        rw [hreaches.total]
        exact hle.trans h.rounds
      numbered := by rw [hid, h.numbered]
      uncut := h.uncut }

/-- A parser that has built a node. -/
theorem Sound.numbers (h : w.Sound) {use : Use} (hid : use.id = w.parser.nextId) :
    w.Leads { w with
      parser :=
        { w.parser with nextId := w.parser.nextId + 1 }, built := w.built ++ [use] } where
  reaches := ⟨⟨[], rfl, Grammar.endless_nil⟩, Nat.le_succ _, rfl, rfl⟩
  depth := rfl
  built := List.prefix_append _ _
  sound :=
    { ended := h.ended
      rounds := h.rounds
      numbered := by rw [List.map_append, h.numbered, List.range_succ, List.map_singleton, hid]
      uncut := h.uncut }

theorem Sound.withDepth (h : w.Sound) (depth : Nat) : { w with depth := depth }.Sound :=
  ⟨h.ended, h.rounds, h.numbered, h.uncut⟩

/-- A level that was opened is closed. -/
theorem Leads.closed (h : { v with depth := v.depth + 1 }.Leads w) :
    v.Leads { w with depth := w.depth - 1 } where
  reaches := h.reaches
  sound := h.sound.withDepth _
  depth := by rw [h.depth, Nat.add_sub_cancel]
  built := h.built

end Watch

namespace Watched

variable {α β : Type}

/-! ### Agreement -/

/-- A rule ends in the same way under watch. If it succeeds, then `nodes` tells what has been
built on top of `old`. -/
inductive Ends (w : Watch) (old : List Use) (nodes : α → List Use) :
    EStateM.Result SyntaxError Parser α → EStateM.Result SyntaxError Watch α → Prop
  | ok {a : α} {w' : Watch} : w.Leads w' → w'.built = old ++ nodes a →
      Ends w old nodes (.ok a w'.parser) (.ok a w')
  | error {e : SyntaxError} {w' : Watch} : w.Leads w' →
      Ends w old nodes (.error e w'.parser) (.error e w')

/-- A rule that may open `levels` more levels, and the same rule under watch. The nodes in
`known` are built before it, as parts of what it reads. -/
def Agrees (levels : Nat) (known : List Use) (r : Rule α) (x : Watched α)
    (nodes : α → List Use) : Prop :=
  ∀ ⦃w : Watch⦄ ⦃old : List Use⦄, w.Sound → w.depth + levels = w.parser.maxNesting →
    w.built = old ++ known → Ends w old nodes (r w.parser) (x w)

variable {levels : Nat} {known : List Use} {nodes : α → List Use} {nodes' : β → List Use}

theorem Ends.after {v w : Watch} {old : List Use} {ρ : EStateM.Result SyntaxError Parser α}
    {ξ : EStateM.Result SyntaxError Watch α} (h : Ends w old nodes ρ ξ) (hvw : v.Leads w) :
    Ends v old nodes ρ ξ := by
  cases h with
  | ok hleads hbuilt => exact .ok (hvw.trans hleads) hbuilt
  | error hleads => exact .error (hvw.trans hleads)

section Sequence

variable {r : Rule α} {f : α → Rule β} {x : Watched α} {g : α → Watched β} {w : Watch}
    {old : List Use}

theorem Ends.bind (hx : Ends w w.built nodes (r w.parser) (x w))
    (hf : ∀ {a w'}, r w.parser = .ok a w'.parser → w.Leads w' → w'.built = w.built ++ nodes a →
      Ends w' old nodes' (f a w'.parser) (g a w')) :
    Ends w old nodes' ((r >>= f) w.parser) ((x >>= g) w) := by
  change Ends w old nodes' (EStateM.bind r f w.parser) (EStateM.bind x g w)
  unfold EStateM.bind
  generalize hρ : r w.parser = ρ at hx
  generalize x w = ξ at hx
  cases hx with
  | ok hleads hbuilt => exact (hf hρ hleads hbuilt).after hleads
  | error hleads => exact .error hleads

theorem Agrees.pure {a : α} (h : known = nodes a) :
    Agrees levels known (Pure.pure a) (Pure.pure a) nodes := by
  intro w old hw _ hbuilt
  exact .ok (.refl hw) (h ▸ hbuilt)

theorem Agrees.bind (hx : Agrees levels [] r x nodes)
    (hf : ∀ a, Agrees levels (known ++ nodes a) (f a) (g a) nodes') :
    Agrees levels known (r >>= f) (x >>= g) nodes' := by
  intro w old hw hdepth hbuilt
  refine (hx hw hdepth (List.append_nil _).symm).bind ?_
  intro a w' _ hleads hnodes
  refine hf a hleads.sound (hleads.levels hdepth) ?_
  rw [hnodes, hbuilt, List.append_assoc]

theorem Agrees.ite {c : Prop} [Decidable c] {r' : Rule α} {x' : Watched α}
    (h : Agrees levels known r x nodes) (h' : Agrees levels known r' x' nodes) :
    Agrees levels known (if c then r else r') (if c then x else x') nodes := by
  split
  · exact h
  · exact h'

end Sequence

/-! ### Single tokens -/

/-- A rule that takes tokens and does nothing else. -/
def Plain (r : Rule α) : Prop :=
  ∀ p, p.Reaches (Rule.stop (r p)) ∧ (Rule.stop (r p)).nextId = p.nextId

namespace Plain

variable {r : Rule α} {f : α → Rule β}

theorem stay (h : ∀ p, Rule.stop (r p) = p) : Plain r := by
  intro p
  rw [h p]
  exact ⟨.refl p, rfl⟩

theorem pure (a : α) : Plain (Pure.pure a) := stay fun _ => rfl

theorem bind (hr : Plain r) (hf : ∀ a, Plain (f a)) : Plain (r >>= f) := by
  intro p
  obtain ⟨hp, hid⟩ := hr p
  cases h : r p with
  | ok a q =>
      rw [h] at hp hid
      rw [bind_of_ok h]
      obtain ⟨hq, hid'⟩ := hf a q
      exact ⟨hp.trans hq, hid'.trans hid⟩
  | error e q =>
      rw [h] at hp hid
      rw [bind_of_error h]
      exact ⟨hp, hid⟩

theorem ite {c : Prop} [Decidable c] {r' : Rule α} (h : Plain r) (h' : Plain r') :
    Plain (if c then r else r') := by
  split
  · exact h
  · exact h'

theorem note (message : Unit → String) : Plain (Rule.note message) :=
  fun _ => ⟨⟨⟨[], rfl, Grammar.endless_nil⟩, Nat.le_refl _, rfl, rfl⟩, rfl⟩

theorem current : Plain Rule.current := stay fun _ => rfl

theorem check (kind : Token.Kind) : Plain (Rule.check kind) := stay fun _ => rfl

theorem peekKind : Plain Rule.peekKind := by
  refine stay fun p => ?_
  obtain ⟨k, hk⟩ := Rule.exists_peekKind p
  rw [hk, Rule.stop]

theorem unexpected (expected : String) : Plain (Rule.unexpected expected : Rule α) :=
  stay fun _ => rfl

theorem advance : Plain Rule.advance := by
  intro p
  rw [Rule.advance]
  split
  · exact ⟨.refl p, rfl⟩
  next t ts hahead =>
    split
    · exact ⟨.refl p, rfl⟩
    next hend =>
      have hrow : p.row = [p.current] ++ t :: ts := by
        rw [Parser.row, hahead, List.singleton_append]
      exact ⟨⟨⟨[p.current], hrow, by simpa using hend⟩, Nat.le_refl _, rfl, rfl⟩, rfl⟩

theorem accept (kind : Token.Kind) : Plain (Rule.accept kind) :=
  (check kind).bind fun _ => .ite (advance.bind fun _ => pure _) (pure _)

theorem eat (kind : Token.Kind) : Plain (Rule.eat kind) :=
  current.bind fun _ => (note _).bind fun _ => (check kind).bind
    fun _ => .ite advance (unexpected _)

theorem identifier : Plain Rule.identifier := (eat _).bind fun _ => pure _

theorem literal : Plain Rule.literal := by
  apply advance.bind
  intro t
  cases t.value with
  | none => exact stay fun _ => rfl
  | some v => exact pure _

theorem typeName : Plain Rule.typeName := by
  apply current.bind
  intro t
  cases t.kind
  case integer => exact advance.bind fun _ => pure _
  case real => exact advance.bind fun _ => pure _
  case string => exact advance.bind fun _ => pure _
  all_goals exact unexpected _

end Plain

section Tokens

variable {r : Rule α} {f : α → Rule β} {g : α → Watched β}

theorem Agrees.plain (hr : Plain r) (h : ∀ {p a q}, r p = .ok a q → known = nodes a) :
    Agrees levels known r (Watched.plain r) nodes := by
  intro w old hw _ hbuilt
  obtain ⟨hreaches, hid⟩ := hr w.parser
  rw [Watched.plain]
  cases hresult : r w.parser with
  | ok a q =>
      rw [hresult] at hreaches hid
      exact .ok (hw.moved hreaches hid) (h hresult ▸ hbuilt)
  | error e q =>
      rw [hresult] at hreaches hid
      exact .error (hw.moved hreaches hid)

theorem Agrees.plain_bind (hr : Plain r) (hf : ∀ a, Agrees levels known (f a) (g a) nodes') :
    Agrees levels known (r >>= f) (Watched.plain r >>= g) nodes' := by
  have hplain : Agrees levels [] r (Watched.plain r) fun _ => [] := .plain hr fun _ => rfl
  refine hplain.bind fun a => ?_
  rw [List.append_nil]
  exact hf a

/-- A node gets the next number. -/
theorem Agrees.node {make : NodeId → α} {use : α → Use} (hid : ∀ id, (use (make id)).id = id)
    (hnodes : ∀ id, known ++ [use (make id)] = nodes (make id)) :
    Agrees levels known (Rule.newId >>= fun id => Pure.pure (make id))
      (Watched.node make use) nodes := by
  intro w old hw _ hbuilt
  have hleads := hw.numbers (hid w.parser.nextId)
  refine .ok hleads ?_
  rw [← hnodes, ← List.append_assoc, ← hbuilt]

/-! ### Levels -/

theorem Agrees.nested {x : Watched α} (h : Agrees levels known r x nodes) :
    Agrees (levels + 1) known r (Watched.nested x) nodes := by
  intro w old hw hdepth hbuilt
  have hfree : ¬ w.parser.maxNesting ≤ w.depth := by omega
  have hopen : { w with depth := w.depth + 1 }.depth + levels = w.parser.maxNesting := by
    rw [← hdepth, Nat.add_assoc, Nat.add_comm 1]
  have hbody := h (hw.withDepth (w.depth + 1)) hopen hbuilt
  rw [Watched.nested, if_neg hfree]
  generalize x { w with depth := w.depth + 1 } = ξ at hbody ⊢
  change Ends _ old nodes (r w.parser) ξ at hbody
  generalize r w.parser = ρ at hbody ⊢
  cases hbody with
  | ok hleads hnodes => exact .ok hleads.closed hnodes
  | error hleads => exact .error hleads.closed

theorem Agrees.tooDeep (x : Watched α) :
    Agrees 0 known (Rule.tooDeep : Rule α) (Watched.nested x) nodes := by
  intro w old hw hdepth _
  have hfull : w.parser.maxNesting ≤ w.depth := Nat.le_of_eq hdepth.symm
  rw [Watched.nested, if_pos hfull]
  exact .error (.refl hw)

end Tokens

/-! ### Loops -/

section Loops

variable {step : Rule (Option α)} {x : Watched (Option α)}

/-- Every round takes a token, so that a loop is over before its rounds are. -/
theorem Ends.collectIn (hstep : Agrees levels [] step x
    fun result => result.toList.flatMap nodes) (hconsumes : Rule.StepConsumes step) (n : Nat)
    {w : Watch} (hw : w.Sound)
    (hdepth : w.depth + levels = w.parser.maxNesting) (hn : w.parser.row.length ≤ n) :
    Ends w w.built (fun results => results.flatMap nodes) (Rule.collectUpTo step n w.parser)
      (Watched.collectIn x n w) := by
  induction n generalizing w with
  | zero => cases hn
  | succ n ih =>
      refine (hstep hw hdepth (List.append_nil _).symm).bind ?_
      intro result w' hresult hleads hbuilt
      cases result with
      | none => exact .ok (.refl hleads.sound) hbuilt
      | some a =>
          have hlt := hconsumes hw.ended hresult
          refine (ih hleads.sound (hleads.levels hdepth) (by omega)).bind ?_
          intro results w'' _ hleads' hbuilt'
          refine .ok (.refl hleads'.sound) ?_
          rw [hbuilt', hbuilt]
          simp

theorem Agrees.collect (hstep : Agrees levels [] step x
    fun result => result.toList.flatMap nodes) (hconsumes : Rule.StepConsumes step) :
    Agrees levels [] (Rule.collect step) (Watched.collect x)
      fun results => results.flatMap nodes := by
  intro w old hw hdepth hbuilt
  rw [List.append_nil] at hbuilt
  subst hbuilt
  exact .collectIn hstep hconsumes _ hw hdepth hw.rounds

variable {item : Rule α} {y : Watched α}

/-- A step that takes a token of the given kind first. -/
theorem Agrees.preceded (kind : Token.Kind) (hitem : Agrees levels [] item y nodes) :
    Agrees levels [] (do if ← Rule.accept kind then return some (← item) else return none)
      (do if ← Watched.plain (Rule.accept kind) then return some (← y) else return none)
      fun result => result.toList.flatMap nodes :=
  .plain_bind (.accept kind) fun _ => .ite (hitem.bind fun _ => .pure (by simp)) (.pure rfl)

/-- A step that looks for a kind and leaves it to the item. -/
theorem Agrees.checked (kind : Token.Kind) (hitem : Agrees levels [] item y nodes) :
    Agrees levels [] (do if ← Rule.check kind then return some (← item) else return none)
      (do if ← Watched.plain (Rule.check kind) then return some (← y) else return none)
      fun result => result.toList.flatMap nodes :=
  .plain_bind (.check kind) fun _ => .ite (hitem.bind fun _ => .pure (by simp)) (.pure rfl)

theorem Agrees.separated {separator : Token.Kind} (hseparator : separator ≠ .endOfText)
    (hforward : Rule.Forward item) (hitem : Agrees levels [] item y nodes) :
    Agrees levels [] (Rule.separated separator item) (Watched.separated separator y)
      fun results => results.flatMap nodes :=
  hitem.bind fun _ =>
    ((Agrees.preceded separator hitem).collect (.preceded hseparator hforward)).bind
    fun _ => .pure rfl

end Loops

/-! ### Expressions -/

section Chain

variable {op? : Token.Kind → Option BinaryOp} {operand : Rule Expr} {x : Watched Expr}

theorem Ends.joinIn (hend : op? .endOfText = none)
    (hoperand : Agrees levels [] operand x Expr.uses) (n : Nat) {w : Watch} {old : List Use}
    {left : Expr} (hw : w.Sound)
    (hdepth : w.depth + levels = w.parser.maxNesting) (hbuilt : w.built = old ++ left.uses)
    (hn : w.parser.row.length ≤ n) :
    Ends w old Expr.uses (Rule.joinUpTo op? operand n left w.parser)
      (Watched.joinIn op? x n left w) := by
  induction n generalizing w left with
  | zero => cases hn
  | succ n ih =>
      have hlook : Agrees levels [] Rule.current (Watched.plain Rule.current) fun _ => [] :=
        .plain .current fun _ => rfl
      have htake : Agrees levels [] Rule.advance (Watched.plain Rule.advance) fun _ => [] :=
        .plain .advance fun _ => rfl
      refine (hlook hw hdepth (List.append_nil _).symm).bind ?_
      intro t w₁ ht hleads₁ hbuilt₁
      obtain ⟨rfl, hparser⟩ := EStateM.Result.ok.inj ht
      rw [List.append_nil, hbuilt] at hbuilt₁
      cases hop : op? w.parser.current.kind with
      | none => exact .ok (.refl hleads₁.sound) hbuilt₁
      | some op =>
          have hkind : w₁.parser.current.kind ≠ .endOfText := by
            intro hkind
            rw [hparser, hkind, hend] at hop
            cases hop
          have hlt := Rule.Takes.advance hkind hleads₁.sound.ended rfl
          have hdepth₁ := hleads₁.levels hdepth
          refine (htake hleads₁.sound hdepth₁ (List.append_nil _).symm).bind ?_
          intro token w₂ htoken hleads₂ hbuilt₂
          rw [List.append_nil, hbuilt₁] at hbuilt₂
          rw [htoken, Rule.stop] at hlt
          have hdepth₂ := hleads₂.levels hdepth₁
          refine (hoperand hleads₂.sound hdepth₂ (List.append_nil _).symm).bind ?_
          intro right w₃ _ hleads₃ hbuilt₃
          have hle := hleads₃.reaches.suffix.length_le
          refine ih hleads₃.sound (hleads₃.levels hdepth₂) ?_ ?_
          · rw [hbuilt₃, hbuilt₂, Expr.uses, List.append_assoc]
          · rw [hparser] at hn
            omega

theorem Agrees.chain (hend : op? .endOfText = none)
    (hoperand : Agrees levels [] operand x Expr.uses) :
    Agrees levels [] (Rule.chain op? operand) (Watched.chain op? x) Expr.uses := by
  refine hoperand.bind fun first => ?_
  intro w old hw hdepth hbuilt
  exact .joinIn hend hoperand _ hw hdepth hbuilt hw.rounds

end Chain

theorem Agrees.exprOf {factor : Rule Expr} {x : Watched Expr}
    (h : Agrees levels [] factor x Expr.uses) :
    Agrees levels [] (Rule.exprOf factor) (Watched.exprOf x) Expr.uses :=
  .plain_bind (.note _) fun _ => .chain rfl (.chain rfl h)

theorem Agrees.variableUse :
    Agrees levels [] Rule.variableUse Watched.variableUse fun v => [.var v] :=
  .plain_bind .identifier fun _ => .node (fun _ => rfl) fun _ => rfl

theorem Agrees.signed {factor : Rule Expr} {x : Watched Expr}
    (h : Agrees levels [] factor x Expr.uses) (op : UnaryOp) :
    Agrees levels [] (Rule.signed factor op) (Watched.signed x op) Expr.uses :=
  .plain_bind .advance fun _ => h.bind fun _ => .pure rfl

theorem Agrees.parenthesized {expr : Rule Expr} {x : Watched Expr}
    (h : Agrees levels [] expr x Expr.uses) :
    Agrees levels [] (Rule.parenthesized expr) (Watched.parenthesized x) Expr.uses :=
  .plain_bind .advance fun _ => h.bind fun _ => .plain_bind (.eat _) fun _ => .pure rfl

theorem Agrees.literal :
    Agrees levels [] Rule.literal (Watched.plain Rule.literal) Expr.uses := by
  refine .plain .literal fun {p a q} h => ?_
  obtain ⟨t, p', -, h⟩ := Rule.bind_eq_ok.mp h
  cases hvalue : t.value with
  | none =>
      rw [hvalue] at h
      cases h
  | some v =>
      rw [hvalue] at h
      obtain ⟨rfl, -⟩ := Rule.pure_eq_ok.mp h
      rfl

theorem Agrees.factorOf {signed : UnaryOp → Rule Expr} {parenthesized : Rule Expr}
    {x : UnaryOp → Watched Expr} {y : Watched Expr}
    (hsigned : ∀ op, Agrees levels [] (signed op) (x op) Expr.uses)
    (hparenthesized : Agrees levels [] parenthesized y Expr.uses) :
    Agrees levels [] (Rule.factorOf signed parenthesized)
      (Watched.factorOf x y) Expr.uses := by
  refine .plain_bind .current fun t => ?_
  cases t.kind
  case plus => exact hsigned .plus
  case minus => exact hsigned .minus
  case leftParen => exact hparenthesized
  case integerLiteral => exact .literal
  case realLiteral => exact .literal
  case stringLiteral => exact .literal
  case identifier => exact Agrees.variableUse.bind fun _ => .pure rfl
  all_goals exact .plain (.unexpected _) fun h => by cases h

/-- Factors that stand inside one another take a level each. -/
theorem Agrees.factor {n : Nat} (h : levels < n) :
    Agrees levels [] (Rule.factor levels) (Watched.factor n) Expr.uses := by
  induction n generalizing levels with
  | zero => cases h
  | succ n ih =>
      cases levels with
      | zero => exact .factorOf (fun _ => .tooDeep _) (.tooDeep _)
      | succ levels =>
          have hfactor := ih (Nat.lt_of_succ_lt_succ h)
          exact .factorOf (fun op => (hfactor.signed op).nested)
            hfactor.exprOf.parenthesized.nested

theorem Agrees.expr {n : Nat} (h : levels < n) :
    Agrees levels [] (Rule.expr levels) (Watched.expr n) Expr.uses :=
  (Agrees.factor h).exprOf

/-! ### Statements -/

section Statements

variable {expr : Rule Expr} {x : Watched Expr} {compound : Rule (List Statement)}
  {y : Watched (List Statement)}

theorem Agrees.arguments (hforward : Rule.Forward expr)
    (h : Agrees levels [] expr x Expr.uses) :
    Agrees levels [] (Rule.arguments expr) (Watched.arguments x)
      fun args => args.flatMap Expr.uses := by
  refine .plain_bind (.accept _) fun _ => .ite ?_ (.pure rfl)
  refine .plain_bind (.check _) fun _ => .ite ?_ ?_
  · have hnone : Agrees levels [] (Pure.pure []) (Pure.pure [])
        fun args => args.flatMap Expr.uses :=
      .pure rfl
    exact hnone.bind fun _ => .plain_bind (.eat _) fun _ => .pure rfl
  · exact (Agrees.separated (by decide) hforward h).bind
      fun _ => .plain_bind (.eat _) fun _ => .pure rfl

theorem Agrees.assignment (h : Agrees levels [] expr x Expr.uses) :
    Agrees levels [] (Rule.assignment expr) (Watched.assignment x) Statement.uses :=
  .plain_bind (.note _) fun _ => Agrees.variableUse.bind fun _ => .plain_bind (.eat _) fun _ =>
    h.bind fun _ => .pure (by simp [Statement.uses])

/-- A call gets its number after its arguments. -/
theorem Agrees.call (hforward : Rule.Forward expr) (h : Agrees levels [] expr x Expr.uses) :
    Agrees levels [] (Rule.call expr) (Watched.call x)
      fun c => c.args.flatMap Expr.uses ++ [.call c] :=
  .plain_bind (.note _) fun _ => .plain_bind .identifier
    fun _ => (h.arguments hforward).bind fun _ =>
    .node (fun _ => rfl) fun _ => rfl

theorem Agrees.write (hforward : Rule.Forward expr) (h : Agrees levels [] expr x Expr.uses) :
    Agrees levels [] (Rule.write expr) (Watched.write x) Statement.uses :=
  .plain_bind .advance fun _ => (h.arguments hforward).bind
    fun _ => .pure (by simp [Statement.uses])

theorem Agrees.statementOf (hcompound : Agrees levels [] compound y Statement.usesAll)
    (hforward : Rule.Forward expr) (h : Agrees levels [] expr x Expr.uses) :
    Agrees levels [] (Rule.statementOf compound expr)
      (Watched.statementOf y x) Statement.uses := by
  refine .plain_bind .current fun t => ?_
  cases t.kind
  case beginBlock => exact hcompound.bind fun _ => .pure (by simp [Statement.uses])
  case identifier =>
    exact .plain_bind .peekKind fun _ => .ite h.assignment
      ((h.call hforward).bind fun _ => .pure (by simp [Statement.uses]))
  case write => exact h.write hforward
  case writeln => exact h.write hforward
  all_goals exact .pure (by simp [Statement.uses])

end Statements

theorem forward_expr (levels : Nat) : Rule.Forward (Rule.expr levels) :=
  .of_follows (.expr (Nat.le_refl levels))

theorem forward_statementOf (levels : Nat) :
    Rule.Forward (Rule.statementOf (Rule.compound levels) (Rule.expr levels)) :=
  .of_follows (.statementOf (.compound (Nat.le_refl levels)) (.expr (Nat.le_refl levels)))

theorem Agrees.statementList {n : Nat} (h : levels < n)
    (hcompound : Agrees levels [] (Rule.compound levels)
      (Watched.compound n) Statement.usesAll) :
    Agrees levels [] (Rule.statementList levels) (Watched.statementList n)
      Statement.usesAll := by
  rw [show Statement.usesAll = fun body => body.flatMap Statement.uses from
    funext Statement.usesAll_eq_flatMap]
  exact .separated (by decide) (forward_statementOf levels)
    (hcompound.statementOf (forward_expr levels) (.expr h))

theorem Agrees.compound {n : Nat} (h : levels < n) :
    Agrees levels [] (Rule.compound levels) (Watched.compound n) Statement.usesAll := by
  induction n generalizing levels with
  | zero => cases h
  | succ n ih =>
      cases levels with
      | zero => exact .plain_bind (.note _) fun _ => .tooDeep _
      | succ levels =>
          have h := Nat.lt_of_succ_lt_succ h
          exact .plain_bind (.note _) fun _ => .nested <| .plain_bind (.eat _) fun _ =>
            (Agrees.statementList h (ih h)).bind fun _ =>
              .plain_bind (.eat _) fun _ => .pure rfl

/-! ### Declarations -/

theorem Agrees.variableGroup :
    Agrees levels [] Rule.variableGroup Watched.variableGroup fun _ => [] := by
  have hname : Agrees levels [] Rule.identifier (Watched.plain Rule.identifier) fun _ => [] :=
    .plain .identifier fun _ => rfl
  exact (hname.separated (by decide) (.of_follows .identifier)).bind fun _ =>
    .plain_bind (.eat _) fun _ => .plain_bind .typeName fun _ => .pure (by simp)

theorem Agrees.variableSection :
    Agrees levels [] Rule.variableSection Watched.variableSection fun _ => [] := by
  have hline : Agrees levels []
      (do let decls ← Rule.variableGroup; let _ ← Rule.eat .semicolon; return decls)
      (do
        let decls ← Watched.variableGroup
        let _ ← Watched.plain (Rule.eat .semicolon)
        return decls)
      fun _ => [] :=
    Agrees.variableGroup.bind fun _ => .plain_bind (.eat _) fun _ => .pure rfl
  exact hline.bind fun _ => ((Agrees.checked _ hline).collect (.checked .line)).bind fun _ =>
    .pure (by simp)

theorem Agrees.parameters : Agrees levels [] Rule.parameters Watched.parameters fun _ => [] :=
  (Agrees.variableGroup.separated (by decide) (.of_follows .variableGroup)).bind fun _ =>
    .pure (by simp)

section Blocks

variable {block : Rule Block} {x : Watched Block}

theorem Agrees.procedureOf (h : Agrees levels [] block x Block.uses) :
    Agrees levels [] (Rule.procedureOf block) (Watched.procedureOf x) Procedure.uses := by
  have hrest (name : String) (position : Position) (params : List VarDecl) : Agrees levels []
      (do
        let _ ← Rule.eat .semicolon
        let block ← block
        let _ ← Rule.eat .semicolon
        return Procedure.mk name position params block)
      (do
        let _ ← Watched.plain (Rule.eat .semicolon)
        let block ← x
        let _ ← Watched.plain (Rule.eat .semicolon)
        return Procedure.mk name position params block) Procedure.uses :=
    .plain_bind (.eat _) fun _ => h.bind fun _ => .plain_bind (.eat _) fun _ =>
      .pure (by simp [Procedure.uses])
  have hpure (params : List VarDecl) :
      Agrees levels [] (Pure.pure params) (Pure.pure params) fun _ => [] := .pure rfl
  refine .plain_bind (.note _) fun _ => .plain_bind (.eat _)
    fun _ => .plain_bind .identifier fun _ => ?_
  refine .plain_bind (.accept _) fun _ => .ite ?_ ((hpure _).bind fun _ => hrest _ _ _)
  refine .plain_bind (.check _) fun _ => .ite ?_ ?_
  · exact Agrees.parameters.bind fun _ => .plain_bind (.eat _) fun _ => (hpure _).bind fun _ =>
      hrest _ _ _
  · exact (hpure _).bind fun _ => .plain_bind (.eat _)
      fun _ => (hpure _).bind fun _ => hrest _ _ _

theorem Agrees.declarationsOf (hfollows : Rule.Follows [] [] block block)
    (h : Agrees levels [] block x Block.uses) :
    Agrees levels [] (Rule.declarationsOf block) (Watched.declarationsOf x)
      fun declarations => Procedure.usesAll declarations.2 := by
  obtain ⟨-, htakes⟩ := Rule.procedureOf_follows hfollows
  have hsection : Agrees levels [] Rule.variableSection Watched.variableSection fun _ => [] :=
    .variableSection
  have hsections := (Agrees.preceded .var hsection).collect
    (.preceded (by decide) (.of_follows .variableSection))
  have hprocedures := (Agrees.checked .procedure (.procedureOf h)).collect (.checked htakes)
  exact .plain_bind (.note _) fun _ => hsections.bind fun _ => hprocedures.bind fun _ =>
    .pure (by simp [Procedure.usesAll_eq_flatMap])

end Blocks

theorem Agrees.block {n : Nat} (h : levels < n) :
    Agrees levels [] (Rule.block levels) (Watched.block n) Block.uses := by
  induction n generalizing levels with
  | zero => cases h
  | succ n ih =>
      cases levels with
      | zero => exact .tooDeep _
      | succ levels =>
          have h := Nat.lt_of_succ_lt_succ h
          exact .nested <| ((ih h).declarationsOf (.block (Nat.le_refl levels))).bind fun _ =>
            (Agrees.compound h).bind fun _ => .pure rfl

theorem Agrees.program {n : Nat} (h : levels < n) :
    Agrees levels [] (Rule.program levels) (Watched.program n) fun p => p.block.uses :=
  .plain_bind (.note _) fun _ => .plain_bind (.eat _) fun _ => .plain_bind .identifier fun _ =>
    .plain_bind (.eat _) fun _ => (Agrees.block h).bind
      fun _ => .plain_bind (.eat _) fun _ => .pure rfl

theorem Agrees.wholeProgram {n : Nat} (h : levels < n) :
    Agrees levels [] (Rule.wholeProgram levels) (Watched.wholeProgram n)
      fun p => p.block.uses :=
  .plain_bind (.note _) fun _ => (Agrees.program h).bind
    fun _ => .plain_bind (.eat _) fun _ => .pure rfl

end Watched

end MiniPascal

import Mathlib.Tactic.ByContra
import MiniPascal.Proofs.Grammar.Derivation

/-!
How rules read, in terms of the tokens that are left.

`p.At ts i` says all that matters of a parser: it has the tokens `ts` before it, then the text
ends, and the next number is `i`. The journal is left out, since no rule looks at it.

Two directions are followed below. `Reads r us i a vs j` says that the rule `r` succeeds
wherever `us` is left, with the result `a`, and leaves `vs`. `Sound r D` says that whatever `r`
has read when it succeeds, `D` derives.
-/

namespace MiniPascal

/-- The kind of the first token, where the end of the text follows the tokens. -/
def headKind : List Token → Token.Kind
  | [] => .endOfText
  | t :: _ => t.kind

@[simp] theorem headKind_cons (t : Token) (ts : List Token) : headKind (t :: ts) = t.kind :=
  rfl

@[simp] theorem headKind_nil : headKind [] = .endOfText := rfl

structure Parser.At (p : Parser) (ts : List Token) (i : NodeId) : Prop where
  tokens : ∃ e rest, p.current :: p.ahead = ts ++ e :: rest ∧ e.kind = .endOfText
  inside : ∀ t ∈ ts, t.kind ≠ .endOfText
  nextId : p.nextId = i
  /-- No loop stops before the tokens do. -/
  length_lt : ts.length < p.total

namespace Parser.At

variable {p : Parser} {t : Token} {ts : List Token} {i : NodeId}

theorem journal (h : p.At ts i) (j : Journal) : ({ p with journal := j } : Parser).At ts i :=
  ⟨h.tokens, h.inside, h.nextId, h.length_lt⟩

theorem current_kind (h : p.At ts i) : p.current.kind = headKind ts := by
  obtain ⟨e, rest, htokens, he⟩ := h.tokens
  cases ts with
  | nil => rw [(List.cons.inj htokens).1, he, headKind_nil]
  | cons t ts => rw [(List.cons.inj htokens).1, headKind_cons]

theorem current_eq (h : p.At (t :: ts) i) : p.current = t := by
  obtain ⟨e, rest, htokens, he⟩ := h.tokens
  exact (List.cons.inj htokens).1

theorem kind_ne (h : p.At (t :: ts) i) : t.kind ≠ .endOfText :=
  h.inside t List.mem_cons_self

/-- Where the text ends, no token is left. -/
theorem eq_nil (h : p.At ts i) (hts : headKind ts = .endOfText) : ts = [] := by
  cases ts with
  | nil => rfl
  | cons t ts => exact absurd hts h.kind_ne

end Parser.At

namespace Rule

variable {α β : Type}

theorem bind_eq_ok {x : Rule α} {f : α → Rule β} {p q : Parser} {b : β} :
    (x >>= f) p = .ok b q ↔ ∃ a r, x p = .ok a r ∧ f a r = .ok b q := by
  change EStateM.bind x f p = .ok b q ↔ _
  unfold EStateM.bind
  cases x p with
  | ok a r =>
      constructor
      · intro h
        exact ⟨a, r, rfl, h⟩
      · rintro ⟨_, _, h, hf⟩
        cases h
        exact hf
  | error e r => simp

theorem pure_eq_ok {a b : α} {p q : Parser} :
    (pure a : Rule α) p = .ok b q ↔ a = b ∧ p = q := by
  change EStateM.Result.ok a p = .ok b q ↔ _
  simp

/-! ### Reading forwards -/

def Reads (r : Rule α) (us : List Token) (i : NodeId) (a : α) (vs : List Token) (j : NodeId) :
    Prop :=
  ∀ p : Parser, p.At us i → ∃ q, r p = .ok a q ∧ q.At vs j

variable {us vs ws : List Token} {i j k : NodeId} {t : Token} {a : α} {b : β}

theorem Reads.bind {x : Rule α} {f : α → Rule β} (hx : Reads x us i a vs j)
    (hf : Reads (f a) vs j b ws k) : Reads (x >>= f) us i b ws k := by
  intro p hp
  obtain ⟨q, hq, hat⟩ := hx p hp
  obtain ⟨r, hr, hat'⟩ := hf q hat
  exact ⟨r, bind_eq_ok.mpr ⟨a, q, hq, hr⟩, hat'⟩

theorem Reads.pure : Reads (pure a : Rule α) us i a us i := by
  intro p hp
  exact ⟨p, rfl, hp⟩

theorem Reads.note {message : Unit → String} : Reads (note message) us i () us i := by
  intro p hp
  exact ⟨_, rfl, hp.journal _⟩

theorem Reads.advance : Reads advance (t :: us) i t us i := by
  intro p hp
  obtain ⟨e, rest, htokens, he⟩ := hp.tokens
  have hcurrent := hp.current_eq
  have hkind := hp.kind_ne
  have hahead : p.ahead = us ++ e :: rest := (List.cons.inj htokens).2
  have hlength := hp.length_lt
  rw [List.length_cons] at hlength
  have hinside : ∀ t ∈ us, t.kind ≠ .endOfText :=
    fun t ht => hp.inside t (List.mem_cons_of_mem _ ht)
  cases us with
  | nil =>
      refine ⟨{ p with current := e, ahead := rest }, ?_, ⟨e, rest, rfl, he⟩, hinside,
        hp.nextId, ?_⟩
      · simp [Rule.advance, hahead, hkind, hcurrent]
      · exact Nat.lt_of_succ_lt hlength
  | cons u us =>
      refine ⟨{ p with current := u, ahead := us ++ e :: rest }, ?_,
        ⟨e, rest, rfl, he⟩, hinside, hp.nextId, ?_⟩
      · simp [Rule.advance, hahead, hkind, hcurrent]
      · exact Nat.lt_of_succ_lt hlength

theorem Reads.current : Reads current (t :: us) i t (t :: us) i := by
  intro p hp
  exact ⟨p, by rw [Rule.current, hp.current_eq], hp⟩

theorem Reads.check {kind : Token.Kind} :
    Reads (check kind) us i (decide (headKind us = kind)) us i := by
  intro p hp
  exact ⟨p, by rw [Rule.check, hp.current_kind], hp⟩

theorem Reads.peekKind : Reads peekKind (t :: us) i (headKind us) (t :: us) i := by
  intro p hp
  refine ⟨p, ?_, hp⟩
  obtain ⟨e, rest, htokens, he⟩ := hp.tokens
  have hahead : p.ahead = us ++ e :: rest := (List.cons.inj htokens).2
  cases us with
  | nil => simp [Rule.peekKind, hahead, he]
  | cons u us => simp [Rule.peekKind, hahead]

theorem Reads.newId : Reads newId us i i us (i + 1) := by
  intro p hp
  exact ⟨{ p with nextId := p.nextId + 1 }, by rw [Rule.newId, hp.nextId],
    hp.tokens, hp.inside, by rw [hp.nextId], hp.length_lt⟩

theorem Reads.accept {kind : Token.Kind} (ht : t.kind = kind) :
    Reads (accept kind) (t :: us) i true us i := by
  refine Reads.check.bind ?_
  rw [headKind_cons, ht, decide_eq_true rfl, if_pos rfl]
  exact Reads.advance.bind Reads.pure

theorem Reads.accept_other {kind : Token.Kind} (hu : headKind us ≠ kind) :
    Reads (Rule.accept kind) us i false us i := by
  refine Reads.check.bind ?_
  rw [decide_eq_false hu]
  exact Reads.pure

theorem Reads.eat {kind : Token.Kind} (ht : t.kind = kind) :
    Reads (eat kind) (t :: us) i t us i := by
  refine Reads.current.bind (Reads.note.bind (Reads.check.bind ?_))
  rw [headKind_cons, ht, decide_eq_true rfl, if_pos rfl]
  exact Reads.advance

theorem Reads.identifier (ht : t.kind = .identifier) :
    Reads identifier (t :: us) i (t.word, t.position) us i :=
  (Reads.eat ht).bind Reads.pure

/-! ### Reading backwards -/

/-- What a rule has read is determined by where it reads. -/
theorem Reads.eq {r : Rule α} (h : Reads r us i a vs j) {p q : Parser} (hp : p.At us i) {b : α}
    (hr : r p = .ok b q) : b = a ∧ q.At vs j := by
  obtain ⟨q', hq', hat⟩ := h p hp
  rw [hr] at hq'
  cases hq'
  exact ⟨rfl, hat⟩

theorem note_eq_ok {message : Unit → String} {p q : Parser} {u : Unit}
    (hp : p.At us i) (h : note message p = .ok u q) : q.At us i :=
  (Reads.note.eq hp h).2

theorem advance_eq_ok {p q : Parser} (hp : p.At us i) (hu : headKind us ≠ .endOfText)
    (h : advance p = .ok t q) : ∃ vs, us = t :: vs ∧ q.At vs i := by
  cases us with
  | nil => exact absurd rfl hu
  | cons u us =>
      obtain ⟨rfl, hq⟩ := Reads.advance.eq hp h
      exact ⟨us, rfl, hq⟩

theorem check_eq_ok {kind : Token.Kind} {p q : Parser} {c : Bool} (hp : p.At us i)
    (h : check kind p = .ok c q) : c = decide (headKind us = kind) ∧ q.At us i :=
  Reads.check.eq hp h

theorem accept_eq_ok {kind : Token.Kind} {p q : Parser} {c : Bool} (hk : kind ≠ .endOfText)
    (hp : p.At us i) (h : accept kind p = .ok c q) :
    (c = true ∧ ∃ t vs, us = t :: vs ∧ t.kind = kind ∧ q.At vs i) ∨
      (c = false ∧ headKind us ≠ kind ∧ q.At us i) := by
  by_cases hu : headKind us = kind
  · cases us with
    | nil => exact absurd hu.symm hk
    | cons t us =>
        obtain ⟨rfl, hq⟩ := (Reads.accept hu).eq hp h
        exact .inl ⟨rfl, t, us, rfl, hu, hq⟩
  · obtain ⟨rfl, hq⟩ := (Reads.accept_other hu).eq hp h
    exact .inr ⟨rfl, hu, hq⟩

theorem headKind_of_eat {kind : Token.Kind} {p q : Parser} (hp : p.At us i)
    (h : eat kind p = .ok t q) : headKind us = kind := by
  obtain ⟨u, p₁, hcurrent, h⟩ := bind_eq_ok.mp h
  obtain ⟨_, p₂, hnote, h⟩ := bind_eq_ok.mp h
  obtain ⟨c, p₃, hcheck, h⟩ := bind_eq_ok.mp h
  cases hcurrent
  obtain ⟨rfl, -⟩ := check_eq_ok (note_eq_ok hp hnote) hcheck
  by_contra hu
  rw [decide_eq_false hu] at h
  cases h

/-- Where no token is left, the end of the text can be read. -/
theorem eat_endOfText {p : Parser} (hp : p.At [] i) : ∃ t q, eat .endOfText p = .ok t q := by
  obtain ⟨p₁, hnote, hp₁⟩ := Reads.note p hp
  obtain ⟨p₂, hcheck, hp₂⟩ := Reads.check p₁ hp₁
  refine ⟨p₂.current, p₂, ?_⟩
  refine bind_eq_ok.mpr ⟨p.current, p, rfl, bind_eq_ok.mpr ⟨(), p₁, hnote,
    bind_eq_ok.mpr ⟨_, p₂, hcheck, ?_⟩⟩⟩
  have hkind : p₂.current.kind = .endOfText := hp₂.current_kind
  rw [decide_eq_true headKind_nil, if_pos rfl, advance]
  split
  · rfl
  · rw [if_pos hkind]

theorem eat_eq_ok {kind : Token.Kind} {p q : Parser} (hk : kind ≠ .endOfText) (hp : p.At us i)
    (h : eat kind p = .ok t q) : ∃ vs, us = t :: vs ∧ t.kind = kind ∧ q.At vs i := by
  have hu := headKind_of_eat hp h
  cases us with
  | nil => exact absurd hu.symm hk
  | cons u us =>
      obtain ⟨rfl, hq⟩ := (Reads.eat hu).eq hp h
      exact ⟨us, rfl, hu, hq⟩

theorem identifier_eq_ok {p q : Parser} {n : String × Position} (hp : p.At us i)
    (h : identifier p = .ok n q) :
    ∃ t vs, us = t :: vs ∧ t.kind = .identifier ∧ n = (t.word, t.position) ∧ q.At vs i := by
  obtain ⟨t, p₁, heat, h⟩ := bind_eq_ok.mp h
  obtain ⟨vs, rfl, ht, hq⟩ := eat_eq_ok (by decide) hp heat
  obtain ⟨rfl, rfl⟩ := pure_eq_ok.mp h
  exact ⟨t, vs, rfl, ht, rfl, hq⟩

/-- Whatever the rule has read when it succeeds, `D` derives. -/
def Sound (r : Rule α) (D : List Token → NodeId → α → NodeId → Prop) : Prop :=
  ∀ ⦃p q : Parser⦄ ⦃us : List Token⦄ ⦃i : NodeId⦄ ⦃a : α⦄, p.At us i → r p = .ok a q →
    ∃ ts vs j, us = ts ++ vs ∧ q.At vs j ∧ D ts i a j

end Rule

end MiniPascal

import MiniPascal.Proofs.Grammar.Derivation
import MiniPascal.Proofs.Syntax.Uses

/-!
What all derived trees have in common. Their uses are numbered one after the other, so that no
two of them share a number; and the names that they declare or use are words of identifiers
among their tokens.

These facts collect something along a derivation, so the rules of the grammar that do not mind
what is collected are treated once, for any `Additive` relation; and those that collect uses of
names once for any relation that `Collects` them.
-/

namespace MiniPascal.Grammar

/-- A relation between tokens, the number before, a list and the number after. -/
abbrev Collected (β : Type) := List Token → NodeId → List β → NodeId → Prop

/-- Collected piece by piece, and nothing from a token by itself. -/
structure Additive {β : Type} (R : Collected β) : Prop where
  nil (i : NodeId) : R [] i [] i
  token (t : Token) (i : NodeId) : R [t] i [] i
  append {ts us : List Token} {i j k : NodeId} {bs cs : List β} :
    R ts i bs j → R us j cs k → R (ts ++ us) i (bs ++ cs) k

/-- What is derived with at most `n` levels has `f` of it collected. -/
def Gathers {α β : Type} (R : Collected β) (D : Judgment α) (f : α → List β) (n : Nat) :
    Prop :=
  ∀ ⦃d ts i a j⦄, D d ts i a j → d ≤ n → R ts i (f a) j

section Additive

variable {α β : Type} {R : Collected β} {n : Nat} {f : α → List β}

theorem Additive.cons (hR : Additive R) {ts : List Token} {i j : NodeId}
    {bs : List β} (t : Token) (h : R ts i bs j) : R (t :: ts) i bs j :=
  hR.append (hR.token t i) h

theorem Additive.append_tokens (hR : Additive R) {ts : List Token} {i j : NodeId} {bs : List β}
    (h : R ts i bs j) (us : List Token) : R (ts ++ us) i bs j := by
  have htokens : R us j [] j := by
    induction us with
    | nil => exact hR.nil j
    | cons t us ih => exact hR.cons t ih
  have happend := hR.append h htokens
  rwa [List.append_nil] at happend

theorem Many.gathers (hR : Additive R) {Item : Judgment α} (hitem : Gathers R Item f n) :
    Gathers R (Many Item) (List.flatMap f) n := by
  intro d ts i as j h hd
  induction h with
  | nil => exact hR.nil _
  | cons ha _ ih =>
      obtain ⟨hd, hd'⟩ := Nat.max_le.mp hd
      rw [List.flatMap_cons]
      exact hR.append (hitem ha hd) (ih hd')

theorem Separated.gathers (hR : Additive R) {sep : Token.Kind} {Item : Judgment α}
    (hitem : Gathers R Item f n) : Gathers R (Separated sep Item) (List.flatMap f) n := by
  have hpreceded : Gathers R (Preceded sep Item) f n := by
    rintro d _ i a j ⟨_, ha⟩ hd
    exact hR.cons _ (hitem ha hd)
  rintro d _ i as j ⟨ha, has⟩ hd
  obtain ⟨hd, hd'⟩ := Nat.max_le.mp hd
  rw [List.flatMap_cons]
  exact hR.append (hitem ha hd) (Many.gathers hR hpreceded has hd')

theorem Bracketed.gathers (hR : Additive R) {Items : Judgment (List α)}
    (hitems : Gathers R Items (List.flatMap f) n) :
    Gathers R (Bracketed Items) (List.flatMap f) n := by
  intro d ts i as j h hd
  cases h with
  | absent => exact hR.nil _
  | empty _ _ => exact hR.cons _ (hR.token _ _)
  | list _ has _ => exact hR.cons _ (hR.append_tokens (hitems has hd) _)

end Additive

theorem flatMap_flatten {α β : Type} (f : α → List β) (rows : List (List α)) :
    rows.flatten.flatMap f = rows.flatMap (List.flatMap f) := by
  induction rows with
  | nil => rfl
  | cons row rows ih => rw [List.flatten_cons, List.flatMap_append, ih, List.flatMap_cons]

section Declarations

variable {β : Type} {R : Collected β} {n : Nat} {f : String → List β}

/-- From the names of declarations to the declarations. -/
theorem IsGroup.gathers (hR : Additive R) (hname : Gathers R IsName (fun name => f name.1) n) :
    Gathers R IsGroup (List.flatMap fun decl => f decl.name) n := by
  rintro d _ i decls j ⟨hnames, _, _⟩ hd
  rw [List.flatMap_map]
  exact hR.append_tokens (Separated.gathers hR hname hnames hd) _

theorem IsParams.gathers (hR : Additive R)
    (hname : Gathers R IsName (fun name => f name.1) n) :
    Gathers R IsParams (fun groups => groups.flatten.flatMap fun decl => f decl.name) n := by
  intro d ts i groups j h hd
  have hgroups := Bracketed.gathers hR (Separated.gathers hR (IsGroup.gathers hR hname)) h hd
  rwa [← flatMap_flatten] at hgroups

theorem IsSection.gathers (hR : Additive R)
    (hname : Gathers R IsName (fun name => f name.1) n) :
    Gathers R IsSection (List.flatMap fun decl => f decl.name) n := by
  have hline : Gathers R IsLine (List.flatMap fun decl => f decl.name) n := by
    rintro d _ i decls j ⟨hdecls, _⟩ hd
    exact hR.append_tokens (IsGroup.gathers hR hname hdecls hd) _
  rintro d _ i decls j ⟨_, hfirst, hothers⟩ hd
  obtain ⟨hd, hd'⟩ := Nat.max_le.mp hd
  rw [List.flatMap_append, flatMap_flatten]
  exact hR.cons _ (hR.append (hline hfirst hd) (Many.gathers hR hline hothers hd'))

theorem IsSections.gathers (hR : Additive R)
    (hname : Gathers R IsName (fun name => f name.1) n) :
    Gathers R (Many IsSection)
      (fun rows => rows.flatten.flatMap fun decl => f decl.name) n := by
  intro d ts i rows j h hd
  have hrows := Many.gathers hR (IsSection.gathers hR hname) h hd
  rwa [← flatMap_flatten] at hrows

end Declarations

/-! ### Uses -/

/-- Collected piece by piece, with every variable and every call where its word stands. -/
structure Collects (R : Collected Use) : Prop extends Additive R where
  var {t : Token} (i : NodeId) :
    t.kind = .identifier → R [t] i [.var ⟨t.word, i, t.position⟩] (i + 1)
  call {t : Token} {ts : List Token} {i j : NodeId} {us : List Use} (args : List Expr) :
    t.kind = .identifier → R ts i us j →
    R (t :: ts) i (us ++ [.call ⟨t.word, args, j, t.position⟩]) (j + 1)

section Uses

variable {R : Collected Use}

theorem Chain.gathers_uses (hR : Collects R) {Op : Token.Kind → BinaryOp → Prop}
    {Operand : Judgment Expr} {n : Nat} (hoperand : Gathers R Operand Expr.uses n) :
    Gathers R (Chain Op Operand) Expr.uses n := by
  intro d ts i e j h hd
  induction h with
  | one he => exact hoperand he hd
  | more _ _ hright ih =>
      obtain ⟨hd, hd'⟩ := Nat.max_le.mp hd
      exact hR.append (ih hd) (hR.cons _ (hoperand hright hd'))

theorem IsFactor.gathers_uses (hR : Collects R) (n : Nat) :
    Gathers R IsFactor Expr.uses n := by
  induction n with
  | zero =>
      intro d ts i e j h hd
      cases h with
      | signed _ _ => cases hd
      | parenthesized _ _ _ => cases hd
      | literal _ _ => exact hR.token _ i
      | var ht => exact hR.var i ht
  | succ n ih =>
      intro d ts i e j h hd
      cases h with
      | literal _ _ => exact hR.token _ i
      | var ht => exact hR.var i ht
      | signed _ he =>
          have hoperand := ih he (Nat.le_of_succ_le_succ hd)
          exact hR.cons _ hoperand
      | parenthesized _ he _ =>
          have hinner := Chain.gathers_uses hR (Chain.gathers_uses hR ih) he
            (Nat.le_of_succ_le_succ hd)
          exact hR.cons _ (hR.append_tokens hinner _)

theorem IsExpr.gathers_uses (hR : Collects R) (n : Nat) : Gathers R IsExpr Expr.uses n :=
  Chain.gathers_uses hR (Chain.gathers_uses hR (IsFactor.gathers_uses hR n))

theorem IsArguments.gathers_uses (hR : Collects R) (n : Nat) :
    Gathers R IsArguments (List.flatMap Expr.uses) n :=
  Bracketed.gathers hR.toAdditive (Separated.gathers hR.toAdditive (IsExpr.gathers_uses hR n))

theorem IsStatement.gathers_uses (hR : Collects R) {n : Nat}
    (hcompound : Gathers R IsCompound Statement.usesAll n) :
    Gathers R IsStatement Statement.uses n := by
  intro d ts i s j h hd
  cases h with
  | compound hbody => exact hcompound hbody hd
  | assign ht _ he =>
      exact hR.append (hR.var i ht) (hR.cons _ (IsExpr.gathers_uses hR n he hd))
  | call ht hargs => exact hR.call _ ht (IsArguments.gathers_uses hR n hargs hd)
  | write _ hargs => exact hR.cons _ (IsArguments.gathers_uses hR n hargs hd)
  | empty => exact hR.nil i

theorem IsCompound.gathers_uses (hR : Collects R) (n : Nat) :
    Gathers R IsCompound Statement.usesAll n := by
  induction n with
  | zero =>
      rintro d _ i body j ⟨_, _, _⟩ hd
      cases hd
  | succ n ih =>
      rintro d _ i body j ⟨_, hbody, _⟩ hd
      rw [Statement.usesAll_eq_flatMap]
      have hinner := Separated.gathers hR.toAdditive (IsStatement.gathers_uses hR ih) hbody
        (Nat.le_of_succ_le_succ hd)
      exact hR.cons _ (hR.append_tokens hinner _)

/-- Where a name is declared it is not used. -/
theorem IsName.gathers_nil {β : Type} {R : Collected β} (hR : Additive R) (n : Nat) :
    Gathers R IsName (fun _ => []) n := by
  rintro d _ i name j ⟨_⟩ _
  exact hR.token _ i

theorem flatMap_nil_eq {α β : Type} (l : List α) : l.flatMap (fun _ => ([] : List β)) = [] :=
  List.flatMap_eq_nil_iff.mpr fun _ _ => rfl

theorem IsProcedure.gathers_uses (hR : Collects R) {n : Nat}
    (hblock : Gathers R IsBlock Block.uses n) : Gathers R IsProcedure Procedure.uses n := by
  rintro d _ i proc j ⟨_, _, hparams, _, hb, _⟩ hd
  obtain ⟨hd, hd'⟩ := Nat.max_le.mp hd
  have hgroups := IsParams.gathers (f := fun _ => []) hR.toAdditive
    (IsName.gathers_nil hR.toAdditive n) hparams hd
  simp only [flatMap_nil_eq] at hgroups
  exact hR.cons _
    (hR.cons _ (hR.append hgroups (hR.cons _ (hR.append_tokens (hblock hb hd') _))))

theorem IsBlock.gathers_uses (hR : Collects R) (n : Nat) : Gathers R IsBlock Block.uses n := by
  induction n with
  | zero =>
      rintro d _ i b j ⟨_, _, _⟩ hd
      cases hd
  | succ n ih =>
      rintro d _ i b j ⟨hsections, hprocedures, hbody⟩ hd
      obtain ⟨hd, hd'⟩ := Nat.max_le.mp (Nat.le_of_succ_le_succ hd)
      obtain ⟨hd', hd''⟩ := Nat.max_le.mp hd'
      have hvars := IsSections.gathers (f := fun _ => []) hR.toAdditive
        (IsName.gathers_nil hR.toAdditive n) hsections hd
      simp only [flatMap_nil_eq] at hvars
      have hprocs :=
        Many.gathers hR.toAdditive (IsProcedure.gathers_uses hR ih) hprocedures hd'
      have hall := hR.append hvars (hR.append hprocs (IsCompound.gathers_uses hR n hbody hd''))
      rw [Block.uses_eq, Procedure.usesAll_eq_flatMap]
      exact hall

end Uses

/-! ### Numbers -/

/-- The uses have the numbers from `i` up to `j`, in order. -/
def Numbered (i : Nat) (uses : List Use) (j : Nat) : Prop :=
  i ≤ j ∧ uses.map Use.id = List.range' i (j - i)

theorem Numbered.append {i j k : Nat} {uses uses' : List Use} (h : Numbered i uses j)
    (h' : Numbered j uses' k) : Numbered i (uses ++ uses') k := by
  obtain ⟨hij, hids⟩ := h
  obtain ⟨hjk, hids'⟩ := h'
  refine ⟨Nat.le_trans hij hjk, ?_⟩
  obtain ⟨m, rfl⟩ := Nat.exists_eq_add_of_le hij
  obtain ⟨m', rfl⟩ := Nat.exists_eq_add_of_le hjk
  rw [Nat.add_sub_cancel_left] at hids hids'
  rw [List.map_append, hids, hids', List.range'_append_1, Nat.add_assoc,
    Nat.add_sub_cancel_left]

theorem Numbered.nil (i : Nat) : Numbered i [] i := ⟨Nat.le_refl i, by simp⟩

theorem Numbered.single {i : Nat} {u : Use} (hu : u.id = i) : Numbered i [u] (i + 1) :=
  ⟨Nat.le_succ i, by simp [hu]⟩

theorem collects_numbered : Collects fun _ i uses j => Numbered i uses j where
  nil := Numbered.nil
  token _ i := Numbered.nil i
  append := Numbered.append
  var _ _ := .single rfl
  call _ _ h := h.append (.single rfl)

/-- The uses of a program have the numbers from zero on. -/
theorem IsProgram.numbered {d : Nat} {ts : List Token} {program : Program}
    (h : IsProgram d ts program) : ∃ n, Numbered 0 program.block.uses n := by
  cases h with
  | mk _ _ _ hblock _ =>
      exact ⟨_, IsBlock.gathers_uses collects_numbered d hblock (Nat.le_refl d)⟩

/-! ### Names -/

/-- The names are words of identifiers among the tokens. -/
def Named (ts : List Token) (names : List String) : Prop :=
  ∀ name ∈ names, ∃ t ∈ ts, t.kind = .identifier ∧ t.word = name

theorem Named.append {ts us : List Token} {names names' : List String} (h : Named ts names)
    (h' : Named us names') : Named (ts ++ us) (names ++ names') := by
  intro name hname
  rcases List.mem_append.mp hname with hname | hname
  · obtain ⟨t, ht, hword⟩ := h name hname
    exact ⟨t, List.mem_append_left us ht, hword⟩
  · obtain ⟨t, ht, hword⟩ := h' name hname
    exact ⟨t, List.mem_append_right ts ht, hword⟩

theorem Named.nil (ts : List Token) : Named ts [] := by
  intro name hname
  cases hname

theorem Named.single {t : Token} (ht : t.kind = .identifier) : Named [t] [t.word] := by
  intro name hname
  obtain rfl := List.mem_singleton.mp hname
  exact ⟨t, List.mem_singleton.mpr rfl, ht, rfl⟩

theorem Named.skip {ts : List Token} {names : List String} (t : Token) (h : Named ts names) :
    Named (t :: ts) names :=
  (Named.nil [t]).append h

theorem Named.append_tokens {ts : List Token} {names : List String} (h : Named ts names)
    (us : List Token) : Named (ts ++ us) names := by
  have happend := h.append (Named.nil us)
  rwa [List.append_nil] at happend

theorem additive_named :
    Additive fun ts (_ : NodeId) names (_ : NodeId) => Named ts names where
  nil _ := Named.nil []
  token t _ := Named.nil [t]
  append := Named.append

/-- The names that are declared in what is derived are words of its identifiers. -/
abbrev Names {α : Type} (D : Judgment α) (names : α → List String) (n : Nat) : Prop :=
  Gathers (fun ts _ ns _ => Named ts ns) D names n

theorem IsName.names (n : Nat) : Names IsName (fun name => [name.1]) n := by
  rintro d _ i name j ⟨ht⟩ _
  exact .single ht

theorem IsProcedure.names {n : Nat} (hblock : Names IsBlock Block.names n) :
    Names IsProcedure Procedure.names n := by
  rintro d _ i proc j ⟨_, ht, hparams, _, hb, _⟩ hd
  obtain ⟨hd, hd'⟩ := Nat.max_le.mp hd
  have hgroups :=
    IsParams.gathers (f := fun name => [name]) additive_named (IsName.names n) hparams hd
  rw [Procedure.names, List.map_eq_flatMap]
  refine .skip _ (.append (.single ht) (Named.append hgroups (.skip _ ?_)))
  exact Named.append_tokens (hblock hb hd') _

theorem IsBlock.names (n : Nat) : Names IsBlock Block.names n := by
  induction n with
  | zero =>
      rintro d _ i b j ⟨_, _, _⟩ hd
      cases hd
  | succ n ih =>
      rintro d _ i b j ⟨hsections, hprocedures, _⟩ hd
      obtain ⟨hd, hd'⟩ := Nat.max_le.mp (Nat.le_of_succ_le_succ hd)
      obtain ⟨hd', -⟩ := Nat.max_le.mp hd'
      have hvars :=
        IsSections.gathers (f := fun name => [name]) additive_named
          (IsName.names n) hsections hd
      have hprocs := Many.gathers additive_named (IsProcedure.names ih) hprocedures hd'
      rw [Block.names, List.map_eq_flatMap, Procedure.namesAll_eq_flatMap]
      exact Named.append hvars (Named.append_tokens hprocs _)

theorem collects_named :
    Collects fun ts (_ : NodeId) us (_ : NodeId) => Named ts (us.map Use.name) where
  nil _ := Named.nil []
  token t _ := Named.nil [t]
  append h h' := by
    rw [List.map_append]
    exact h.append h'
  var _ ht := Named.single ht
  call _ ht h := by
    -- The word of a call stands before its arguments.
    rw [List.map_append]
    intro name hname
    rcases List.mem_append.mp hname with hname | hname
    · exact h.skip _ name hname
    · exact (Named.single ht).append_tokens _ name hname

/-- The names that a program uses are words of its identifiers too. -/
theorem IsProgram.uses_named {d : Nat} {ts : List Token} {program : Program}
    (h : IsProgram d ts program) : Named ts (program.block.uses.map Use.name) := by
  cases h with
  | mk _ _ _ hblock _ =>
      have hnames : Named _ _ := IsBlock.gathers_uses collects_named d hblock (Nat.le_refl d)
      exact .skip _ (.skip _ (.skip _ (hnames.append_tokens _)))

theorem IsProgram.named {d : Nat} {ts : List Token} {program : Program}
    (h : IsProgram d ts program) : Named ts program.block.names := by
  cases h with
  | mk _ _ _ hblock _ =>
      have hnames : Named _ _ := IsBlock.names d hblock (Nat.le_refl d)
      exact .skip _ (.skip _ (.skip _ (hnames.append_tokens _)))

end MiniPascal.Grammar

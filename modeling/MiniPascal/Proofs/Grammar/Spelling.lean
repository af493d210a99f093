import MiniPascal.Proofs.Grammar.Writing
import MiniPascal.Proofs.Scope.Renaming

/-!
What rows of tokens spell, up to positions and numbers. For every rule of the grammar, a row is
put together from the rows of its parts, and spells the tree that is put together from theirs.
-/

namespace MiniPascal.Grammar

variable {α β : Type}

/-- Wherever its tokens stand, the row derives something that is `b` when it is laid bare. -/
def Spells (D : Judgment α) (bare : α → β) (row : List Token) (b : β) : Prop :=
  ∀ ts, ts.map Token.bare = row → ∀ i, ∃ d a j, D d ts i a j ∧ bare a = b

/-- A row with one more token at its end. -/
theorem exists_concat_of_map_bare {ts row : List Token} {t : Token}
    (h : ts.map Token.bare = row ++ [t]) :
    ∃ us u, ts = us ++ [u] ∧ us.map Token.bare = row ∧ u.bare = t := by
  obtain ⟨us, vs, rfl, hus, hvs⟩ := List.map_eq_append_iff.mp h
  obtain ⟨u, rfl, hu⟩ := List.map_eq_singleton_iff.mp hvs
  exact ⟨us, u, rfl, hus, hu⟩

/-! ### Expressions -/

section Expressions

variable {Op : Token.Kind → BinaryOp → Prop} {Operand : Judgment Expr} {row row' : List Token}
  {t : Token} {e e' : Expr}

theorem Spells.one (h : Spells Operand Expr.bare row e) :
    Spells (Chain Op Operand) Expr.bare row e := by
  intro ts hts i
  obtain ⟨d, a, j, ha, hbare⟩ := h ts hts i
  exact ⟨d, a, j, .one ha, hbare⟩

theorem Spells.more {op : BinaryOp} (hleft : Spells (Chain Op Operand) Expr.bare row e)
    (hop : Op t.kind op) (hright : Spells Operand Expr.bare row' e') :
    Spells (Chain Op Operand) Expr.bare (row ++ t :: row') (.binary op e e' .start) := by
  intro ts hts i
  obtain ⟨us, vs, rfl, hus, hvs⟩ := List.map_eq_append_iff.mp hts
  obtain ⟨u, ws, rfl, rfl, hws⟩ := List.map_eq_cons_iff.mp hvs
  obtain ⟨d, left, j, hl, rfl⟩ := hleft us hus i
  obtain ⟨d', right, k, hr, rfl⟩ := hright ws hws j
  exact ⟨_, _, k, .more hl hop hr, rfl⟩

theorem Spells.signed {op : UnaryOp} (hsign : IsSign t.kind op)
    (h : Spells IsFactor Expr.bare row e) :
    Spells IsFactor Expr.bare (t :: row) (.unary op e .start) := by
  intro ts hts i
  obtain ⟨u, us, rfl, rfl, hus⟩ := List.map_eq_cons_iff.mp hts
  obtain ⟨d, operand, j, hoperand, rfl⟩ := h us hus i
  exact ⟨_, _, j, .signed hsign hoperand, rfl⟩

theorem Spells.literal {v : Value} (hkind : IsLiteral t.kind) (hvalue : t.value = some v) :
    Spells IsFactor Expr.bare [t] (.literal v) := by
  intro ts hts i
  obtain ⟨u, rfl, rfl⟩ := List.map_eq_singleton_iff.mp hts
  exact ⟨0, _, i, .literal hkind hvalue, rfl⟩

theorem Spells.parenthesized {l r : Token} (hl : l.kind = .leftParen)
    (hr : r.kind = .rightParen) (h : Spells IsExpr Expr.bare row e) :
    Spells IsFactor Expr.bare (l :: (row ++ [r])) e := by
  intro ts hts i
  obtain ⟨l, us, rfl, rfl, hus⟩ := List.map_eq_cons_iff.mp hts
  obtain ⟨vs, r, rfl, hvs, rfl⟩ := exists_concat_of_map_bare hus
  obtain ⟨d, inner, j, hinner, hbare⟩ := h vs hvs i
  exact ⟨_, inner, j, .parenthesized hl hinner hr, hbare⟩

theorem Spells.var (ht : t.kind = .identifier) :
    Spells IsFactor Expr.bare [t] (.var ⟨t.word, 0, .start⟩) := by
  intro ts hts i
  obtain ⟨u, rfl, rfl⟩ := List.map_eq_singleton_iff.mp hts
  exact ⟨0, _, i + 1, .var ht, rfl⟩

end Expressions

/-! ### Lists -/

section Lists

variable {Item : Judgment α} {Items : Judgment (List α)} {bare : α → β} {row row' : List Token}
  {b : β} {bs : List β}

theorem Spells.nil : Spells (Many Item) (List.map bare) [] [] := by
  intro ts hts i
  obtain rfl := List.map_eq_nil_iff.mp hts
  exact ⟨0, [], i, .nil, rfl⟩

theorem Spells.cons (h : Spells Item bare row b)
    (h' : Spells (Many Item) (List.map bare) row' bs) :
    Spells (Many Item) (List.map bare) (row ++ row') (b :: bs) := by
  intro ts hts i
  obtain ⟨us, vs, rfl, hus, hvs⟩ := List.map_eq_append_iff.mp hts
  obtain ⟨d, a, j, ha, rfl⟩ := h us hus i
  obtain ⟨d', as, k, has, rfl⟩ := h' vs hvs j
  exact ⟨_, a :: as, k, .cons ha has, rfl⟩

theorem Spells.preceded {sep : Token.Kind} {t : Token} (ht : t.kind = sep)
    (h : Spells Item bare row b) :
    Spells (Preceded sep Item) bare (t :: row) b := by
  intro ts hts i
  obtain ⟨u, us, rfl, rfl, hus⟩ := List.map_eq_cons_iff.mp hts
  obtain ⟨d, a, j, ha, hbare⟩ := h us hus i
  exact ⟨d, a, j, .mk ht ha, hbare⟩

theorem Spells.separated {sep : Token.Kind} (h : Spells Item bare row b)
    (h' : Spells (Many (Preceded sep Item)) (List.map bare) row' bs) :
    Spells (Separated sep Item) (List.map bare) (row ++ row') (b :: bs) := by
  intro ts hts i
  obtain ⟨us, vs, rfl, hus, hvs⟩ := List.map_eq_append_iff.mp hts
  obtain ⟨d, a, j, ha, rfl⟩ := h us hus i
  obtain ⟨d', as, k, has, rfl⟩ := h' vs hvs j
  exact ⟨_, a :: as, k, .mk ha has, rfl⟩

theorem Spells.bracketed {l r : Token} {bares : List α → List β} (hl : l.kind = .leftParen)
    (hr : r.kind = .rightParen) (h : Spells Items bares row bs) :
    Spells (Bracketed Items) bares (l :: (row ++ [r])) bs := by
  intro ts hts i
  obtain ⟨l, us, rfl, rfl, hus⟩ := List.map_eq_cons_iff.mp hts
  obtain ⟨vs, r, rfl, hvs, rfl⟩ := exists_concat_of_map_bare hus
  obtain ⟨d, as, j, has, hbare⟩ := h vs hvs i
  exact ⟨_, as, j, .list hl has hr, hbare⟩

theorem Spells.absent : Spells (Bracketed Items) (List.map bare) [] [] := by
  intro ts hts i
  obtain rfl := List.map_eq_nil_iff.mp hts
  exact ⟨0, [], i, .absent, rfl⟩

theorem Spells.brackets {l r : Token} (hl : l.kind = .leftParen) (hr : r.kind = .rightParen) :
    Spells (Bracketed Items) (List.map bare) [l, r] [] := by
  intro ts hts i
  obtain ⟨l, us, rfl, rfl, hus⟩ := List.map_eq_cons_iff.mp hts
  obtain ⟨r, rfl, rfl⟩ := List.map_eq_singleton_iff.mp hus
  exact ⟨0, [], i, .empty hl hr, rfl⟩

end Lists

/-! ### Statements -/

/-- An item and a token of the kind `sep` behind it. -/
inductive Followed (sep : Token.Kind) (Item : Judgment α) : Judgment α
  | mk {d : Nat} {t : Token} {ts : List Token} {i j : NodeId} {a : α} :
      Item d ts i a j → t.kind = sep → Followed sep Item d (ts ++ [t]) i a j

theorem Separated.preceded {sep : Token.Kind} {Item : Judgment α} {d : Nat} {t : Token}
    {ts : List Token} {i j : NodeId} {as : List α} (ht : t.kind = sep)
    (h : Separated sep Item d ts i as j) : Many (Preceded sep Item) d (t :: ts) i as j := by
  obtain ⟨ha, has⟩ := h
  exact .cons (.mk ht ha) has

/-- Items that are all followed by a token of the kind `sep` are separated by it from each
other, and the last of them from an item without tokens. -/
theorem Many.exists_separated {sep : Token.Kind} {Item : Judgment α} {z : α}
    (hz : ∀ i, Item 0 [] i z i) {d : Nat} {ts : List Token} {i j : NodeId} {as : List α}
    (h : Many (Followed sep Item) d ts i as j) :
    ∃ d', Separated sep Item d' ts i (as ++ [z]) j := by
  induction h with
  | nil => exact ⟨_, .mk (hz _) .nil⟩
  | cons ha _ ih =>
      obtain ⟨ha, ht⟩ := ha
      obtain ⟨d', hbs⟩ := ih
      rw [List.append_assoc]
      exact ⟨_, .mk ha (hbs.preceded ht)⟩

section Statements

variable {row : List Token} {t : Token}

theorem Spells.compound {b e : Token} {body : List Statement} (hb : b.kind = .beginBlock)
    (he : e.kind = .endBlock)
    (h : Spells (Many (Followed .semicolon IsStatement)) Statement.bareAll row body) :
    Spells IsCompound Statement.bareAll (b :: (row ++ [e])) body := by
  intro ts hts i
  obtain ⟨b, us, rfl, rfl, hus⟩ := List.map_eq_cons_iff.mp hts
  obtain ⟨vs, e, rfl, hvs, rfl⟩ := exists_concat_of_map_bare hus
  obtain ⟨d, as, j, has, hbare⟩ := h vs hvs i
  obtain ⟨d', hseparated⟩ := Many.exists_separated (fun _ => .empty) has
  refine ⟨_, _, j, .mk hb hseparated he, ?_⟩
  rw [Statement.bareAll_append, hbare]
  exact List.append_nil body

theorem Spells.noStatement :
    Spells (Many (Followed .semicolon IsStatement)) Statement.bareAll [] [] := by
  intro ts hts i
  obtain rfl := List.map_eq_nil_iff.mp hts
  exact ⟨0, [], i, .nil, rfl⟩

theorem Spells.statement {row' : List Token} {s : Statement} {body : List Statement}
    (h : Spells IsStatement Statement.bare row s) (hs : s.isEmpty = false)
    (ht : t.kind = .semicolon)
    (h' : Spells (Many (Followed .semicolon IsStatement)) Statement.bareAll row' body) :
    Spells (Many (Followed .semicolon IsStatement)) Statement.bareAll (row ++ t :: row')
      (s :: body) := by
  intro ts hts i
  obtain ⟨us, vs, rfl, hus, hvs⟩ := List.map_eq_append_iff.mp hts
  obtain ⟨u, ws, rfl, rfl, hws⟩ := List.map_eq_cons_iff.mp hvs
  obtain ⟨d, a, j, ha, rfl⟩ := h us hus i
  obtain ⟨d', as, k, has, rfl⟩ := h' ws hws j
  rw [Statement.isEmpty_bare] at hs
  have hmany := Many.cons (Followed.mk (t := u) ha ht) has
  rw [List.append_assoc] at hmany
  exact ⟨_, a :: as, k, hmany, by simp [Statement.bareAll, hs]⟩

theorem Spells.block {body : List Statement}
    (h : Spells IsCompound Statement.bareAll row body) :
    Spells IsStatement Statement.bare row (.compound body) := by
  intro ts hts i
  obtain ⟨d, as, j, has, rfl⟩ := h ts hts i
  exact ⟨d, _, j, .compound has, rfl⟩

theorem Spells.assign {a : Token} {e : Expr} (ht : t.kind = .identifier)
    (ha : a.kind = .assign) (h : Spells IsExpr Expr.bare row e) :
    Spells IsStatement Statement.bare (t :: a :: row) (.assign ⟨t.word, 0, .start⟩ e) := by
  intro ts hts i
  obtain ⟨t, us, rfl, rfl, hus⟩ := List.map_eq_cons_iff.mp hts
  obtain ⟨a, vs, rfl, rfl, hvs⟩ := List.map_eq_cons_iff.mp hus
  obtain ⟨d, value, j, hvalue, rfl⟩ := h vs hvs (i + 1)
  exact ⟨d, _, j, .assign ht ha hvalue, rfl⟩

theorem Spells.call {args : List Expr} (ht : t.kind = .identifier)
    (h : Spells IsArguments (List.map Expr.bare) row args) :
    Spells IsStatement Statement.bare (t :: row) (.call ⟨t.word, args, 0, .start⟩) := by
  intro ts hts i
  obtain ⟨t, us, rfl, rfl, hus⟩ := List.map_eq_cons_iff.mp hts
  obtain ⟨d, as, j, has, rfl⟩ := h us hus i
  exact ⟨d, _, j + 1, .call ht has, rfl⟩

theorem Spells.write {newline : Bool} {args : List Expr} (ht : IsWrite t.kind newline)
    (h : Spells IsArguments (List.map Expr.bare) row args) :
    Spells IsStatement Statement.bare (t :: row) (.write newline args .start) := by
  intro ts hts i
  obtain ⟨t, us, rfl, rfl, hus⟩ := List.map_eq_cons_iff.mp hts
  obtain ⟨d, as, j, has, rfl⟩ := h us hus i
  exact ⟨d, _, j, .write ht has, rfl⟩

end Statements

/-! ### Declarations -/

section Declarations

variable {row row' : List Token}

/-- A name with its type. -/
theorem Spells.group {n c t : Token} {type : DataType} (hn : n.kind = .identifier)
    (hc : c.kind = .colon) (ht : IsType t.kind type) :
    Spells IsGroup (List.map VarDecl.bare) [n, c, t] [⟨n.word, .start, type, .start⟩] := by
  intro ts hts i
  obtain ⟨n, us, rfl, rfl, hus⟩ := List.map_eq_cons_iff.mp hts
  obtain ⟨c, vs, rfl, rfl, hvs⟩ := List.map_eq_cons_iff.mp hus
  obtain ⟨t, rfl, rfl⟩ := List.map_eq_singleton_iff.mp hvs
  have hgroup := IsGroup.mk (c := c) (t := t) (.mk (.mk (t := n) (i := i) hn) .nil) hc ht
  exact ⟨_, _, i, hgroup, rfl⟩

theorem Spells.declaration {v s : Token} {decls : List VarDecl} (hv : v.kind = .var)
    (hs : s.kind = .semicolon) (h : Spells IsGroup (List.map VarDecl.bare) row decls) :
    Spells IsSection (List.map VarDecl.bare) (v :: (row ++ [s])) decls := by
  intro ts hts i
  obtain ⟨v, us, rfl, rfl, hus⟩ := List.map_eq_cons_iff.mp hts
  obtain ⟨vs, s, rfl, hvs, rfl⟩ := exists_concat_of_map_bare hus
  obtain ⟨d, as, j, has, rfl⟩ := h vs hvs i
  have hsection := IsSection.mk (v := v) hv (.mk (s := s) has hs) .nil
  simp only [List.append_nil, List.flatten_nil] at hsection
  exact ⟨_, _, j, hsection, rfl⟩

theorem Spells.procedure {p n s e : Token} {groups : List (List VarDecl)} {block : Block}
    (hp : p.kind = .procedure) (hn : n.kind = .identifier) (hs : s.kind = .semicolon)
    (he : e.kind = .semicolon)
    (hparams : Spells IsParams (List.map (List.map VarDecl.bare)) row groups)
    (hblock : Spells IsBlock Block.bare row' block) :
    Spells IsProcedure Procedure.bare (p :: n :: (row ++ s :: (row' ++ [e])))
      (.mk n.word .start groups.flatten block) := by
  intro ts hts i
  obtain ⟨p, us, rfl, rfl, hus⟩ := List.map_eq_cons_iff.mp hts
  obtain ⟨n, vs, rfl, rfl, hvs⟩ := List.map_eq_cons_iff.mp hus
  obtain ⟨params, ws, rfl, hrow, hws⟩ := List.map_eq_append_iff.mp hvs
  obtain ⟨s, xs, rfl, rfl, hxs⟩ := List.map_eq_cons_iff.mp hws
  obtain ⟨inner, e, rfl, hrow', rfl⟩ := exists_concat_of_map_bare hxs
  obtain ⟨d, groups, j, hgroups, rfl⟩ := hparams params hrow i
  obtain ⟨d', block, k, hb, rfl⟩ := hblock inner hrow' j
  refine ⟨_, _, k, .mk hp hn hgroups hs hb he, ?_⟩
  simp [Procedure.bare, List.map_flatten]

theorem Spells.blockOf {row'' : List Token} {sections : List (List VarDecl)}
    {procedures : List Procedure} {body : List Statement}
    (hsections : Spells (Many IsSection) (List.map (List.map VarDecl.bare)) row sections)
    (hprocedures : Spells (Many IsProcedure) (List.map Procedure.bare) row' procedures)
    (hbody : Spells IsCompound Statement.bareAll row'' body) :
    Spells IsBlock Block.bare (row ++ (row' ++ row''))
      (.mk sections.flatten procedures body) := by
  intro ts hts i
  obtain ⟨us, vs, rfl, hus, hvs⟩ := List.map_eq_append_iff.mp hts
  obtain ⟨ws, xs, rfl, hws, hxs⟩ := List.map_eq_append_iff.mp hvs
  obtain ⟨d, sections, j, hs, rfl⟩ := hsections us hus i
  obtain ⟨d', procedures, k, hp, rfl⟩ := hprocedures ws hws j
  obtain ⟨d'', body, l, hb, rfl⟩ := hbody xs hxs k
  refine ⟨_, _, l, .mk hs hp hb, ?_⟩
  simp [Block.bare, Procedure.bareAll_eq_map, List.map_flatten]

/-- A whole program. -/
theorem Spells.program {p n s e : Token} {block : Block} (hp : p.kind = .program)
    (hn : n.kind = .identifier) (hs : s.kind = .semicolon) (he : e.kind = .dot)
    (h : Spells IsBlock Block.bare row block) {ts : List Token}
    (hts : ts.map Token.bare = p :: n :: s :: (row ++ [e])) :
    ∃ d program, IsProgram d ts program ∧ program.bare = ⟨n.word, block, .start⟩ := by
  obtain ⟨p, us, rfl, rfl, hus⟩ := List.map_eq_cons_iff.mp hts
  obtain ⟨n, vs, rfl, rfl, hvs⟩ := List.map_eq_cons_iff.mp hus
  obtain ⟨s, ws, rfl, rfl, hws⟩ := List.map_eq_cons_iff.mp hvs
  obtain ⟨inner, e, rfl, hrow, rfl⟩ := exists_concat_of_map_bare hws
  obtain ⟨d, block, j, hb, rfl⟩ := h inner hrow 0
  exact ⟨d, _, .mk hp hn hs hb he, rfl⟩

end Declarations

end MiniPascal.Grammar

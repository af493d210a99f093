import MiniPascal.Grammar.Program

/-!
The grammar by itself, as derivations of trees from rows of tokens. A judgment such as `IsExpr
d ts i e j` says that the tokens `ts` derive the expression `e`; that at most `d` levels of
nesting are open at once in the derivation, and `d` of them somewhere; and that its uses of
variables and its calls are numbered from `i` up to `j`.

The rules look at kinds of tokens only. What a tree takes from its tokens is the word of an
identifier, the value of a literal, and positions.
-/

namespace MiniPascal

/-- The name that an identifier gives. -/
def Token.word (t : Token) : String := t.spelling?.getD ""

namespace Grammar

/-- What a row of tokens can derive. -/
abbrev Judgment (α : Type) := Nat → List Token → NodeId → α → NodeId → Prop

/-- Derived with at most `n` levels open at once. -/
def Judgment.Within {α : Type} (D : Judgment α) (n : Nat) (ts : List Token)
    (i : NodeId) (a : α) (j : NodeId) : Prop :=
  ∃ d ≤ n, D d ts i a j

/-- Any number of items, one after the other. -/
inductive Many {α : Type} (Item : Judgment α) : Judgment (List α)
  | nil {i : NodeId} : Many Item 0 [] i [] i
  | cons {d d' : Nat} {ts us : List Token} {i j k : NodeId} {a : α} {as : List α} :
      Item d ts i a j → Many Item d' us j as k → Many Item (max d d') (ts ++ us) i (a :: as) k

/-- An item after a token of the kind `sep`. -/
inductive Preceded {α : Type} (sep : Token.Kind) (Item : Judgment α) : Judgment α
  | mk {d : Nat} {t : Token} {ts : List Token} {i j : NodeId} {a : α} :
      t.kind = sep → Item d ts i a j → Preceded sep Item d (t :: ts) i a j

/-- One item or more, with a token of the kind `sep` between any two. -/
inductive Separated {α : Type} (sep : Token.Kind) (Item : Judgment α) : Judgment (List α)
  | mk {d d' : Nat} {ts us : List Token} {i j k : NodeId} {a : α} {as : List α} :
      Item d ts i a j → Many (Preceded sep Item) d' us j as k →
      Separated sep Item (max d d') (ts ++ us) i (a :: as) k

/-- A list in parentheses, which may be left out with its parentheses or inside them. -/
inductive Bracketed {α : Type} (Items : Judgment (List α)) : Judgment (List α)
  | absent {i : NodeId} : Bracketed Items 0 [] i [] i
  | empty {l r : Token} {i : NodeId} :
      l.kind = .leftParen → r.kind = .rightParen → Bracketed Items 0 [l, r] i [] i
  | list {d : Nat} {l r : Token} {ts : List Token} {i j : NodeId} {as : List α} :
      l.kind = .leftParen → Items d ts i as j → r.kind = .rightParen →
      Bracketed Items d (l :: (ts ++ [r])) i as j

/-- Operands with operators between them, grouped to the left. -/
inductive Chain (Op : Token.Kind → BinaryOp → Prop) (Operand : Judgment Expr) : Judgment Expr
  | one {d : Nat} {ts : List Token} {i j : NodeId} {e : Expr} :
      Operand d ts i e j → Chain Op Operand d ts i e j
  | more {d d' : Nat} {ts us : List Token} {t : Token} {op : BinaryOp} {i j k : NodeId}
      {left right : Expr} :
      Chain Op Operand d ts i left j → Op t.kind op → Operand d' us j right k →
      Chain Op Operand (max d d') (ts ++ t :: us) i (.binary op left right t.position) k

/-! ### Expressions -/

inductive IsSumOp : Token.Kind → BinaryOp → Prop
  | plus : IsSumOp .plus .add
  | minus : IsSumOp .minus .sub

inductive IsProductOp : Token.Kind → BinaryOp → Prop
  | times : IsProductOp .times .mul
  | div : IsProductOp .div .integerDiv
  | slash : IsProductOp .slash .realDiv

inductive IsSign : Token.Kind → UnaryOp → Prop
  | plus : IsSign .plus .plus
  | minus : IsSign .minus .minus

inductive IsLiteral : Token.Kind → Prop
  | integer : IsLiteral .integerLiteral
  | real : IsLiteral .realLiteral
  | string : IsLiteral .stringLiteral

theorem isLiteral_iff {k : Token.Kind} :
    IsLiteral k ↔ k ∈ [.integerLiteral, .realLiteral, .stringLiteral] := by
  constructor
  · rintro (_ | _ | _) <;> decide
  · cases k <;> intro h <;> first | constructor | exact absurd h (by decide)

instance : DecidablePred IsLiteral := fun _ => decidable_of_iff _ isLiteral_iff.symm

/-- A sign and a pair of parentheses each open a level. -/
inductive IsFactor : Judgment Expr
  | signed {d : Nat} {t : Token} {ts : List Token} {op : UnaryOp} {i j : NodeId} {e : Expr} :
      IsSign t.kind op → IsFactor d ts i e j →
      IsFactor (d + 1) (t :: ts) i (.unary op e t.position) j
  | literal {t : Token} {v : Value} {i : NodeId} :
      IsLiteral t.kind → t.value = some v → IsFactor 0 [t] i (.literal v) i
  | parenthesized {d : Nat} {l r : Token} {ts : List Token} {i j : NodeId} {e : Expr} :
      l.kind = .leftParen → Chain IsSumOp (Chain IsProductOp IsFactor) d ts i e j →
      r.kind = .rightParen → IsFactor (d + 1) (l :: (ts ++ [r])) i e j
  | var {t : Token} {i : NodeId} :
      t.kind = .identifier → IsFactor 0 [t] i (.var ⟨t.word, i, t.position⟩) (i + 1)

abbrev IsTerm : Judgment Expr := Chain IsProductOp IsFactor

abbrev IsExpr : Judgment Expr := Chain IsSumOp IsTerm

/-! ### Statements -/

abbrev IsArguments : Judgment (List Expr) := Bracketed (Separated .comma IsExpr)

/-- The two words that write, and whether they end the line. -/
inductive IsWrite : Token.Kind → Bool → Prop
  | write : IsWrite .write false
  | writeln : IsWrite .writeln true

mutual

inductive IsStatement : Judgment Statement
  | compound {d : Nat} {ts : List Token} {i j : NodeId} {body : List Statement} :
      IsCompound d ts i body j → IsStatement d ts i (.compound body) j
  | assign {d : Nat} {t a : Token} {ts : List Token} {i j : NodeId} {e : Expr} :
      t.kind = .identifier → a.kind = .assign → IsExpr d ts (i + 1) e j →
      IsStatement d (t :: a :: ts) i (.assign ⟨t.word, i, t.position⟩ e) j
  | call {d : Nat} {t : Token} {ts : List Token} {i j : NodeId} {args : List Expr} :
      t.kind = .identifier → IsArguments d ts i args j →
      IsStatement d (t :: ts) i (.call ⟨t.word, args, j, t.position⟩) (j + 1)
  | write {d : Nat} {t : Token} {ts : List Token} {newline : Bool} {i j : NodeId}
      {args : List Expr} :
      IsWrite t.kind newline → IsArguments d ts i args j →
      IsStatement d (t :: ts) i (.write newline args t.position) j
  | empty {i : NodeId} : IsStatement 0 [] i .empty i

/-- A compound statement opens a level. -/
inductive IsCompound : Judgment (List Statement)
  | mk {d : Nat} {b e : Token} {ts : List Token} {i j : NodeId} {body : List Statement} :
      b.kind = .beginBlock → Separated .semicolon IsStatement d ts i body j →
      e.kind = .endBlock → IsCompound (d + 1) (b :: (ts ++ [e])) i body j

end

/-! ### Declarations -/

inductive IsName : Judgment (String × Position)
  | mk {t : Token} {i : NodeId} : t.kind = .identifier → IsName 0 [t] i (t.word, t.position) i

inductive IsType : Token.Kind → DataType → Prop
  | integer : IsType .integer .integer
  | real : IsType .real .real
  | string : IsType .string .string

/-- Names that share a type: one declaration for each name. -/
inductive IsGroup : Judgment (List VarDecl)
  | mk {d : Nat} {c t : Token} {ts : List Token} {type : DataType} {i j : NodeId}
      {names : List (String × Position)} :
      Separated .comma IsName d ts i names j → c.kind = .colon → IsType t.kind type →
      IsGroup d (ts ++ [c, t]) i (names.map fun n => ⟨n.1, n.2, type, t.position⟩) j

inductive IsLine : Judgment (List VarDecl)
  | mk {d : Nat} {s : Token} {ts : List Token} {i j : NodeId} {decls : List VarDecl} :
      IsGroup d ts i decls j → s.kind = .semicolon → IsLine d (ts ++ [s]) i decls j

/-- One line or more after the word `VAR`. -/
inductive IsSection : Judgment (List VarDecl)
  | mk {d d' : Nat} {v : Token} {ts us : List Token} {i j k : NodeId} {first : List VarDecl}
      {others : List (List VarDecl)} :
      v.kind = .var → IsLine d ts i first j → Many IsLine d' us j others k →
      IsSection (max d d') (v :: (ts ++ us)) i (first ++ others.flatten) k

/-- The groups of parameters. -/
abbrev IsParams : Judgment (List (List VarDecl)) := Bracketed (Separated .semicolon IsGroup)

mutual

inductive IsProcedure : Judgment Procedure
  | mk {d d' : Nat} {p n s s' : Token} {ts us : List Token} {i j k : NodeId}
      {groups : List (List VarDecl)} {block : Block} :
      p.kind = .procedure → n.kind = .identifier → IsParams d ts i groups j →
      s.kind = .semicolon → IsBlock d' us j block k → s'.kind = .semicolon →
      IsProcedure (max d d') (p :: n :: (ts ++ s :: (us ++ [s']))) i
        (.mk n.word n.position groups.flatten block) k

/-- A block opens a level. -/
inductive IsBlock : Judgment Block
  | mk {d d' d'' : Nat} {ts us vs : List Token} {i j k l : NodeId}
      {sections : List (List VarDecl)}
      {procedures : List Procedure} {body : List Statement} :
      Many IsSection d ts i sections j → Many IsProcedure d' us j procedures k →
      IsCompound d'' vs k body l →
      IsBlock (max d (max d' d'') + 1) (ts ++ (us ++ vs)) i
        (.mk sections.flatten procedures body) l

end

/-- A whole program, whose numbers start at zero. -/
inductive IsProgram : Nat → List Token → Program → Prop
  | mk {d : Nat} {p n s e : Token} {ts : List Token} {j : NodeId} {block : Block} :
      p.kind = .program → n.kind = .identifier → s.kind = .semicolon → IsBlock d ts 0 block j →
      e.kind = .dot → IsProgram d (p :: n :: s :: (ts ++ [e])) ⟨n.word, block, p.position⟩

end Grammar

end MiniPascal

import MiniPascal.Proofs.Grammar.Writing

/-!
How high the tree of a program can be when its nesting is limited. All that nests opens a
level, apart from the operands of operations with two operands: a row of such operations grows
to the left with no level open. So the limit bounds the height for rows of a given length, and
not by itself.
-/

namespace MiniPascal

/-! ### Heights -/

/-- The largest of the numbers. -/
def highest {α : Type} (f : α → Nat) (xs : List α) : Nat := xs.foldr (fun x n => max (f x) n) 0

@[simp]
theorem highest_cons {α : Type} (f : α → Nat) (x : α) (xs : List α) :
    highest f (x :: xs) = max (f x) (highest f xs) :=
  rfl

theorem highest_mono {α : Type} {f g : α → Nat} (xs : List α) (h : ∀ x ∈ xs, f x ≤ g x) :
    highest f xs ≤ highest g xs := by
  induction xs with
  | nil => simp [highest]
  | cons x xs ih =>
      have hx := h x List.mem_cons_self
      have hxs := ih fun y hy => h y (List.mem_cons_of_mem x hy)
      simp only [highest_cons]
      omega

namespace Expr

def height : Expr → Nat
  | .var _ => 1
  | .binary _ left right _ => max left.height right.height + 1
  | .unary _ operand _ => operand.height + 1
  | .literal _ => 1

/-- The operations with two operands in a row, each the left operand of the one before. -/
def row : Expr → Nat
  | .binary _ left _ _ => left.row + 1
  | _ => 0

def longestRow : Expr → Nat
  | .var _ => 0
  | .binary _ left right _ => max (left.row + 1) (max left.longestRow right.longestRow)
  | .unary _ operand _ => operand.longestRow
  | .literal _ => 0

theorem row_le_longestRow (e : Expr) : e.row ≤ e.longestRow := by
  cases e <;> simp [row, longestRow]

theorem row_lt_height (e : Expr) : e.row < e.height := by
  induction e with
  | binary op left right p ihl ihr =>
      simp only [row, height]
      omega
  | _ => simp [row, height]

theorem longestRow_lt_height (e : Expr) : e.longestRow < e.height := by
  induction e with
  | binary op left right p ihl ihr =>
      have hrow := left.row_lt_height
      simp only [longestRow, height]
      omega
  | _ => simp_all [longestRow, height] <;> omega

end Expr

namespace Statement

mutual

/-- The largest of the numbers of the expressions, where every statement around one adds
`step`. -/
def deepest (step : Nat) (f : Expr → Nat) : Statement → Nat
  | .compound body => deepestOf step f body + step
  | .assign _ value => f value + step
  | .call c => highest f c.args + step
  | .write _ args _ => highest f args + step
  | .empty => step

def deepestOf (step : Nat) (f : Expr → Nat) : List Statement → Nat
  | [] => 0
  | s :: statements => max (s.deepest step f) (deepestOf step f statements)

end

theorem deepestOf_eq_highest (step : Nat) (f : Expr → Nat) (body : List Statement) :
    deepestOf step f body = highest (deepest step f) body := by
  induction body with
  | nil => rfl
  | cons s body ih => rw [deepestOf, ih, highest_cons]

end Statement

mutual

/-- A block and its body add `step` each. -/
def Block.deepest (step : Nat) (f : Expr → Nat) : Block → Nat
  | .mk _ procedures body =>
      max (Procedure.deepestOf step f procedures)
        (Statement.deepestOf step f body + step) + step

def Procedure.deepest (step : Nat) (f : Expr → Nat) : Procedure → Nat
  | .mk _ _ _ block => block.deepest step f

def Procedure.deepestOf (step : Nat) (f : Expr → Nat) : List Procedure → Nat
  | [] => 0
  | p :: procedures => max (p.deepest step f) (Procedure.deepestOf step f procedures)

end

theorem Procedure.deepestOf_eq_highest (step : Nat) (f : Expr → Nat)
    (procedures : List Procedure) :
    deepestOf step f procedures = highest (deepest step f) procedures := by
  induction procedures with
  | nil => rfl
  | cons p procedures ih => rw [deepestOf, ih, highest_cons]

/-- The longest chain of blocks, statements and expressions inside each other. -/
def Program.height (p : Program) : Nat := p.block.deepest 1 Expr.height

/-- The longest row of operations in the program. -/
def Program.longestRow (p : Program) : Nat := p.block.deepest 0 Expr.longestRow

/-! ### Rows make a tree high -/

mutual

theorem Statement.deepest_lt {f g : Expr → Nat} (h : ∀ e, f e < g e) :
    (s : Statement) → s.deepest 0 f < s.deepest 1 g
  | .compound body => by
      have hbody := Statement.deepestOf_le h body
      simp only [deepest]
      omega
  | .assign _ value => by
      have hvalue := h value
      simp only [deepest]
      omega
  | .call c => by
      have hargs := highest_mono c.args fun e _ => Nat.le_of_lt (h e)
      simp only [deepest]
      omega
  | .write _ args _ => by
      have hargs := highest_mono args fun e _ => Nat.le_of_lt (h e)
      simp only [deepest]
      omega
  | .empty => Nat.zero_lt_one

theorem Statement.deepestOf_le {f g : Expr → Nat} (h : ∀ e, f e < g e) :
    (body : List Statement) → Statement.deepestOf 0 f body ≤ Statement.deepestOf 1 g body
  | [] => Nat.le_refl 0
  | s :: body => by
      have hs := s.deepest_lt h
      have hbody := Statement.deepestOf_le h body
      simp only [deepestOf]
      omega

end

mutual

theorem Block.deepest_lt {f g : Expr → Nat} (h : ∀ e, f e < g e) :
    (b : Block) → b.deepest 0 f < b.deepest 1 g
  | .mk _ procedures body => by
      have hprocedures := Procedure.deepestOf_le h procedures
      have hbody := Statement.deepestOf_le h body
      simp only [Block.deepest]
      omega

theorem Procedure.deepest_lt {f g : Expr → Nat} (h : ∀ e, f e < g e) :
    (p : Procedure) → p.deepest 0 f < p.deepest 1 g
  | .mk _ _ _ block => block.deepest_lt h

theorem Procedure.deepestOf_le {f g : Expr → Nat} (h : ∀ e, f e < g e) :
    (procedures : List Procedure) →
      Procedure.deepestOf 0 f procedures ≤ Procedure.deepestOf 1 g procedures
  | [] => Nat.le_refl 0
  | p :: procedures => by
      have hp := p.deepest_lt h
      have hprocedures := Procedure.deepestOf_le h procedures
      simp only [Procedure.deepestOf]
      omega

end

theorem Program.longestRow_lt_height (p : Program) : p.longestRow < p.height :=
  p.block.deepest_lt Expr.longestRow_lt_height

/-! ### The limit of nesting bounds all but the rows -/

namespace Grammar

variable {α : Type} {n k m : Nat}

/-- With at most `n` levels, and rows of at most `k` operations, nothing higher than `m` is
derived. -/
def Bounded (D : Judgment α) (row height : α → Nat) (n k m : Nat) : Prop :=
  ∀ ⦃d ts i a j⦄, D d ts i a j → d ≤ n → row a ≤ k → height a ≤ m

theorem Many.bounded {Item : Judgment α} {row height : α → Nat}
    (hitem : Bounded Item row height n k m) :
    Bounded (Many Item) (highest row) (highest height) n k m := by
  intro d ts i as j h hd
  induction h with
  | nil => simp [highest]
  | cons ha _ ih =>
      obtain ⟨hd, hd'⟩ := Nat.max_le.mp hd
      intro hrow
      obtain ⟨hrow, hrows⟩ := Nat.max_le.mp hrow
      exact Nat.max_le.mpr ⟨hitem ha hd hrow, ih hd' hrows⟩

theorem Separated.bounded {sep : Token.Kind} {Item : Judgment α} {row height : α → Nat}
    (hitem : Bounded Item row height n k m) :
    Bounded (Separated sep Item) (highest row) (highest height) n k m := by
  have hpreceded : Bounded (Preceded sep Item) row height n k m := by
    rintro d _ i a j ⟨_, ha⟩
    exact hitem ha
  rintro d _ i as j ⟨ha, has⟩ hd hrow
  obtain ⟨hd, hd'⟩ := Nat.max_le.mp hd
  obtain ⟨hrow, hrows⟩ := Nat.max_le.mp hrow
  exact Nat.max_le.mpr ⟨hitem ha hd hrow, Many.bounded hpreceded has hd' hrows⟩

theorem Bracketed.bounded {Items : Judgment (List α)} {row height : α → Nat}
    (hitems : Bounded Items (highest row) (highest height) n k m) :
    Bounded (Bracketed Items) (highest row) (highest height) n k m := by
  intro d ts i as j h hd hrow
  cases h with
  | absent => exact Nat.zero_le m
  | empty _ _ => exact Nat.zero_le m
  | list _ has _ => exact hitems has hd hrow

/-- A chain is no higher than its operands and its row together. -/
theorem Chain.bounded {Op : Token.Kind → BinaryOp → Prop} {Operand : Judgment Expr}
    (hoperand : Bounded Operand Expr.longestRow Expr.height n k m) :
    Bounded (Chain Op Operand) Expr.longestRow Expr.height n k (m + k) := by
  intro d ts i e j h hd hrow
  have hheight : e.height ≤ m + e.row := by
    induction h with
    | one he => exact Nat.le_add_right_of_le (hoperand he hd hrow)
    | more _ _ hright ih =>
        obtain ⟨hd, hd'⟩ := Nat.max_le.mp hd
        simp only [Expr.longestRow, Nat.max_le] at hrow
        have hl := ih hd hrow.2.1
        have hr := hoperand hright hd' hrow.2.2
        simp only [Expr.height, Expr.row]
        omega
  have hlongest := e.row_le_longestRow
  omega

theorem IsFactor.bounded (n k : Nat) :
    Bounded IsFactor Expr.longestRow Expr.height n k (n * (2 * k + 1) + 1) := by
  induction n with
  | zero =>
      intro d ts i e j h hd hrow
      cases h with
      | signed _ _ => cases hd
      | parenthesized _ _ _ => cases hd
      | literal _ _ => simp [Expr.height]
      | var _ => simp [Expr.height]
  | succ n ih =>
      intro d ts i e j h hd hrow
      rw [Nat.succ_mul]
      cases h with
      | literal _ _ => simp [Expr.height]
      | var _ => simp [Expr.height]
      | signed _ he =>
          have hoperand := ih he (Nat.le_of_succ_le_succ hd) hrow
          simp only [Expr.height]
          omega
      | parenthesized _ he _ =>
          have hinner := Chain.bounded (Chain.bounded ih) he (Nat.le_of_succ_le_succ hd) hrow
          omega

theorem IsExpr.bounded (n k : Nat) :
    Bounded IsExpr Expr.longestRow Expr.height n k ((n + 1) * (2 * k + 1)) := by
  intro d ts i e j h hd hrow
  have hexpr := Chain.bounded (Chain.bounded (IsFactor.bounded n k)) h hd hrow
  rw [Nat.succ_mul]
  omega

theorem IsArguments.bounded (n k : Nat) :
    Bounded IsArguments (highest Expr.longestRow) (highest Expr.height) n k
      ((n + 1) * (2 * k + 1)) :=
  Bracketed.bounded (Separated.bounded (IsExpr.bounded n k))

theorem IsStatement.bounded {n k : Nat}
    (hcompound : Bounded IsCompound (Statement.deepestOf 0 Expr.longestRow)
      (Statement.deepestOf 1 Expr.height) n k (n * (2 * k + 2))) :
    Bounded IsStatement (Statement.deepest 0 Expr.longestRow)
      (Statement.deepest 1 Expr.height) n k ((n + 1) * (2 * k + 2)) := by
  intro d ts i s j h hd hrow
  have hmul : (n + 1) * (2 * k + 2) = (n + 1) * (2 * k + 1) + n + 1 := by ring
  cases h with
  | compound hbody =>
      have hbound := hcompound hbody hd hrow
      simp only [Statement.deepest]
      rw [Nat.succ_mul]
      omega
  | assign _ _ he =>
      have hbound := IsExpr.bounded n k he hd hrow
      simp only [Statement.deepest]
      omega
  | call _ hargs | write _ hargs =>
      have hbound := IsArguments.bounded n k hargs hd hrow
      simp only [Statement.deepest]
      omega
  | empty =>
      simp only [Statement.deepest]
      omega

theorem IsCompound.bounded (n k : Nat) :
    Bounded IsCompound (Statement.deepestOf 0 Expr.longestRow)
      (Statement.deepestOf 1 Expr.height) n k (n * (2 * k + 2)) := by
  induction n with
  | zero =>
      rintro d _ i body j ⟨_, _, _⟩ hd
      cases hd
  | succ n ih =>
      rintro d _ i body j ⟨_, hbody, _⟩ hd hrow
      rw [Statement.deepestOf_eq_highest] at hrow ⊢
      exact Separated.bounded (IsStatement.bounded ih) hbody (Nat.le_of_succ_le_succ hd) hrow

theorem IsBlock.bounded (n k : Nat) :
    Bounded IsBlock (Block.deepest 0 Expr.longestRow) (Block.deepest 1 Expr.height) n k
      (n * (2 * k + 2) + 1) := by
  induction n with
  | zero =>
      rintro d _ i b j ⟨_, _, _⟩ hd
      cases hd
  | succ n ih =>
      rintro d _ i b j ⟨_, hprocedures, hbody⟩ hd hrow
      obtain ⟨-, hd⟩ := Nat.max_le.mp (Nat.le_of_succ_le_succ hd)
      obtain ⟨hd', hd''⟩ := Nat.max_le.mp hd
      have hprocedure : Bounded IsProcedure (Procedure.deepest 0 Expr.longestRow)
          (Procedure.deepest 1 Expr.height) n k (n * (2 * k + 2) + 1) := by
        rintro d _ i p j ⟨_, _, _, _, hblock, _⟩ hd hrow
        exact ih hblock (Nat.max_le.mp hd).2 hrow
      simp only [Block.deepest, Procedure.deepestOf_eq_highest, Nat.add_zero,
        Nat.max_le] at hrow ⊢
      have hinner := Many.bounded hprocedure hprocedures hd' hrow.1
      have houter := IsCompound.bounded n k hbody hd'' hrow.2
      rw [Nat.succ_mul]
      omega

theorem IsProgram.height_le {d : Nat} {ts : List Token} {program : Program}
    (h : IsProgram d ts program) (hd : d ≤ n) :
    program.height ≤ 2 * n * (program.longestRow + 1) + 1 := by
  have hbound : program.height ≤ n * (2 * program.longestRow + 2) + 1 := by
    obtain ⟨-, -, -, hblock, -⟩ := h
    exact IsBlock.bounded n _ hblock hd (Nat.le_refl _)
  calc
    program.height ≤ n * (2 * program.longestRow + 2) + 1 := hbound
    _ = 2 * n * (program.longestRow + 1) + 1 := by ring

end Grammar

/-! ### Rows without end -/

def onePiece : Piece := .integer (.single '1' rfl)

/-- Ones with `m` signs of addition between them. -/
def sumPieces : Nat → List Piece
  | 0 => [onePiece]
  | m + 1 => sumPieces m ++ [.mark '+' .plus rfl, onePiece]

theorem isLetter_of_isLower {c : Char} (h : c.isLower = true) : Text.isLetter c = true := by
  obtain ⟨hlow, hhigh⟩ := Bool.and_eq_true_iff.mp h
  have hall : ∀ n ∈ List.range' 97 26, Text.isLetter (Char.ofNat n) = true := by decide +kernel
  have hc := hall c.toNat (List.mem_range'_1.mpr
    ⟨of_decide_eq_true hlow, Nat.lt_succ_of_le (of_decide_eq_true hhigh)⟩)
  rwa [Char.ofNat_toNat] at hc

/-- A word in small letters. -/
def wordPiece (first : Char) (others : List Char) (hfirst : first.isLower = true)
    (hothers : others.all Char.isLower = true) : Piece :=
  .word first others (isLetter_of_isLower hfirst) fun c hc =>
    Bool.or_eq_true_iff.mpr (.inl (isLetter_of_isLower (List.all_eq_true.mp hothers c hc)))

theorem isBlank_space : Text.isBlank ' ' = true := by decide +kernel

/-- An assignment of the sum, and nothing else. -/
def sumProgramPieces (m : Nat) : List Piece :=
  [wordPiece 'p' "rogram".toList rfl rfl, .blank ' ' isBlank_space, wordPiece 'p' [] rfl rfl,
    .mark ';' .semicolon rfl, wordPiece 'b' "egin".toList rfl rfl, .blank ' ' isBlank_space,
    wordPiece 'x' [] rfl rfl, .assign]
  ++ sumPieces m
  ++ [.blank ' ' isBlank_space, wordPiece 'e' "nd".toList rfl rfl, .mark '.' .dot rfl]

def sumText (m : Nat) : String := String.ofList ((sumProgramPieces m).flatMap Piece.chars)

theorem joined_onePiece {rest : List Char} (h : Clear rest) : Joined [onePiece] rest :=
  ⟨onePiece.ends_of_clear h,
    by simp [onePiece, Piece.InRange, decimal, Digits.single], trivial⟩

theorem joined_sumPieces {m : Nat} {rest : List Char} (h : Clear rest) :
    Joined (sumPieces m) rest := by
  induction m generalizing rest with
  | zero => exact joined_onePiece h
  | succ m ih =>
      have hplus : (Piece.mark '+' .plus rfl).Ends (onePiece.chars ++ rest) := by
        simp [Piece.Ends]
      exact joined_append.mpr ⟨ih (clear_of_char (by decide +kernel) _), hplus, trivial,
        joined_onePiece h⟩

theorem joined_sumProgramPieces (m : Nat) : Joined (sumProgramPieces m) [] := by
  have hblank : ∀ rest, Clear (' ' :: rest) := clear_of_char (by decide +kernel)
  have hcolon : ∀ rest, Clear (':' :: rest) := clear_of_char (by decide +kernel)
  have hsemicolon : ∀ rest, Clear (';' :: rest) := clear_of_char (by decide +kernel)
  have hdot : Stops Cursor.isWordChar ['.'] := stops_cons (by decide +kernel)
  refine joined_append.mpr ⟨joined_append.mpr ⟨?_, joined_sumPieces (hblank _)⟩, ?_⟩
  · refine ⟨Piece.ends_of_clear _ (hblank _), trivial, trivial, trivial,
      Piece.ends_of_clear _ (hsemicolon _), trivial, ?_, trivial,
      Piece.ends_of_clear _ (hblank _),
      trivial, trivial, trivial, Piece.ends_of_clear _ (hcolon _), trivial, trivial,
        trivial, trivial⟩
    simp [Piece.Ends]
  · refine ⟨trivial, trivial, hdot, trivial, ?_, trivial, trivial⟩
    simp [Piece.Ends]

/-- A sum is as high as it is long, and opens no level. -/
theorem exists_sum {m : Nat} {ts : List Token}
    (h : ts.map Token.bare = bareTokens (sumPieces m)) (i : NodeId) :
    ∃ e, Grammar.IsExpr 0 ts i e i ∧ m < e.height := by
  have hone : ∀ {t : Token}, t.bare = ⟨.integerLiteral, some (.integer 1), .start⟩ →
      Grammar.IsTerm 0 [t] i (.literal (.integer 1)) i := by
    rintro ⟨kind, value, position⟩ ht
    cases ht
    exact .one (.literal .integer rfl)
  induction m generalizing ts with
  | zero =>
      obtain ⟨t, ts', rfl, ht, hts'⟩ := List.map_eq_cons_iff.mp h
      obtain rfl := List.map_eq_nil_iff.mp hts'
      exact ⟨_, .one (hone ht), Nat.zero_lt_one⟩
  | succ m ih =>
      rw [sumPieces, bareTokens_append] at h
      obtain ⟨us, vs, rfl, hus, hvs⟩ := List.map_eq_append_iff.mp h
      obtain ⟨p, vs', rfl, hp, hvs'⟩ := List.map_eq_cons_iff.mp hvs
      obtain ⟨t, ts', rfl, ht, hts'⟩ := List.map_eq_cons_iff.mp hvs'
      obtain rfl := List.map_eq_nil_iff.mp hts'
      obtain ⟨left, hleft, hheight⟩ := ih hus
      have hplus : Grammar.IsSumOp p.kind .add := by
        rw [← p.kind_bare, hp]
        exact .plus
      refine ⟨_, .more hleft hplus (hone ht), ?_⟩
      simp only [Expr.height]
      omega

/-- The program opens two levels, one for its block and one for the body. -/
theorem exists_sumProgram {m : Nat} {ts : List Token}
    (h : ts.map Token.bare = bareTokens (sumProgramPieces m)) :
    ∃ d ≤ 2, ∃ program, Grammar.IsProgram d ts program ∧ m < program.height := by
  rw [sumProgramPieces, bareTokens_append, bareTokens_append] at h
  obtain ⟨front, back, rfl, hfront, hback⟩ := List.map_eq_append_iff.mp h
  obtain ⟨head, sum, rfl, hhead, hsum⟩ := List.map_eq_append_iff.mp hfront
  have hheadKinds : head.map Token.kind =
      [.program, .identifier, .semicolon, .beginBlock, .identifier, .assign] := by
    calc
      head.map Token.kind = (head.map Token.bare).map Token.kind := by simp
      _ = _ := by rw [hhead]; rfl
  have hbackKinds : back.map Token.kind = [.endBlock, .dot] := by
    calc
      back.map Token.kind = (back.map Token.bare).map Token.kind := by simp
      _ = _ := by rw [hback]; rfl
  simp only [List.map_eq_cons_iff, List.map_eq_nil_iff] at hheadKinds hbackKinds
  obtain ⟨p, _, rfl, hp, n, _, rfl, hn, s, _, rfl, hs, b, _, rfl, hb, t, _, rfl, ht,
      a, _, rfl, ha,
    rfl⟩ := hheadKinds
  obtain ⟨stop, _, rfl, hstop, dot, _, rfl, hdot, rfl⟩ := hbackKinds
  obtain ⟨e, he, hheight⟩ := exists_sum hsum 1
  have hassign : Grammar.IsStatement 0 (t :: a :: sum) 0
      (.assign ⟨t.word, 0, t.position⟩ e) 1 :=
    .assign ht ha he
  have hblock := Grammar.IsBlock.mk .nil .nil (.mk hb (.mk hassign .nil) hstop)
  have hprogram := Grammar.IsProgram.mk hp hn hs hblock hdot
  have hrow : [p, n, s, b, t, a] ++ sum ++ [stop, dot] =
      p :: n :: s :: ([] ++ ([] ++ b :: (t :: a :: sum ++ [] ++ [stop])) ++ [dot]) := by simp
  rw [hrow]
  refine ⟨_, Nat.le_refl 2, _, hprogram, ?_⟩
  simp only [Program.height, Block.deepest, Statement.deepestOf, Statement.deepest]
  omega

theorem exists_parse_sumText (m : Nat) (j : Journal) :
    ∃ program, (parse { maxNesting := 2 } (sumText m) j).1 = .ok program ∧
    m < program.height :=
  exists_parse_eq_ok (joined_sumProgramPieces m) (fun _ => exists_sumProgram) (Nat.le_refl 2) j

/-- **A row of operations is all that makes a tree higher than its limit of nesting allows.**
Whatever parses is higher than its longest row of operations is long; and, but for one node, at
most twice as high as the limit times the length of that row and one. -/
theorem height_is_bounded_by_nesting_and_rows (settings : Settings) (text : String)
    (j : Journal) (program : Program) (h : (parse settings text j).1 = .ok program) :
    program.longestRow < program.height ∧
      program.height ≤ 2 * settings.maxNesting * (program.longestRow + 1) + 1 := by
  obtain ⟨pieces, -, d, hd, hderived⟩ := parse_eq_ok_iff.mp h
  exact ⟨program.longestRow_lt_height, hderived.height_le hd⟩

theorem sumText_height :
    ∃ program, (parse { maxNesting := 2 } (sumText 9) { traces := [], dumps := [] }).1 =
      .ok program ∧ 9 < program.height ∧ program.longestRow < program.height ∧
      program.height ≤ 2 * 2 * (program.longestRow + 1) + 1 := by
  obtain ⟨program, hparse, hheight⟩ := exists_parse_sumText 9 { traces := [], dumps := [] }
  exact ⟨program, hparse, hheight, height_is_bounded_by_nesting_and_rows _ _ _ program hparse⟩

/-- **No function of the limit of nesting bounds the height.** Under a limit of two levels
there are trees of any height. -/
theorem no_height_from_nesting_alone :
    ¬ ∃ f : Nat → Nat, ∀ settings text j program, (parse settings text j).1 = .ok program →
      program.height ≤ f settings.maxNesting := by
  rintro ⟨f, hf⟩
  obtain ⟨program, hparse, hheight⟩ := exists_parse_sumText (f 2) { traces := [], dumps := [] }
  exact Nat.not_le_of_lt hheight (hf _ _ _ program hparse)

end MiniPascal

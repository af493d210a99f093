import MiniPascal.Proofs.Decimal.ReadBack
import MiniPascal.Proofs.Grammar.Literals
import MiniPascal.Proofs.Grammar.Spelling
import MiniPascal.Proofs.Token.PlainName

/-!
What the parts of a listing are read as, when the marks are left out. An operand that is an
operation with two operands has parentheses around it, so every operand is a factor, and a row
of operators never groups in another way than the tree does. Every statement ends with a
semicolon, so an empty one comes after the last.
-/

namespace MiniPascal

open Grammar

/-- The text, before anything that has the property `Next`, is read as something that is `b`
when it is laid bare. -/
def Prints {α β : Type} (Next : List Char → Prop) (D : Judgment α) (bare : α → β)
    (text : String) (b : β) : Prop :=
  ∃ row, Writes Next text.toList row ∧ Spells D bare row b

/-- The value can be written so that it is read again. -/
def Value.Readable : Value → Prop
  | .integer n => 0 ≤ n.toInt
  | .real x => x.isFinite = true ∧ Decimal.isNegative x = false
  | .string s => '\'' ∉ s.toList

/-- What is known about the uses and the literals in a part of a program: names are plain, and
their levels are those of the scopes that declare them. -/
structure Analysis.Legible (a : Analysis) (view : View) (us : List Use) (vs : List Value) :
    Prop where
  var {v : Variable} : .var v ∈ us →
    IsPlainName v.name.toList ∧ ∃ type, a.binding? v.id = some ⟨view.level v.name, type⟩
  call {c : Call} : .call c ∈ us →
    IsPlainName c.name.toList ∧ ∃ p, a.procedure? c.id = some p ∧ p.level = view.level c.name
  literal {v : Value} : v ∈ vs → v.Readable

theorem Analysis.Legible.subset {a : Analysis} {view : View} {us us' : List Use}
    {vs vs' : List Value} (h : a.Legible view us vs) (hus : us' ⊆ us) (hvs : vs' ⊆ vs) :
    a.Legible view us' vs' where
  var hv := h.var (hus hv)
  call hc := h.call (hus hc)
  literal hv := h.literal (hvs hv)

/-! ### Numbers and strings -/

theorem Clear.stops {rest : List Char} (h : Clear rest) : Stops Cursor.isWordChar rest :=
  fun c hc => (h c hc).1

/-- The decimal digits of a number. -/
def Digits.ofNat (n : Nat) : Digits where
  chars := Nat.toDigits 10 n
  ne_nil := Nat.toDigits_ne_nil
  isDigit _ hc := Nat.isDigit_of_mem_toDigits (by decide) (by decide) hc

theorem toList_realListing (x : Float) :
    (realListing x).toList = if (Decimal.plain x).toList.contains '.'
      then (Decimal.plain x).toList
      else (Decimal.plain x).toList ++ ['.', '0'] := by
  rw [realListing]
  split
  · rfl
  · exact String.toList_append

theorem prints_literal {v : Value} (h : v.Readable) :
    Prints Clear IsFactor Expr.bare (literalListing v) (.literal v) := by
  cases v with
  | integer n =>
      obtain ⟨k, hk⟩ := Int.eq_ofNat_of_zero_le h
      have htext : (literalListing (.integer n)).toList = (Digits.ofNat k).chars := by
        rw [literalListing, hk]
        exact String.toList_ofList
      have hrange : decimal (Digits.ofNat k).chars ≤ 2 ^ 63 - 1 := by
        rw [Digits.ofNat, Decimal.decimal_toDigits]
        have hlt := n.toInt_lt
        omega
      have hvalue : Int64.ofInt (decimal (Digits.ofNat k).chars) = n := by
        rw [Digits.ofNat, Decimal.decimal_toDigits, ← Int64.ofInt_toInt n, hk]
      have hwrites := writes_integer (Digits.ofNat k) hrange
      rw [hvalue, ← htext] at hwrites
      exact ⟨_, hwrites, .literal .integer rfl⟩
  | real x =>
      obtain ⟨whole, fraction, htext, hx⟩ := Decimal.exists_plain h.1 h.2
      have hwrites := writes_real whole fraction hx h.1
      rw [← htext, ← toList_realListing] at hwrites
      exact ⟨_, hwrites, .literal .real rfl⟩
  | string s =>
      have htext : (literalListing (.string s)).toList = '\'' :: (s.toList ++ ['\'']) := by
        simp [literalListing, toString]
      have hwrites := writes_quoted h
      rw [String.ofList_toList, ← htext] at hwrites
      exact ⟨_, hwrites.weaken fun _ _ => trivial, .literal .string rfl⟩

/-! ### Expressions -/

theorem name_lacks_bracket (type : DataType) : '>' ∉ type.name.toList := by
  cases type <;> decide

section Expressions

variable {a : Analysis} {view : View}

theorem writes_variable {v : Variable} (hname : IsPlainName v.name.toList)
    (hbinding : ∃ type, a.binding? v.id = some ⟨view.level v.name, type⟩) :
    Writes (Stops Cursor.isWordChar) (a.variableListing v).toList
      [identifierToken (v.leveled view).name] := by
  obtain ⟨type, htype⟩ := hbinding
  have hwrites :=
    writes_reference (isWord_leveled hname (view.level v.name)) (name_lacks_bracket type)
  have htext : (a.variableListing v).toList =
      '<' :: ((leveled v.name (view.level v.name)).toList ++
        ':' :: (type.name.toList ++ ['>'])) := by
    simp [Analysis.variableListing, htype, toString, leveled]
  rwa [wordToken_leveled hname, ← htext] at hwrites

/-- A word and the blank behind it. -/
theorem writes_keyword {w : List Char} (h : isWord w = true) :
    Writes Anything (w ++ [' ']) [wordToken w] :=
  (writes_word h).append (writes_blank (by decide)) fun _ _ => stops_cons (by decide +kernel)

/-- The operator of an operation with a blank on either side. -/
theorem writes_operator (op : BinaryOp) :
    ∃ t : Token, Writes Anything (' ' :: (op.symbol.toList ++ [' '])) [t] ∧
      (IsSumOp t.kind op ∨ IsProductOp t.kind op) := by
  have hblank : Writes Anything [' '] [] := writes_blank (by decide)
  have hmark : ∀ {c : Char} {kind : Token.Kind}, Token.Kind.ofChar? c = some kind →
      (isUnmarked c && c != ':') = true →
      Writes Anything (' ' :: ([c] ++ [' '])) [⟨kind, some (.string c.toString), .start⟩] :=
    fun hkind hc => hblank.andThen ((writes_mark hkind hc).andThen hblank)
  cases op with
  | add => exact ⟨_, hmark rfl (by decide), .inl .plus⟩
  | sub => exact ⟨_, hmark rfl (by decide), .inl .minus⟩
  | mul => exact ⟨_, hmark rfl (by decide), .inr .times⟩
  | realDiv => exact ⟨_, hmark rfl (by decide), .inr .slash⟩
  | integerDiv =>
      have hword := writes_keyword (w := "DIV".toList) (by decide +kernel)
      exact ⟨_, hblank.andThen hword, .inr .div⟩

/-- Parentheses around a part. -/
theorem writes_parenthesized {text : String} {row : List Token}
    (h : Writes Clear text.toList row) :
    Writes Anything (s!"({text})").toList
      (⟨.leftParen, some (.string "("), .start⟩ ::
        (row ++ [⟨.rightParen, some (.string ")"), .start⟩])) := by
  have hopen : Writes Anything ['('] [⟨.leftParen, some (.string "("), .start⟩] :=
    writes_mark rfl (by decide)
  have hclose : Writes Anything [')'] [⟨.rightParen, some (.string ")"), .start⟩] :=
    writes_mark rfl (by decide)
  have hwrites := hopen.andThen (h.clear hclose (by decide +kernel))
  have htext : (s!"({text})").toList = ['('] ++ (text.toList ++ [')']) := by
    simp [toString]
  rwa [htext]

theorem prints_parenthesized {text : String} {e : Expr}
    (h : Prints Clear IsExpr Expr.bare text e) :
    Prints Anything IsFactor Expr.bare s!"({text})" e := by
  obtain ⟨row, hrow, hspells⟩ := h
  exact ⟨_, writes_parenthesized hrow, hspells.parenthesized rfl rfl⟩

theorem prints_signed {text : String} {e : Expr} (op : UnaryOp)
    (h : Prints Clear IsFactor Expr.bare text e) :
    Prints Clear IsFactor Expr.bare (op.symbol ++ text) (.unary op e .start) := by
  obtain ⟨row, hrow, hspells⟩ := h
  have hsign : ∃ t : Token, Writes Anything op.symbol.toList [t] ∧ IsSign t.kind op := by
    cases op with
    | plus => exact ⟨_, writes_mark (c := '+') rfl (by decide), .plus⟩
    | minus => exact ⟨_, writes_mark (c := '-') rfl (by decide), .minus⟩
  obtain ⟨t, ht, hkind⟩ := hsign
  have hwrites := ht.andThen hrow
  rw [← String.toList_append] at hwrites
  exact ⟨_, hwrites, hspells.signed hkind⟩

theorem prints_operation {text other : String} {e e' : Expr} (op : BinaryOp)
    (h : Prints Clear IsFactor Expr.bare text e)
    (h' : Prints Clear IsFactor Expr.bare other e') :
    Prints Clear IsExpr Expr.bare s!"{text} {op.symbol} {other}" (.binary op e e' .start) := by
  obtain ⟨row, hrow, hspells⟩ := h
  obtain ⟨row', hrow', hspells'⟩ := h'
  obtain ⟨t, ht, hkind⟩ := writes_operator op
  have hwrites : Writes Clear
      (text.toList ++ ' ' :: ((op.symbol.toList ++ [' ']) ++ other.toList))
      (row ++ t :: row') := hrow.clear (ht.andThen hrow') (by decide +kernel)
  have htext : (s!"{text} {op.symbol} {other}").toList =
      text.toList ++ ' ' :: ((op.symbol.toList ++ [' ']) ++ other.toList) := by
    simp [toString]
  rw [← htext] at hwrites
  refine ⟨_, hwrites, ?_⟩
  rcases hkind with hsum | hproduct
  · exact hspells.one.one.more hsum hspells'.one
  · exact (hspells.one.more hproduct hspells').one

/-- What is a factor by itself needs no parentheses. -/
theorem Prints.both {text : String} {e e' : Expr}
    (hfactor : Prints Clear IsFactor Expr.bare text e')
    (hoperand : Analysis.operandListing e text = text) :
    Prints Clear IsExpr Expr.bare text e' ∧
      Prints Clear IsFactor Expr.bare (Analysis.operandListing e text) e' := by
  rw [hoperand]
  obtain ⟨row, hrow, hspells⟩ := hfactor
  exact ⟨⟨row, hrow, hspells.one.one⟩, row, hrow, hspells⟩

theorem prints_expr {e : Expr} (h : a.Legible view e.uses e.literals) :
    Prints Clear IsExpr Expr.bare (a.exprListing e) (e.leveled view).bare ∧
      Prints Clear IsFactor Expr.bare (Analysis.operandListing e (a.exprListing e))
        (e.leveled view).bare := by
  induction e with
  | var v =>
      obtain ⟨hname, hbinding⟩ := h.var (v := v) List.mem_cons_self
      have hwrites := (writes_variable hname hbinding).weaken fun _ => Clear.stops
      exact Prints.both ⟨_, hwrites, .var rfl⟩ rfl
  | literal v => exact (prints_literal (h.literal List.mem_cons_self)).both rfl
  | unary op operand p ih => exact (prints_signed op (ih h).2).both rfl
  | binary op left right p ihl ihr =>
      have hl := ihl (h.subset (List.subset_append_left _ _) (List.subset_append_left _ _))
      have hr := ihr (h.subset (List.subset_append_right _ _) (List.subset_append_right _ _))
      have hoperation := prints_operation op hl.2 hr.2
      obtain ⟨row, hrow, hspells⟩ := prints_parenthesized hoperation
      exact ⟨hoperation, row, hrow.weaken fun _ _ => trivial, hspells⟩

end Expressions

/-! ### Lists -/

section Lists

variable {α β γ : Type} {Item : Judgment α} {bare : α → β}

/-- A mark that ends the item before it. -/
structure Separates (c : Char) (sep : Token.Kind) : Prop where
  kind : Token.Kind.ofChar? c = some sep
  unmarked : (isUnmarked c && c != ':') = true
  clear : (Cursor.isWordChar c || c == '.' || c == '=' || !isUnmarked c) = false

variable {c : Char} {sep : Token.Kind} {f : γ → String} {g : γ → β}

theorem toList_intercalate_map (c : Char) (f : γ → String) (x : γ) (xs : List γ) :
    ((String.ofList [c, ' ']).intercalate ((x :: xs).map f)).toList =
      (f x).toList ++ xs.flatMap fun y => c :: ' ' :: (f y).toList := by
  induction xs generalizing x with
  | nil => simp
  | cons y xs ih =>
      have htail := ih y
      simp only [String.toList_intercalate, List.map_cons, String.toList_ofList] at htail ⊢
      rw [List.intercalate_cons_cons, htail, List.flatMap_cons]
      simp

theorem Separates.clear_tail (hc : Separates c sep) (xs : List γ) {rest : List Char}
    (h : Clear rest) :
    Clear (unmark (xs.flatMap fun y => c :: ' ' :: (f y).toList) ++ rest) := by
  cases xs with
  | nil => exact h
  | cons y xs =>
      have hchar := hc.clear
      simp only [Bool.or_eq_false_iff, Bool.not_eq_false'] at hchar
      rw [List.flatMap_cons, List.cons_append, unmark_cons hchar.2]
      exact clear_of_char (by simp [hchar]) _

theorem Separates.exists_tail (hc : Separates c sep) {xs : List γ}
    (h : ∀ y ∈ xs, Prints Clear Item bare (f y) (g y)) :
    ∃ row, Writes Clear (xs.flatMap fun y => c :: ' ' :: (f y).toList) row ∧
      Spells (Many (Preceded sep Item)) (List.map bare) row (xs.map g) := by
  induction xs with
  | nil => exact ⟨[], Writes.nil.weaken fun _ _ => trivial, .nil⟩
  | cons y xs ih =>
      obtain ⟨hy, hxs⟩ := List.forall_mem_cons.mp h
      obtain ⟨row, hrow, hspells⟩ := hy
      obtain ⟨row', hrow', hspells'⟩ := ih hxs
      have hitem := hrow.append hrow' fun _ => hc.clear_tail xs
      have hblank : Writes Anything [' '] [] := writes_blank (by decide)
      have hwrites := (writes_mark hc.kind hc.unmarked).andThen (hblank.andThen hitem)
      exact ⟨_, hwrites, (hspells.preceded rfl).cons hspells'⟩

/-- Items with a mark and a blank between them. -/
theorem Separates.prints (hc : Separates c sep) {x : γ} {xs : List γ}
    (h : ∀ y ∈ x :: xs, Prints Clear Item bare (f y) (g y)) :
    Prints Clear (Separated sep Item) (List.map bare)
      ((String.ofList [c, ' ']).intercalate ((x :: xs).map f)) ((x :: xs).map g) := by
  obtain ⟨hx, hxs⟩ := List.forall_mem_cons.mp h
  obtain ⟨row, hrow, hspells⟩ := hx
  obtain ⟨row', hrow', hspells'⟩ := hc.exists_tail hxs
  have hwrites := hrow.append hrow' fun _ => hc.clear_tail xs
  rw [← toList_intercalate_map] at hwrites
  exact ⟨_, hwrites, hspells.separated hspells'⟩

/-- Items in parentheses, or only the parentheses. -/
theorem Separates.prints_bracketed (hc : Separates c sep) {xs : List γ}
    (h : ∀ y ∈ xs, Prints Clear Item bare (f y) (g y)) :
    let list := (String.ofList [c, ' ']).intercalate (xs.map f)
    Prints Anything (Bracketed (Separated sep Item)) (List.map bare) s!"({list})"
      (xs.map g) := by
  cases xs with
  | nil =>
      have hnil : Writes Clear ((String.ofList [c, ' ']).intercalate ([].map f)).toList [] :=
        Writes.nil.weaken fun _ _ => trivial
      exact ⟨_, writes_parenthesized hnil, .brackets rfl rfl⟩
  | cons x xs =>
      obtain ⟨row, hrow, hspells⟩ := hc.prints h
      exact ⟨_, writes_parenthesized hrow, hspells.bracketed rfl rfl⟩

end Lists

/-! ### Statements -/

/-- A text in a line of its own. -/
theorem writes_line {Next : List Char → Prop} {text : String} {row : List Token} (depth : Nat)
    (h : Writes Next text.toList row) (hnext : ∀ rest, Next ('\n' :: rest)) :
    Writes Anything (listingLine depth text).toList row := by
  have hnewline : Writes Anything ['\n'] [] := writes_blank (by decide)
  have hline :=
    (writes_spaces (3 * depth)).andThen (h.append hnewline fun rest _ => hnext rest)
  simpa [listingLine] using hline

theorem semicolon_separates : Separates ';' .semicolon :=
  ⟨rfl, by decide, by decide +kernel⟩

theorem comma_separates : Separates ',' .comma :=
  ⟨rfl, by decide, by decide +kernel⟩

/-- The token of a semicolon. -/
def semicolonToken : Token := ⟨.semicolon, some (.string ";"), .start⟩

theorem writes_semicolon : Writes Anything [';'] [semicolonToken] :=
  writes_mark (Separates.kind semicolon_separates) (Separates.unmarked semicolon_separates)

section Statements

variable {a : Analysis} {view : View}

/-- The lines are read as the statement and a semicolon. -/
def PrintsStatement (lines : List String) (s : Statement) : Prop :=
  ∃ row, Writes Anything (lines.flatMap String.toList) (row ++ [semicolonToken]) ∧
    Spells IsStatement Statement.bare row s

theorem printsStatement_line {text text' : String} {row : List Token} {s : Statement}
    (depth : Nat) (h : Writes Clear text.toList row)
    (hspells : Spells IsStatement Statement.bare row s)
    (htext : text'.toList = text.toList ++ [';']) :
    PrintsStatement [listingLine depth text'] s := by
  have hwrites := h.clear writes_semicolon (Separates.clear semicolon_separates)
  rw [← htext] at hwrites
  refine ⟨row, ?_, hspells⟩
  rw [List.flatMap_singleton]
  exact writes_line depth hwrites fun _ => trivial

theorem prints_arguments {args : List Expr}
    (h : a.Legible view (args.flatMap Expr.uses) (args.flatMap Expr.literals)) :
    Prints Anything IsArguments (List.map Expr.bare) s!"({a.argsListing args})"
      (args.map fun e => (e.leveled view).bare) := by
  refine Separates.prints_bracketed comma_separates
    fun e he => (prints_expr (h.subset ?_ ?_)).1
  · exact fun u hu => List.mem_flatMap.mpr ⟨e, he, hu⟩
  · exact fun v hv => List.mem_flatMap.mpr ⟨e, he, hv⟩

theorem printsStatement_assign {target : Variable} {value : Expr} (depth : Nat)
    (h : a.Legible view (.var target :: value.uses) value.literals) :
    PrintsStatement
      [listingLine depth s!"{a.variableListing target} := {a.exprListing value};"]
      (.assign (target.leveled view).bare (value.leveled view).bare) := by
  obtain ⟨hname, hbinding⟩ := h.var List.mem_cons_self
  obtain ⟨row, hrow, hspells⟩ :=
    (prints_expr (h.subset (List.subset_cons_self _ _) (fun _ => id))).1
  have hblank : Writes Anything [' '] [] := writes_blank (by decide)
  have hright := hblank.andThen (writes_assign.andThen (hblank.andThen hrow))
  have hwrites := (writes_variable hname hbinding).append hright fun rest _ =>
    stops_cons (by decide +kernel)
  have htext : (s!"{a.variableListing target} := {a.exprListing value}").toList =
      (a.variableListing target).toList ++ ([' '] ++ ([':', '='] ++ ([' '] ++
        (a.exprListing value).toList))) := by
    simp [toString]
  rw [← htext] at hwrites
  exact printsStatement_line depth hwrites (hspells.assign rfl rfl) (by simp [toString])

/-- A word before arguments. -/
theorem writes_applied {w : List Char} {t : Token} {args : String} {row : List Token}
    (hw : Writes (Stops Cursor.isWordChar) w [t])
    (hargs : Writes Anything (s!"({args})").toList row) :
    Writes Anything (w ++ (s!"({args})").toList) (t :: row) := by
  refine hw.append hargs fun rest _ => ?_
  have htext : (s!"({args})").toList = '(' :: (args.toList ++ [')']) := by simp [toString]
  rw [htext, unmark_cons (by decide)]
  exact stops_cons (by decide +kernel)

theorem printsStatement_call {c : Call} (depth : Nat)
    (h : a.Legible view (c.args.flatMap Expr.uses ++ [.call c])
      (c.args.flatMap Expr.literals)) :
    PrintsStatement [listingLine depth (a.callListing c)] (.call (c.leveled view).bare) := by
  obtain ⟨hname, p, hp, hlevel⟩ := h.call (c := c) (by simp)
  obtain ⟨row, hrow, hspells⟩ := prints_arguments
    (h.subset (List.subset_append_left _ _) fun _ => id)
  have hwrites := writes_applied (writes_leveled hname (view.level c.name)) hrow
  rw [← String.toList_append] at hwrites
  have hstatement := hspells.call (t := identifierToken (c.leveled view).name) rfl
  have hargs : c.args.map (fun e => (e.leveled view).bare) =
      (c.leveled view).args.map Expr.bare := by simp [Call.leveled]
  rw [hargs] at hstatement
  refine printsStatement_line depth (hwrites.weaken fun _ _ => trivial) hstatement ?_
  simp [Analysis.callListing, hp, hlevel, leveled, toString]

theorem printsStatement_write {newline : Bool} {args : List Expr} (depth : Nat)
    (h : a.Legible view (args.flatMap Expr.uses) (args.flatMap Expr.literals)) :
    let word := if newline then "writeln" else "write"
    PrintsStatement [listingLine depth s!"{word}({a.argsListing args});"]
      (.write newline (args.map fun e => (e.leveled view).bare) .start) := by
  obtain ⟨row, hrow, hspells⟩ := prints_arguments h
  have hword : ∃ t : Token, Writes (Stops Cursor.isWordChar)
      (if newline then "writeln" else "write").toList [t] ∧ IsWrite t.kind newline := by
    cases newline with
    | false => exact ⟨_, writes_word (by decide +kernel), .write⟩
    | true => exact ⟨_, writes_word (by decide +kernel), .writeln⟩
  obtain ⟨t, ht, hkind⟩ := hword
  have hwrites := writes_applied ht hrow
  rw [← String.toList_append] at hwrites
  intro word
  refine printsStatement_line depth (hwrites.weaken fun _ _ => trivial)
    (hspells.write hkind) ?_
  simp [toString, word]

/-- The lines of statements, each followed by a semicolon. -/
def PrintsStatements (lines : List String) (body : List Statement) : Prop :=
  ∃ row, Writes Anything (lines.flatMap String.toList) row ∧
    Spells (Many (Followed .semicolon IsStatement)) Statement.bareAll row body

theorem PrintsStatement.cons {lines others : List String} {s : Statement}
    {body : List Statement} (h : PrintsStatement lines s) (hs : s.isEmpty = false)
    (h' : PrintsStatements others body) :
    PrintsStatements (lines ++ others) (s :: body) := by
  obtain ⟨row, hrow, hspells⟩ := h
  obtain ⟨row', hrow', hspells'⟩ := h'
  have hwrites := hrow.andThen hrow'
  rw [← List.flatMap_append, List.append_assoc] at hwrites
  exact ⟨_, hwrites, hspells.statement hs rfl hspells'⟩

/-- The word `begin` and statements, up to the word `end`. -/
theorem PrintsStatements.writes_compound {lines : List String} {body : List Statement}
    (depth : Nat) (h : PrintsStatements lines body) :
    ∃ row, Writes (Stops Cursor.isWordChar)
        ((listingLine depth "begin").toList ++ (lines.flatMap String.toList ++
          ((Text.spaces (3 * depth)).toList ++ "end".toList))) row ∧
      Spells IsCompound Statement.bareAll row body := by
  obtain ⟨row, hrow, hspells⟩ := h
  have hbegin : Writes Anything (listingLine depth "begin").toList
      [wordToken "begin".toList] :=
    writes_line depth (writes_word (by decide +kernel)) fun _ => stops_cons (by decide +kernel)
  have hend : Writes (Stops Cursor.isWordChar) "end".toList [wordToken "end".toList] :=
    writes_word (by decide +kernel)
  have hwrites := hbegin.andThen (hrow.andThen ((writes_spaces (3 * depth)).andThen hend))
  exact ⟨_, hwrites, hspells.compound rfl rfl⟩

mutual

theorem prints_statement (depth : Nat) : (s : Statement) → s.isEmpty = false →
    a.Legible view s.uses s.literals →
    PrintsStatement (a.statementListing depth s) (s.leveled view).bare
  | .compound body, _, h => by
      obtain ⟨row, hrow, hspells⟩ :=
        (prints_statements (depth + 1) body h).writes_compound depth
      have hnewline : Writes Anything ['\n'] [] := writes_blank (by decide)
      have hwrites := hrow.append (writes_semicolon.andThen hnewline) fun rest _ =>
        stops_cons (by decide +kernel)
      refine ⟨row, ?_, hspells.block⟩
      simpa [Analysis.statementListing, listingLine] using hwrites
  | .assign target value, _, h => printsStatement_assign depth h
  | .call c, _, h => printsStatement_call depth h
  | .write newline args _, _, h => by
      rw [Statement.leveled, Statement.bare, List.map_map]
      exact printsStatement_write depth h
  | .empty, hs, _ => by cases hs

theorem prints_statements (depth : Nat) : (body : List Statement) →
    a.Legible view (Statement.usesAll body) (Statement.literalsAll body) →
    PrintsStatements (a.statementsListing depth body)
      (Statement.bareAll (Statement.leveledAll view body))
  | [], _ => ⟨[], .nil, .noStatement⟩
  | s :: body, h => by
      have hbody := prints_statements depth body
        (h.subset (List.subset_append_right _ _) (List.subset_append_right _ _))
      cases hs : s.isEmpty with
      | true =>
          cases s with
          | empty => exact hbody
          | _ => cases hs
      | false =>
          have hstatement := prints_statement depth s hs
            (h.subset (List.subset_append_left _ _) (List.subset_append_left _ _))
          have hleveled : (s.leveled view).isEmpty = false := by
            rw [Statement.isEmpty_leveled, hs]
          have hbare : (s.leveled view).bare.isEmpty = false := by
            rw [Statement.isEmpty_bare, hleveled]
          rw [Statement.leveledAll, Statement.bareAll, if_neg (by simp [hleveled])]
          exact hstatement.cons hbare hbody

end

end Statements

/-! ### Declarations -/

theorem writes_typeName (type : DataType) :
    ∃ t : Token, Writes (Stops Cursor.isWordChar) type.name.toList [t] ∧
    IsType t.kind type := by
  cases type with
  | integer => exact ⟨_, writes_word (by decide +kernel), .integer⟩
  | real => exact ⟨_, writes_word (by decide +kernel), .real⟩
  | string => exact ⟨_, writes_word (by decide +kernel), .string⟩

theorem prints_declaration {d : VarDecl} (h : IsPlainName d.name.toList) (level : Nat) :
    Prints Clear IsGroup (List.map VarDecl.bare) (d.listing level)
      [(d.leveled level).bare] := by
  obtain ⟨t, ht, htype⟩ := writes_typeName d.type
  have hblank : Writes Anything [' '] [] := writes_blank (by decide)
  have hcolon : Writes Clear ([':'] ++ ' ' :: d.type.name.toList)
      [⟨.colon, some (.string ":"), .start⟩, t] :=
    writes_colon.clear (hblank.andThen (ht.weaken fun _ => Clear.stops)) (by decide +kernel)
  have hwrites := (writes_leveled h level).append (hblank.andThen hcolon) fun rest _ =>
    stops_cons (by decide +kernel)
  have htext : (d.listing level).toList =
      (leveled d.name level).toList ++ ([' '] ++ ([':'] ++ ' ' :: d.type.name.toList)) := by
    simp [VarDecl.listing, leveled, toString]
  rw [← htext] at hwrites
  exact ⟨_, hwrites, .group rfl rfl htype⟩

/-- One section for each variable. -/
theorem exists_sections {vars : List VarDecl} (h : ∀ d ∈ vars, IsPlainName d.name.toList)
    (depth level : Nat) :
    ∃ row, Writes Anything
        ((vars.map fun d => listingLine depth s!"var {d.listing level};").flatMap
          String.toList) row ∧
      Spells (Many IsSection) (List.map (List.map VarDecl.bare)) row
        (vars.map fun d => [(d.leveled level).bare]) := by
  induction vars with
  | nil => exact ⟨[], .nil, .nil⟩
  | cons d vars ih =>
      obtain ⟨hd, hvars⟩ := List.forall_mem_cons.mp h
      obtain ⟨row, hrow, hspells⟩ := prints_declaration hd level
      obtain ⟨row', hrow', hspells'⟩ := ih hvars
      have hvar := writes_keyword (w := "var".toList) (by decide +kernel)
      have hline :=
        hvar.andThen (hrow.clear writes_semicolon (Separates.clear semicolon_separates))
      have htext : (s!"var {d.listing level};").toList =
          "var".toList ++ [' '] ++ ((d.listing level).toList ++ [';']) := by
        simp [toString]
      rw [← htext] at hline
      have hwrites := (writes_line depth hline fun _ => trivial).andThen hrow'
      exact ⟨_, hwrites, (hspells.declaration rfl rfl).cons hspells'⟩

theorem prints_header {name : String} {params : List VarDecl} (hname : IsPlainName name.toList)
    (hparams : ∀ d ∈ params, IsPlainName d.name.toList) (level : Nat) :
    ∃ row, Writes Anything (headerListing level name params).toList
        (wordToken "procedure".toList :: identifierToken (leveled name level) ::
          (row ++ [semicolonToken])) ∧
      Spells IsParams (List.map (List.map VarDecl.bare)) row
        (params.map fun d => [(d.leveled (level + 1)).bare]) := by
  have hword := writes_keyword (w := "procedure".toList) (by decide +kernel)
  cases params with
  | nil =>
      have hwrites :=
        hword.andThen ((writes_leveled hname level).append writes_semicolon fun _ _ =>
          stops_cons (by decide +kernel))
      refine ⟨[], ?_, .absent⟩
      simpa [headerListing, leveled, toString] using hwrites
  | cons d params =>
      obtain ⟨row, hrow, hspells⟩ := Separates.prints_bracketed semicolon_separates fun d hd =>
        prints_declaration (hparams d hd) (level + 1)
      have hwrites := hword.andThen ((writes_applied (writes_leveled hname level) hrow).andThen
        writes_semicolon)
      refine ⟨row, ?_, hspells⟩
      simpa [headerListing, leveled, toString] using hwrites

end MiniPascal

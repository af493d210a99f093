import MiniPascal.Diagnostic
import MiniPascal.Proofs.Text.Lines

/-!
What a diagnostic shows of a text. Its last two lines quote the line in question behind a
gutter, and put a mark below it. The gutter of the quoted line grows with the number of the
line, the one of the mark does not; so the offset of the mark tells the column, but the mark
does not stand under its character.
-/

namespace MiniPascal

/-! ### The quoted line -/

namespace Diagnostic

theorem toList_quotedLine (text : String) (n : Nat) :
    (quotedLine text n).toList =
      ((Text.linesFrom '\n' '\r' [] text.toList)[n - 1]?).getD [] := by
  rw [quotedLine, Text.lines, List.getElem?_map]
  cases (Text.linesFrom '\n' '\r' [] text.toList)[n - 1]? with
  | none => rfl
  | some line => exact String.toList_ofList

theorem newline_notMem_quotedLine (text : String) (n : Nat) :
    '\n' ∉ (quotedLine text n).toList := by
  rw [toList_quotedLine]
  cases hline : (Text.linesFrom '\n' '\r' [] text.toList)[n - 1]? with
  | none => exact List.not_mem_nil
  | some line =>
      exact Text.newline_notMem_linesFrom List.not_mem_nil (List.mem_of_getElem? hline)

section

variable {text : String} {before rest : List Char}

/-- What is quoted of the text around a place starts with what has been begun there. -/
theorem toList_quotedLine_behind (h : text.toList = before ++ rest) :
    (quotedLine text (Position.behind before).line).toList =
      ((Text.linesFrom '\n' '\r' (before.reverse.takeWhile (· ≠ '\n')) rest).head?).getD
        [] := by
  have hline : (Position.behind before).line - 1 = before.count '\n' :=
    Nat.add_sub_cancel_left ..
  rw [toList_quotedLine, hline, h, Text.getElem?_linesFrom List.not_mem_nil, List.append_nil]

/-- A character that ends no line is quoted in its column. -/
theorem quotedLine_character {c : Char} (h : text.toList = before ++ c :: rest)
    (hnewline : c ≠ '\n') (hreturn : c ≠ '\r') :
    (quotedLine text (Position.behind before).line).toList[
      (Position.behind before).column - 1]? = some c := by
  obtain ⟨others, hhead⟩ := Text.exists_head?_linesFrom hreturn '\n'
    (before.reverse.takeWhile (· ≠ '\n')) [] rest
  have hcolumn : (Position.behind before).column - 1 =
      (before.reverse.takeWhile (· ≠ '\n')).reverse.length := by
    rw [List.length_reverse]
    exact Nat.add_sub_cancel_left ..
  rw [List.nil_append] at hhead
  rw [toList_quotedLine_behind h, Text.linesFrom, if_neg hnewline, hhead,
    Option.getD_some, hcolumn, List.getElem?_append_right (Nat.le_refl _), Nat.sub_self,
    List.getElem?_cons_zero]

/-- At the end of the text nothing more is quoted than what comes before it. -/
theorem length_quotedLine_end (h : text.toList = before) :
    (quotedLine text (Position.behind before).line).toList.length =
      (Position.behind before).column - 1 := by
  have hcolumn : (Position.behind before).column - 1 =
      (before.reverse.takeWhile (· ≠ '\n')).length := Nat.add_sub_cancel_left ..
  rw [← List.append_nil before] at h
  rw [toList_quotedLine_behind h, hcolumn, Text.linesFrom]
  split
  next hempty => rw [List.isEmpty_iff.mp hempty]; rfl
  next => simp

end

/-! ### The rows of an excerpt -/

/-- What stands before a quoted line: its number and a bar. -/
def gutter (line : Nat) : List Char :=
  (Text.alignRight 3 (toString line)).toList ++ [' ', '|', ' ']

/-- The row of the mark for a column. -/
def markRow (column : Nat) : List Char :=
  [' ', ' ', ' ', '|', ' '] ++ (List.replicate (column - 1) ' ' ++ ['^'])

@[simp]
theorem length_gutter (line : Nat) :
    (gutter line).length = max 3 (toString line).length + 3 := by
  have hnumber : (Text.alignRight 3 (toString line)).toList.length =
      max 3 (toString line).length := by
    simp only [Text.alignRight, Text.spaces, String.toList_append, String.toList_ofList,
      List.length_append, List.length_replicate, String.length_toList]
    omega
  rw [gutter, List.length_append, hnumber]
  rfl

theorem newline_notMem_gutter (line : Nat) : '\n' ∉ gutter line := by
  have hdigits : '\n' ∉ Nat.toDigits 10 line := by
    intro hmem
    have hdigit := Nat.isDigit_of_mem_toDigits (by decide) (by decide) hmem
    cases hdigit
  simp [gutter, Text.alignRight, Text.spaces, List.mem_replicate, hdigits]

theorem mark_notMem_before (column : Nat) :
    '^' ∉ [' ', ' ', ' ', '|', ' '] ++ List.replicate (column - 1) ' ' := by
  simp

/-- The mark is the only one in its row, and its place in the row tells the column. -/
theorem idxOf_markRow {column : Nat} (h : 0 < column) :
    (markRow column).idxOf '^' = 4 + column := by
  have hlength : ([' ', ' ', ' ', '|', ' '] ++ List.replicate (column - 1) ' ').length =
      4 + column := by
    rw [List.length_append, List.length_replicate]
    show 5 + (column - 1) = 4 + column
    omega
  rw [markRow, ← List.append_assoc, List.idxOf_append,
    if_neg (mark_notMem_before column), hlength, List.idxOf_cons_self, Nat.zero_add]

@[simp]
theorem count_markRow (column : Nat) : (markRow column).count '^' = 1 := by
  rw [markRow, ← List.append_assoc, List.count_append,
    List.count_eq_zero.mpr (mark_notMem_before column)]
  rfl

theorem newline_notMem_markRow (column : Nat) : '\n' ∉ markRow column := by
  simp [markRow]

/-- A diagnostic with a position ends with the quoted line and the mark. -/
theorem render_lastRows {d : Diagnostic} {p : Position} (h : d.position = some p)
    (file text : String) :
    Text.LastRows (render file text d).toList
      (gutter p.line ++ (quotedLine text p.line).toList) (markRow p.column) := by
  refine ⟨⟨(s!"error[{d.code.name}]: {d.message}\n  --> {file}:{p.text}\n   |").toList, ?_⟩,
    ?_, newline_notMem_markRow p.column⟩
  · simp [render, h, excerpt, gutter, markRow, Text.spaces, toString]
  · exact fun hmem => (List.mem_append.mp hmem).elim (newline_notMem_gutter p.line)
      (newline_notMem_quotedLine text p.line)

end Diagnostic

/-! ### The place of the mark -/

/-- The character that a text has at a position. -/
def Position.Shows (p : Position) (text : String) (c : Char) : Prop :=
  0 < p.line ∧ 0 < p.column ∧
    ∃ line, (Text.lines text)[p.line - 1]? = some line ∧ line.toList[p.column - 1]? = some c

namespace Diagnostic

/-- The last two lines quote `line` behind a gutter, and the mark stands right under the
character in the given column of it. -/
def MarksBelow (rendered line : String) (column : Nat) : Prop :=
  ∃ before row, Text.LastRows rendered.toList (before ++ line.toList) row ∧
    row.idxOf '^' = before.length + (column - 1)

/-- How far the mark is from where it should be. -/
theorem idxOf_mark {d : Diagnostic} {p : Position} (h : d.position = some p)
    (hcolumn : 0 < p.column) {file text : String} {before row : List Char}
    (hrows : Text.LastRows (render file text d).toList
      (before ++ (quotedLine text p.line).toList) row) :
    row.idxOf '^' + (max 3 (toString p.line).length - 2) = before.length + (p.column - 1) := by
  obtain ⟨hquoting, hrow⟩ := hrows.unique (render_lastRows h file text)
  have hbefore := List.append_cancel_right hquoting
  rw [hrow, hbefore, idxOf_markRow hcolumn, length_gutter]
  generalize (toString p.line).length = width
  omega

/-- **The mark stands left of its character.** Take any diagnostic at a position where the text
has a character. Its last two lines quote the line of the text, with the character, and have
one mark; and the character stands further right in its line than the mark does in the other,
by one if the number of the line has no more than three digits and by one more for each digit
above. -/
theorem mark_stands_left_of_its_character (file text : String) (d : Diagnostic) (p : Position)
    (c : Char) (h : d.position = some p) (hc : p.Shows text c) :
    ∃ line before row, (Text.lines text)[p.line - 1]? = some line ∧
      Text.LastRows (render file text d).toList (before ++ line.toList) row ∧
      (before ++ line.toList)[before.length + (p.column - 1)]? = some c ∧ row.count '^' = 1 ∧
      before.length + (p.column - 1) = row.idxOf '^' + (max 3 (toString p.line).length - 2) ∧
      ¬ MarksBelow (render file text d) line p.column := by
  obtain ⟨-, hcolumn, line, hline, hchar⟩ := hc
  have hquoted : quotedLine text p.line = line := by rw [quotedLine, hline, Option.getD_some]
  have hrows := render_lastRows h file text
  refine ⟨line, gutter p.line, markRow p.column, hline, hquoted ▸ hrows, ?_,
    count_markRow p.column, (idxOf_mark h hcolumn hrows).symm, ?_⟩
  · rw [List.getElem?_append_right (Nat.le_add_right ..), Nat.add_sub_cancel_left, hchar]
  · rintro ⟨before, row, hrows', hmark⟩
    rw [← hquoted] at hrows'
    have hoff := idxOf_mark h hcolumn hrows'
    have hwidth : 1 ≤ max 3 (toString p.line).length - 2 :=
      Nat.le_sub_of_add_le (Nat.le_max_left 3 _)
    omega

/-- The diagnostic of a stray character on the second line of a text. -/
def strayHash : Diagnostic := .ofLexical (.unrecognizedCharacter '#' ⟨2, 7⟩)

theorem strayHash_shows : (⟨2, 7⟩ : Position).Shows "program P;\nbegin # end.\n" '#' :=
  ⟨by decide, by decide, "begin # end.", by decide +kernel, by decide +kernel⟩

/-- The mark is not where it should be. -/
theorem strayHash_not_marked :
    (⟨2, 7⟩ : Position).Shows "program P;\nbegin # end.\n" '#' ∧
      strayHash.position = some ⟨2, 7⟩ ∧
      quotedLine "program P;\nbegin # end.\n" 2 = "begin # end." ∧
      ¬ MarksBelow (render "demo.pas" "program P;\nbegin # end.\n" strayHash)
        "begin # end." 7 := by
  have hquoted : quotedLine "program P;\nbegin # end.\n" 2 = "begin # end." := by
    decide +kernel
  refine ⟨strayHash_shows, rfl, hquoted, ?_⟩
  rintro ⟨before, row, hrows, hmark⟩
  rw [← hquoted] at hrows
  have hoff := idxOf_mark (d := strayHash) (p := ⟨2, 7⟩) rfl (by decide) hrows
  rw [hmark] at hoff
  have hwidth : max 3 (toString 2).length - 2 = 1 := by decide
  exact Nat.succ_ne_self _ (hwidth ▸ hoff)

/-- Where the mark is instead. -/
theorem strayHash_marked_one_left :
    ∃ before row, Text.LastRows
        (render "demo.pas" "program P;\nbegin # end.\n" strayHash).toList
        (before ++ "begin # end.".toList) row ∧
      before.length + 6 = row.idxOf '^' + 1 := by
  obtain ⟨line, before, row, hline, hrows, -, -, hoff, -⟩ := mark_stands_left_of_its_character
    "demo.pas" "program P;\nbegin # end.\n" strayHash ⟨2, 7⟩ '#' rfl strayHash_shows
  have hlines : (Text.lines "program P;\nbegin # end.\n")[1]? = some "begin # end." := by
    decide +kernel
  obtain rfl := Option.some.inj (hline.symm.trans hlines)
  exact ⟨before, row, hrows, hoff⟩

end Diagnostic

end MiniPascal

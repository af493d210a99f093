/-!
Lines of a text and columns on a line. A line ends at a newline, with a carriage return
directly before the newline belonging to the line's end; what follows the last newline is a
line of its own only if it is not empty. Widths count characters.
-/

namespace MiniPascal.Text

/-- Drops the return from the end of a line that is held in reverse. -/
def dropReturn {α : Type} [DecidableEq α] (cr : α) : List α → List α
  | [] => []
  | c :: line => if c = cr then line else c :: line

/-- The lines of what follows `line`, a line begun but not ended, held in reverse. -/
def linesFrom {α : Type} [DecidableEq α] (newline cr : α) (line : List α) :
    List α → List (List α)
  | [] => if line.isEmpty then [] else [line.reverse]
  | c :: cs =>
      if c = newline then (dropReturn cr line).reverse :: linesFrom newline cr [] cs
      else linesFrom newline cr (c :: line) cs

def lines (text : String) : List String :=
  (linesFrom '\n' '\r' [] text.toList).map String.ofList

/-- The lines of a text that is given by its bytes, each decoded by itself. A line that is not
encoded properly has no text. -/
def byteLines (bytes : ByteArray) : List (Option String) :=
  (linesFrom 10 13 [] bytes.toList).map fun line => String.fromUTF8? ⟨line.toArray⟩

def spaces (n : Nat) : String := String.ofList (List.replicate n ' ')

/-- Fills up with spaces on the left. -/
def alignRight (width : Nat) (s : String) : String := spaces (width - s.length) ++ s

/-- Fills up with spaces on the right. -/
def alignLeft (width : Nat) (s : String) : String := s ++ spaces (width - s.length)

end MiniPascal.Text

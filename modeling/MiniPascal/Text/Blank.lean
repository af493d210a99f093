import MiniPascal.Text.CodeRange

/-!
Blanks: the characters with the Unicode property White_Space.
-/

namespace MiniPascal.Text

def blankRanges : List CodeRange := [
  (0x9, 0xD), (0x20, 0x20), (0x85, 0x85), (0xA0, 0xA0), (0x1680, 0x1680), (0x2000, 0x200A),
  (0x2028, 0x2029), (0x202F, 0x202F), (0x205F, 0x205F), (0x3000, 0x3000)]

def isBlank (c : Char) : Bool := inRanges blankRanges c.toNat

/-- A line is blank if nothing stands on it but blanks. -/
def isBlankLine (line : String) : Bool := line.toList.all isBlank

end MiniPascal.Text

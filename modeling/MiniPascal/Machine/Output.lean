/-!
Where a program writes to: any number of bytes, or at most a given number.
-/

namespace MiniPascal

structure Output where
  written : ByteArray := .empty
  /-- How many more bytes fit, if there is a limit. -/
  room : Option Nat := none

namespace Output

/-- Why a full output takes no more. -/
def fullMessage : String := "sink full"

/-- Writes as much of the text as fits, and says whether all of it did. -/
def write (o : Output) (text : String) : Bool × Output :=
  let bytes := text.toUTF8
  match o.room with
  | none => (true, { o with written := o.written ++ bytes })
  | some room =>
      if bytes.size ≤ room then
        (true, { written := o.written ++ bytes, room := some (room - bytes.size) })
      else (false, { written := o.written ++ bytes.extract 0 room, room := some 0 })

end Output

end MiniPascal

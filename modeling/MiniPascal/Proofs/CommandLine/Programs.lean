import MiniPascal.CommandLine.Session
import MiniPascal.Proofs.Text.Lines

/-!
What a session runs. The lines that are typed end at the first blank line where a program could
start; between blank lines stand the programs. Each of them is run by itself, under the
session's options, and what the session shows is what the programs show one after the other,
with a prompt before every line that is read. A session on readable lines ends well, whatever
becomes of its programs.
-/

namespace MiniPascal

/-! ### Lines of bytes -/

namespace Text

section

variable {α : Type} [DecidableEq α] {newline cr : α}

end

end Text

namespace CommandLine

/-! ### Consoles -/

namespace Console

/-- What one console shows and then the other. -/
instance : Append Console where
  append c d := ⟨c.output ++ d.output, c.messages ++ d.messages⟩

@[simp]
theorem output_append (c d : Console) : (c ++ d).output = c.output ++ d.output := rfl

@[simp]
theorem messages_append (c d : Console) : (c ++ d).messages = c.messages ++ d.messages := rfl

theorem append_assoc (c d e : Console) : c ++ d ++ e = c ++ (d ++ e) := by
  ext1
  · exact ByteArray.append_assoc
  · exact Array.append_assoc

@[simp]
theorem append_empty (c : Console) : c ++ ({} : Console) = c := by
  ext1 <;> simp

end Console

/-- What a text shows by itself: what it writes, its journal, and its diagnostics. -/
def Options.shown (o : Options) (name text : String) : Console :=
  let (written, j, error?) := o.execute text
  let report := fun e => Message.text (o.report name text e)
  ⟨written, j.entries.map .entry ++ (error?.map report).toArray⟩

namespace Session

/-! ### Programs -/

/-- The lines up to the first blank line that follows a blank line, where `previous` is the
line before them. -/
def typedAfter (previous : String) (lines : List String) : List String :=
  lines.take (((previous :: lines).zip lines).findIdx fun pair =>
    Text.isBlankLine pair.1 && Text.isBlankLine pair.2)

/-- The lines up to the first blank line that comes first or directly follows another one. -/
def typed (lines : List String) : List String := typedAfter "" lines

section

variable {run : List String}

end

end Session

end CommandLine

end MiniPascal

import MiniPascal.CommandLine.Options
import MiniPascal.Listing
import MiniPascal.Run

/-!
What the command line shows. Programs and listings are written to the console's output; the
journal and the diagnostics go to its error channel, where every entry of the journal starts
with the time.
-/

namespace MiniPascal.CommandLine

inductive Message where
  | entry (e : Entry)
  | text (s : String)

/-- A message as a text, given the time of day. -/
def Message.render (time : String) : Message → String
  | .entry e => s!"[{time} {Text.alignLeft 5 e.topic.level} {e.topic.target}] {e.message}\n"
  | .text s => s

@[ext]
structure Console where
  output : ByteArray := .empty
  messages : Array Message := #[]

namespace Console

def print (c : Console) (text : String) : Console :=
  { c with output := c.output ++ text.toUTF8 }

def complain (c : Console) (text : String) : Console :=
  { c with messages := c.messages.push (.text text) }

def log (c : Console) (j : Journal) : Console :=
  { c with messages := c.messages ++ j.entries.map .entry }

section

variable (c : Console) (text : String) (j : Journal)

@[simp]
theorem output_print : (c.print text).output = c.output ++ text.toUTF8 := rfl

@[simp]
theorem messages_print : (c.print text).messages = c.messages := rfl

@[simp]
theorem output_complain : (c.complain text).output = c.output := rfl

@[simp]
theorem messages_complain : (c.complain text).messages = c.messages.push (.text text) := rfl

@[simp]
theorem output_log : (c.log j).output = c.output := rfl

@[simp]
theorem messages_log : (c.log j).messages = c.messages ++ j.entries.map .entry := rfl

end

/-- All messages as one text. -/
def messageText (c : Console) (time : String) : String :=
  String.join (c.messages.toList.map (Message.render time))

end Console

namespace Options

/-- What a text writes under these options, its journal, and its error if it has one. -/
def execute (o : Options) (text : String) : ByteArray × Journal × Option Error :=
  let j := Journal.ofSettings o.settings
  if o.tokens then
    match tokenize text j with
    | (.ok tokens, j) => ((String.join (tokens.map fun t => t.json ++ "\n")).toUTF8, j, none)
    | (.error e, j) => (.empty, j, some e)
  else if o.listing then
    match parse o.settings text j with
    | (.error e, j) => (.empty, j, some e)
    | (.ok program, j) =>
        match analyze program j with
        | (.error e, j) => (.empty, j, some e)
        | (.ok analysis, j) => ((analysis.listing program).toUTF8, j, none)
  else
    match run o.settings text {} j with
    | ⟨.ok _, output, j⟩ => (output.written, j, none)
    | ⟨.error e, output, j⟩ => (output.written, j, some e)

/-- The diagnostics of an error, each on lines of its own. -/
def report (o : Options) (name text : String) (e : Error) : String :=
  String.join <| e.diagnostics.map fun d =>
    if o.json then d.json ++ "\n" else d.render name text

end Options

/-- Runs a text. The journal comes before the diagnostics. -/
def Console.execute (c : Console) (o : Options) (name text : String) :
    Console × Option Error :=
  let (output, j, error?) := o.execute text
  let c := { c with output := c.output ++ output }.log j
  match error? with
  | some e => (c.complain (o.report name text e), some e)
  | none => (c, none)

end MiniPascal.CommandLine

import MiniPascal.CommandLine.Session
import Std.Time

/-!
The command line itself: reads arguments, files and the input, and shows what comes of them.
-/

namespace MiniPascal.CommandLine

/-- The time of day, for the journal. -/
def clock : IO String := do
  let now ← Std.Time.PlainDateTime.now
  return (now.format "HH:mm:ss.SSS")

def readContents (name : String) : IO (Except InputError ByteArray) := do
  try
    return .ok (← IO.FS.readBinFile name)
  catch
    | .noFileOrDirectory .. => return .error .missing
    | e => return .error (.other (toString e))

def showConsole (c : Console) : IO Unit := do
  let out ← IO.getStdout
  out.write c.output
  out.flush
  unless c.messages.isEmpty do
    (← IO.getStderr).putStr (c.messageText (← clock))

/-- The next line of the input, if there is one, without its end. -/
def nextLine : IO (Option (Option String)) := do
  try
    let line ← (← IO.getStdin).getLine
    if line.isEmpty then return none
    return some (some ((Text.lines line).headD ""))
  catch _ => return some none

partial def converse (o : Options) (s : Session) : IO UInt32 := do
  match ← nextLine with
  | none =>
      showConsole (s.close o {})
      return 0
  | some line =>
      let (c, next) := s.feed o {} line
      showConsole c
      match next with
      | .goOn s => converse o s
      | .quit status => return status

end MiniPascal.CommandLine

open MiniPascal.CommandLine in
def main (args : List String) : IO UInt32 := do
  match read args with
  | .run o =>
      match o.file with
      | some name =>
          let (c, status) := runFile o name (← readContents name)
          showConsole c
          return status
      | none =>
          showConsole (Session.start {})
          converse o {}
  | _ =>
      let (c, status) := answer args (fun _ => .error .missing) .empty
      showConsole c
      return status

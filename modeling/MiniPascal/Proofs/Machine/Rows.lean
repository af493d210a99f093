import MiniPascal.Proofs.Machine.Log
import MiniPascal.Proofs.Preparation

/-!
What a run writes. Each statement that writes and whose arguments can be evaluated gives a row:
the values of its arguments, as the machine has them when the statement comes next. The output
of a run is what it was before, with the rows of the run written to it one after the other, as
far as there is room for them.
-/

namespace MiniPascal

/-- What one statement writes: its values, and the end of a line if it asks for one. -/
structure Row where
  values : List Value
  newline : Bool

def Row.text (row : Row) : String :=
  String.join (row.values.map Value.text) ++ if row.newline then "\n" else ""

/-- Writes a row, or as much of it as there is room for. -/
def Output.put (o : Output) (row : Row) : Output := (o.write row.text).2

namespace Analysis

/-- The row of a statement that comes next. -/
def row (a : Analysis) : Statement → Machine → List Row
  | .write newline args _, m =>
      match a.evalAll m.stack args with
      | .ok values => [⟨values, newline⟩]
      | .error _ => []
  | _, _ => []

/-- The rows of a program, in the order in which it writes them. -/
def programRows (a : Analysis) (limit : Nat) (program : Program) (m : Machine) : List Row :=
  a.programLog a.row limit program m

variable {a : Analysis}

theorem mem_row_iff {s : Statement} {m : Machine} {row : Row} :
    row ∈ a.row s m ↔
      ∃ args position, s = .write row.newline args position ∧
      a.evalAll m.stack args = .ok row.values := by
  constructor
  · intro h
    cases s with
    | write newline args position =>
        rw [Analysis.row] at h
        split at h
        next values hvalues =>
          obtain rfl := List.mem_singleton.mp h
          exact ⟨args, position, rfl, hvalues⟩
        next => cases h
    | _ => cases h
  · rintro ⟨args, position, rfl, h⟩
    rw [Analysis.row, h]
    exact List.mem_singleton_self row

@[simp]
theorem output_write (text : String) (m : Machine) :
    (Ending.machine (Action.write text m)).output = (m.output.write text).2 := by
  rw [Action.write]
  split
  next h => rw [h]; rfl
  next h => rw [h]; rfl

/-- However the action ends, it has written the rows that are recorded for it. -/
def WritesRows (rows : Machine → List Row) (x : Action Unit) : Prop :=
  ∀ m, (Ending.machine (x m)).output = (rows m).foldl Output.put m.output

variable {call : Call → Action Unit} {inside : Call → Machine → List Row}

theorem WritesRows.sequence {first second : Machine → List Row} {x y : Action Unit}
    (hx : WritesRows first x) (hy : WritesRows second y) :
    WritesRows (logThen first x second) (x >>= fun _ => y) := by
  intro m
  have hm := hx m
  cases h : x m with
  | error e m' =>
      rw [h] at hm
      rw [bind_of_error h, logThen_of_error h]
      exact hm
  | ok u m' =>
      rw [h, Ending.machine_ok] at hm
      rw [bind_of_ok h, logThen_of_ok h, List.foldl_append, ← hm]
      exact hy m'

theorem logged_rows (a : Analysis) (hcalls : ∀ c, WritesRows (inside c) (call c)) :
    a.Logged a.row call call inside fun rows _ x => WritesRows rows x where
  compound _ := rfl
  empty := rfl
  nothing _ := rfl
  sequence := .sequence
  assign target value m := by
    rw [assign_eq]
    split
    · rfl
    · split <;> rfl
  write newline args position m := by
    rw [write_eq, row]
    cases a.evalAll m.stack args with
    | ok values => exact output_write (Row.text ⟨values, newline⟩) m
    | error e => rfl
  call := hcalls

/-- Calls write the rows that are recorded inside them. -/
theorem call_writesRows (a : Analysis) (limit room : Nat) (c : Call) :
    WritesRows (a.logIn a.row limit room c) (a.call limit room c) := by
  induction room generalizing c with
  | zero =>
      intro m
      rw [call_zero]
      cases a.callee c <;> rfl
  | succ room ih =>
      intro m
      rw [call_succ]
      cases hp : a.callee c with
      | error e =>
          rw [logIn_unresolved hp]
          rfl
      | ok p =>
          dsimp only
          cases hframe : a.calleeFrame p c m.stack with
          | error e =>
              rw [logIn_refused hp hframe]
              rfl
          | ok frame =>
              have hbody := (a.logged_rows ih).execAll p.block.body (m.entered p frame)
              rw [logIn_succ hp hframe, bodyLog]
              dsimp only
              cases hrun : a.execAll (a.call limit room) p.block.body (m.entered p frame) with
              | error _ _ | ok _ _ =>
                  rw [hrun] at hbody
                  exact hbody

/-- However a program ends, its rows have been written, and nothing else has. -/
theorem interpret_output_eq (limit : Nat) (program : Program) (m : Machine) :
    (Ending.machine (a.interpret limit program m)).output =
      (a.programRows limit program m).foldl Output.put m.output := by
  have hcalls := a.call_writesRows limit (limit - m.stack.size)
  have hbody := (a.logged_rows hcalls).execAll program.block.body (m.started program)
  rw [interpret_eq, programRows, programLog, bodyLog]
  cases hrun : a.execAll (a.call limit (limit - m.stack.size)) program.block.body
      (m.started program) with
  | error _ _ | ok _ _ =>
      rw [hrun] at hbody
      exact hbody

end Analysis

/-! ### Runs -/

/-- The rows that a run writes, in order. -/
def rowsWritten (settings : Settings) (text : String) (output : Output) (j : Journal) :
    List Row :=
  match prepare settings text j with
  | (.stopped _, _) => []
  | (.ready program a, j) => a.programRows settings.maxDepth program { output, journal := j }

@[simp]
theorem RunResult.output_ofEnding (program : Program) (a : Analysis) (r : Ending Frame) :
    (RunResult.ofEnding program a r).output = r.machine.output := by
  cases r <;> rfl

theorem run_output_eq (settings : Settings) (text : String) (output : Output) (j : Journal) :
    (run settings text output j).output =
      (rowsWritten settings text output j).foldl Output.put output := by
  rw [run, rowsWritten]
  rcases prepare settings text j with ⟨result | ⟨program, a⟩, J⟩
  · rfl
  · dsimp only
    rw [RunResult.output_ofEnding, Analysis.interpret_output_eq]

/-- The rows are the values of the statements that write, each at the point where it comes
next. -/
theorem mem_rowsWritten_iff {settings : Settings} {text : String} {j J : Journal}
    {program : Program} {a : Analysis} (h : prepare settings text j = (.ready program a, J))
    (output : Output) (row : Row) :
    row ∈ rowsWritten settings text output j ↔
      ∃ blocks room args position rest m,
        a.Reaches settings.maxDepth program { output, journal := J }
          ⟨blocks, room, .write row.newline args position :: rest, m⟩ ∧
        a.evalAll m.stack args = .ok row.values := by
  rw [rowsWritten, h]
  dsimp only
  rw [Analysis.programRows, Analysis.mem_programLog_iff]
  constructor
  · rintro ⟨blocks, room, s, rest, m, hreaches, hrow⟩
    obtain ⟨args, position, rfl, hvalues⟩ := Analysis.mem_row_iff.mp hrow
    exact ⟨blocks, room, args, position, rest, m, hreaches, hvalues⟩
  · rintro ⟨blocks, room, args, position, rest, m, hreaches, hvalues⟩
    exact ⟨blocks, room, _, rest, m, hreaches,
      Analysis.mem_row_iff.mpr ⟨args, position, rfl, hvalues⟩⟩

end MiniPascal

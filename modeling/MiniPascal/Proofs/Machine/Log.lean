import MiniPascal.Proofs.Machine.Discipline

/-!
Logs of a run. Whatever is to be recorded when a statement comes next, it is recorded in the
order in which the run comes to the statements, before they are run and before anything is
known of how they end; so the last statement with an entry may be the one that fails. A log has
the entries of the statements that come next at some point of the run, and no others. How a
log goes with the run, or with two runs of which it is the log of the second, is shown by one
induction over statements.
-/

namespace MiniPascal

namespace Analysis

section

variable {β : Type} (a : Analysis) (record : Statement → Machine → List β)

/-- The log of two parts, one after the other. If the first one fails, the second is not
run. -/
def logThen (first : Machine → List β) (x : Action Unit) (second : Machine → List β)
    (m : Machine) : List β :=
  first m ++
    match x m with
    | .ok _ m' => second m'
    | .error _ _ => []

mutual

/-- The log of a statement, given how calls are run and what is recorded inside them. -/
def log (call : Call → Action Unit) (inside : Call → Machine → List β) :
    Statement → Machine → List β
  | .compound body, m => record (.compound body) m ++ logAll call inside body m
  | .call c, m => record (.call c) m ++ inside c m
  | .assign target value, m => record (.assign target value) m
  | .write newline args position, m => record (.write newline args position) m
  | .empty, m => record .empty m

def logAll (call : Call → Action Unit) (inside : Call → Machine → List β) :
    List Statement → Machine → List β
  | [], _ => []
  | s :: rest, m => logThen (log call inside s) (a.exec call s) (logAll call inside rest) m

end

/-- The log of the body of a call, when `room` more frames may be put on the stack. -/
def logIn (limit : Nat) : (room : Nat) → Call → Machine → List β
  | 0, _, _ => []
  | room + 1, c, m =>
      match a.callee c with
      | .error _ => []
      | .ok p =>
          match a.calleeFrame p c m.stack with
          | .error _ => []
          | .ok frame =>
              a.logAll record (a.call limit room) (logIn limit room) p.block.body
                (m.entered p frame)

/-- The log of a body when `room` more frames may be put on the stack. -/
def bodyLog (limit room : Nat) (body : List Statement) (m : Machine) : List β :=
  a.logAll record (a.call limit room) (a.logIn record limit room) body m

/-- The log of a program. -/
def programLog (limit : Nat) (program : Program) (m : Machine) : List β :=
  a.bodyLog record limit (limit - m.stack.size) program.block.body (m.started program)

end

variable {β : Type} {a : Analysis} {record : Statement → Machine → List β} {limit room : Nat}
  {program : Program} {m m' m₀ : Machine}

/-! ### Equations -/

section

variable {call : Call → Action Unit} {inside : Call → Machine → List β} {s : Statement}
  {e : RuntimeError} {u : Unit}

theorem logThen_of_ok {first second : Machine → List β} {x : Action Unit}
    (h : x m = .ok u m') : logThen first x second m = first m ++ second m' := by
  rw [logThen, h]

theorem logThen_of_error {first second : Machine → List β} {x : Action Unit}
    (h : x m = .error e m') : logThen first x second m = first m := by
  rw [logThen, h, List.append_nil]

theorem logAll_of_ok (h : a.exec call s m = .ok u m') (rest : List Statement) :
    a.logAll record call inside (s :: rest) m =
      a.log record call inside s m ++ a.logAll record call inside rest m' := by
  rw [logAll, logThen_of_ok h]

theorem logAll_of_error (h : a.exec call s m = .error e m') (rest : List Statement) :
    a.logAll record call inside (s :: rest) m = a.log record call inside s m := by
  rw [logAll, logThen_of_error h]

theorem logAll_append (body rest : List Statement) (m : Machine) :
    a.logAll record call inside (body ++ rest) m =
      a.logAll record call inside body m ++
        match a.execAll call body m with
        | .ok _ m' => a.logAll record call inside rest m'
        | .error _ _ => [] := by
  induction body generalizing m with
  | nil => rfl
  | cons s body ih =>
      rw [List.cons_append, execAll]
      cases h : a.exec call s m with
      | ok u m' => rw [bind_of_ok h, logAll_of_ok h, logAll_of_ok h, ih, List.append_assoc]
      | error e m' =>
          rw [bind_of_error h, logAll_of_error h, logAll_of_error h, List.append_nil]

theorem record_subset_log (s : Statement) (m : Machine) :
    record s m ⊆ a.log record call inside s m := by
  cases s with
  | compound body => exact List.subset_append_left _ _
  | call c => exact List.subset_append_left _ _
  | assign target value => exact List.Subset.refl _
  | write newline args position => exact List.Subset.refl _
  | empty => exact List.Subset.refl _

end

theorem logIn_succ {c : Call} {p : ProcedureSymbol} {frame : Frame} (hp : a.callee c = .ok p)
    (hframe : a.calleeFrame p c m.stack = .ok frame) :
    a.logIn record limit (room + 1) c m =
      a.bodyLog record limit room p.block.body (m.entered p frame) := by
  rw [logIn, hp]
  dsimp only
  rw [hframe]
  rfl

theorem logIn_refused {c : Call} {p : ProcedureSymbol} {e : RuntimeError}
    (hp : a.callee c = .ok p) (hframe : a.calleeFrame p c m.stack = .error e) :
    a.logIn record limit (room + 1) c m = [] := by
  rw [logIn, hp]
  dsimp only
  rw [hframe]

theorem logIn_unresolved {c : Call} {e : RuntimeError} (hp : a.callee c = .error e) :
    a.logIn record limit (room + 1) c m = [] := by
  rw [logIn, hp]

/-! ### Statements -/

/-- A relation between a log and two runs, of which the second one is logged: it holds of the
statements that have no parts, and sequence keeps it. -/
structure Logged (a : Analysis) (record : Statement → Machine → List β)
    (call call' : Call → Action Unit) (inside : Call → Machine → List β)
    (Rel : (Machine → List β) → Action Unit → Action Unit → Prop) : Prop where
  /-- Nothing is recorded for a compound statement but what its parts record. -/
  compound (body : List Statement) : record (.compound body) = fun _ => []
  empty : record .empty = fun _ => []
  nothing : Rel (fun _ => []) (pure ()) (pure ())
  sequence {first second : Machine → List β} {x x' y y' : Action Unit} :
    Rel first x x' → Rel second y y' →
      Rel (logThen first x' second) (x >>= fun _ => y) (x' >>= fun _ => y')
  assign (target : Variable) (value : Expr) :
    Rel (record (.assign target value)) (a.assign target value) (a.assign target value)
  write (newline : Bool) (args : List Expr) (position : Position) :
    Rel (record (.write newline args position)) (a.write newline args) (a.write newline args)
  call (c : Call) : Rel (fun m => record (.call c) m ++ inside c m) (call c) (call' c)

namespace Logged

variable {call call' : Call → Action Unit} {inside : Call → Machine → List β}
  {Rel : (Machine → List β) → Action Unit → Action Unit → Prop}

mutual

theorem exec (H : a.Logged record call call' inside Rel) :
    ∀ s : Statement, Rel (a.log record call' inside s) (a.exec call s) (a.exec call' s)
  | .compound body => by
      have hlog : a.log record call' inside (.compound body) =
          a.logAll record call' inside body := by
        funext m
        rw [log, H.compound, List.nil_append]
      rw [hlog]
      exact execAll H body
  | .assign target value => H.assign target value
  | .call c => H.call c
  | .write newline args position => H.write newline args position
  | .empty => by
      have hlog : a.log record call' inside .empty = fun _ => [] := H.empty
      rw [hlog]
      exact H.nothing

theorem execAll (H : a.Logged record call call' inside Rel) :
    ∀ body : List Statement,
      Rel (a.logAll record call' inside body) (a.execAll call body) (a.execAll call' body)
  | [] => H.nothing
  | s :: body => H.sequence (exec H s) (execAll H body)

end

end Logged

/-! ### Points -/

/-- What is still to be recorded at a point of the run belongs to the log of the whole run. -/
theorem Reaches.log_subset {pt : Point} (h : a.Reaches limit program m₀ pt) :
    a.bodyLog record limit pt.room pt.todo pt.machine ⊆
      a.programLog record limit program m₀ := by
  induction h with
  | start => exact List.Subset.refl _
  | next _ hrun ih =>
      rw [bodyLog, logAll_of_ok hrun] at ih
      exact (List.append_subset.mp ih).2
  | inside _ ih =>
      rw [bodyLog, logAll, logThen, log, List.append_assoc] at ih
      rw [bodyLog, logAll_append]
      exact (List.append_subset.mp ih).2
  | enter _ hp hframe ih =>
      rw [bodyLog, logAll, logThen, log, logIn_succ hp hframe, List.append_assoc] at ih
      exact (List.append_subset.mp (List.append_subset.mp ih).2).1

/-- The entry is recorded for a statement that comes next at a point of the run. -/
def Records (a : Analysis) (record : Statement → Machine → List β) (limit : Nat)
    (program : Program) (m₀ : Machine) (entry : β) : Prop :=
  ∃ blocks room s rest m, a.Reaches limit program m₀ ⟨blocks, room, s :: rest, m⟩ ∧
    entry ∈ record s m

section

variable {blocks : List Block} {entry : β}

mutual

theorem records_of_mem {rest : List Statement}
    (hinside : ∀ (c : Call) (m : Machine) (rest : List Statement),
      a.Reaches limit program m₀ ⟨blocks, room, .call c :: rest, m⟩ →
      entry ∈ a.logIn record limit room c m → a.Records record limit program m₀ entry) :
    ∀ (s : Statement) (m : Machine), a.Reaches limit program m₀ ⟨blocks, room, s :: rest, m⟩ →
      entry ∈ a.log record (a.call limit room) (a.logIn record limit room) s m →
      a.Records record limit program m₀ entry
  | .compound body, m, h, hentry => by
      rcases List.mem_append.mp hentry with hentry | hentry
      · exact ⟨blocks, room, _, rest, m, h, hentry⟩
      · exact records_of_memAll hinside body m h.inside hentry
  | .call c, m, h, hentry => by
      rcases List.mem_append.mp hentry with hentry | hentry
      · exact ⟨blocks, room, _, rest, m, h, hentry⟩
      · exact hinside c m rest h hentry
  | .assign _ _, m, h, hentry => ⟨blocks, room, _, rest, m, h, hentry⟩
  | .write _ _ _, m, h, hentry => ⟨blocks, room, _, rest, m, h, hentry⟩
  | .empty, m, h, hentry => ⟨blocks, room, _, rest, m, h, hentry⟩

theorem records_of_memAll {rest : List Statement}
    (hinside : ∀ (c : Call) (m : Machine) (rest : List Statement),
      a.Reaches limit program m₀ ⟨blocks, room, .call c :: rest, m⟩ →
      entry ∈ a.logIn record limit room c m → a.Records record limit program m₀ entry) :
    ∀ (body : List Statement) (m : Machine),
      a.Reaches limit program m₀ ⟨blocks, room, body ++ rest, m⟩ →
      entry ∈ a.logAll record (a.call limit room) (a.logIn record limit room) body m →
      a.Records record limit program m₀ entry
  | [], _, _, hentry => absurd hentry List.not_mem_nil
  | s :: body, m, h, hentry => by
      cases hs : a.exec (a.call limit room) s m with
      | error e m' =>
          rw [logAll_of_error hs] at hentry
          exact records_of_mem hinside s m h hentry
      | ok u m' =>
          rw [logAll_of_ok hs, List.mem_append] at hentry
          rcases hentry with hentry | hentry
          · exact records_of_mem hinside s m h hentry
          · exact records_of_memAll hinside body m' (h.next hs) hentry

end

theorem records_of_memIn {rest : List Statement} {c : Call}
    (h : a.Reaches limit program m₀ ⟨blocks, room, .call c :: rest, m⟩)
    (hentry : entry ∈ a.logIn record limit room c m) :
    a.Records record limit program m₀ entry := by
  induction room generalizing blocks rest c m with
  | zero => exact absurd hentry List.not_mem_nil
  | succ room ih =>
      rw [logIn] at hentry
      split at hentry
      · exact absurd hentry List.not_mem_nil
      next p hp =>
        split at hentry
        · exact absurd hentry List.not_mem_nil
        next frame hframe =>
          have hbody : a.Reaches limit program m₀
              ⟨blocks ++ [p.block], room, p.block.body ++ [], m.entered p frame⟩ :=
            (List.append_nil _).symm ▸ h.enter hp hframe
          exact records_of_memAll (fun c m rest h hentry => ih h hentry) _ _ hbody hentry

/-- The entries of a log are those of the statements that come next at some point of the
run. -/
theorem mem_programLog_iff :
    entry ∈ a.programLog record limit program m₀ ↔
      a.Records record limit program m₀ entry := by
  constructor
  · intro hentry
    have hbody : a.Reaches limit program m₀ ⟨[program.block], limit - m₀.stack.size,
        program.block.body ++ [], m₀.started program⟩ := (List.append_nil _).symm ▸ .start
    exact records_of_memAll (fun c m rest h hentry => records_of_memIn h hentry) _ _
      hbody hentry
  · rintro ⟨blocks, room, s, rest, m, h, hentry⟩
    apply h.log_subset
    exact List.mem_append_left _ (record_subset_log s m hentry)

end

end Analysis

end MiniPascal

import MiniPascal.Proofs.Machine.Shape

/-!
The points of a run, and conditions on the stack that a whole run keeps. A point is reached
from the start of the program by running the next statement to its end, by going inside a
compound statement, or by going into the body of a call. A condition is stated for the scope
that the top frame runs. Assignments, writing and the evaluation of arguments are treated one
by one; the frame of a call must satisfy the condition for the scope of the procedure, and give
the condition back when it is taken off. The induction over statements and calls is made here,
once for all such conditions.
-/

namespace MiniPascal

/-! ### Points -/

/-- A point of a run: the blocks that the frames run, from the bottom of the stack; how many
more frames may be put on it; what is left to do in the top frame; and the machine. -/
structure Point where
  blocks : List Block
  room : Nat
  todo : List Statement
  machine : Machine

/-- The points of the run that starts with the machine `m₀`. -/
inductive Analysis.Reaches (a : Analysis) (limit : Nat) (program : Program) (m₀ : Machine) :
    Point → Prop
  | start : a.Reaches limit program m₀
      ⟨[program.block], limit - m₀.stack.size, program.block.body, m₀.started program⟩
  | next {blocks : List Block} {room : Nat} {s : Statement} {rest : List Statement}
      {m m' : Machine} :
      a.Reaches limit program m₀ ⟨blocks, room, s :: rest, m⟩ →
      a.exec (a.call limit room) s m = .ok () m' →
      a.Reaches limit program m₀ ⟨blocks, room, rest, m'⟩
  | inside {blocks : List Block} {room : Nat} {body rest : List Statement} {m : Machine} :
      a.Reaches limit program m₀ ⟨blocks, room, .compound body :: rest, m⟩ →
      a.Reaches limit program m₀ ⟨blocks, room, body ++ rest, m⟩
  | enter {blocks : List Block} {room : Nat} {c : Call} {rest : List Statement} {m : Machine}
      {p : ProcedureSymbol} {frame : Frame} :
      a.Reaches limit program m₀ ⟨blocks, room + 1, .call c :: rest, m⟩ →
      a.callee c = .ok p → a.calleeFrame p c m.stack = .ok frame →
      a.Reaches limit program m₀ ⟨blocks ++ [p.block], room, p.block.body, m.entered p frame⟩

/-- The machines of a run, each with the blocks that its frames run: those at the points of the
run, and those that a statement has left behind that failed. -/
inductive Analysis.Passes (a : Analysis) (limit : Nat) (program : Program) (m₀ : Machine) :
    List Block → Machine → Prop
  | point {pt : Point} :
      a.Reaches limit program m₀ pt → a.Passes limit program m₀ pt.blocks pt.machine
  | failed {blocks : List Block} {room : Nat} {s : Statement} {rest : List Statement}
      {m m' : Machine} {e : RuntimeError} :
      a.Reaches limit program m₀ ⟨blocks, room, s :: rest, m⟩ →
      a.exec (a.call limit room) s m = .error e m' → a.Passes limit program m₀ blocks m'

/-! ### Actions that keep a condition -/

/-- An action that keeps a condition on the stack, also when it fails, and whose errors are as
told. -/
structure Action.Obeys {α : Type} (I : CallStack → Prop) (E : RuntimeError → Prop)
    (x : Action α) :
    Prop where
  ok {m m' : Machine} {r : α} : I m.stack → x m = .ok r m' → I m'.stack
  error {m m' : Machine} {e : RuntimeError} : I m.stack → x m = .error e m' → I m'.stack ∧ E e

namespace Action

variable {α β : Type} {I : CallStack → Prop} {E : RuntimeError → Prop}

theorem Obeys.pure (r : α) : (pure r : Action α).Obeys I E := by
  constructor
  · intro m m' r' hI hrun
    cases hrun
    exact hI
  · intro m m' e hI hrun
    cases hrun

theorem Obeys.bind {x : Action α} {f : α → Action β} (hx : x.Obeys I E)
    (hf : ∀ r, (f r).Obeys I E) : (x >>= f).Obeys I E := by
  constructor
  · intro m m' r hI hrun
    cases hxm : x m with
    | error e m₁ => rw [bind_of_error hxm] at hrun; cases hrun
    | ok y m₁ =>
        rw [bind_of_ok hxm] at hrun
        exact (hf y).ok (hx.ok hI hxm) hrun
  · intro m m' e hI hrun
    cases hxm : x m with
    | error e' m₁ =>
        rw [bind_of_error hxm] at hrun
        cases hrun
        exact hx.error hI hxm
    | ok y m₁ =>
        rw [bind_of_ok hxm] at hrun
        exact (hf y).error (hx.ok hI hxm) hrun

end Action

/-- An assignment obeys if the value can be stored without breaking the condition, and what
keeps it from being stored is an error as told. -/
theorem Analysis.assign_obeys {a : Analysis} {target : Variable} {value : Expr}
    {I : CallStack → Prop} {E : RuntimeError → Prop}
    (hstores : ∀ {s v i w}, I s → a.eval s value = .ok v →
      a.destination target v s = .ok (i, w) → I (s.assign i target.name w))
    (hfails : ∀ {s e}, I s → (a.eval s value >>= (a.destination target · s)) =
      .error e → E e) :
    (a.assign target value).Obeys I E := by
  constructor
  · intro m m' r hI hrun
    rw [assign_eq] at hrun
    split at hrun
    · cases hrun
    next v heval =>
      split at hrun
      · cases hrun
      next i w hdestination =>
        cases hrun
        exact hstores hI heval hdestination
  · intro m m' e hI hrun
    rw [assign_eq] at hrun
    split at hrun
    next e' heval =>
      cases hrun
      exact ⟨hI, hfails hI (by rw [heval]; rfl)⟩
    next v heval =>
      split at hrun
      next e' hdestination =>
        cases hrun
        exact ⟨hI, hfails hI (by rw [heval, ok_bind, hdestination])⟩
      next => cases hrun

/-- Writing leaves the stack as it is. -/
theorem Analysis.write_obeys {a : Analysis} {newline : Bool} {args : List Expr}
    {I : CallStack → Prop} {E : RuntimeError → Prop} (hfull : E (.output Output.fullMessage))
    (hfails : ∀ {s e}, I s → a.evalAll s args = .error e → E e) :
    (a.write newline args).Obeys I E := by
  constructor
  · intro m m' r hI hrun
    rw [write_eq] at hrun
    split at hrun
    · cases hrun
    · rw [Action.write] at hrun
      split at hrun <;> cases hrun
      exact hI
  · intro m m' e hI hrun
    rw [write_eq] at hrun
    split at hrun
    next e' heval =>
      cases hrun
      exact ⟨hI, hfails hI heval⟩
    next =>
      rw [Action.write] at hrun
      split at hrun <;> cases hrun
      exact ⟨hI, hfull⟩

/-! ### Whole runs -/

/-- A condition `Holds σ` on the stack for each scope `σ` that the top frame can run, with the
statements that may be run there and the errors that they may end in. -/
structure Discipline (a : Analysis) where
  Scope : Type
  /-- The blocks that the frames run, from the bottom of the stack. -/
  blocks : Scope → List Block
  Allows : Scope → Statement → Prop
  Holds : Scope → CallStack → Prop
  Tolerates : RuntimeError → Prop
  compound {σ : Scope} {body : List Statement} {s : Statement} :
    Allows σ (.compound body) → s ∈ body → Allows σ s
  assign {σ : Scope} {target : Variable} {value : Expr} :
    Allows σ (.assign target value) → (a.assign target value).Obeys (Holds σ) Tolerates
  write {σ : Scope} {newline : Bool} {args : List Expr} {position : Position} :
    Allows σ (.write newline args position) → (a.write newline args).Obeys (Holds σ) Tolerates
  callee {σ : Scope} {c : Call} {e : RuntimeError} :
    Allows σ (.call c) → a.callee c = .error e → Tolerates e
  depth {σ : Scope} {c : Call} {p : ProcedureSymbol} (limit : Nat) :
    Allows σ (.call c) → a.callee c = .ok p →
    Tolerates (.callDepthExceeded p.name limit c.position)
  frame {σ : Scope} {c : Call} {p : ProcedureSymbol} {stack : CallStack} {e : RuntimeError} :
    Allows σ (.call c) → Holds σ stack → a.callee c = .ok p →
    a.calleeFrame p c stack = .error e → Tolerates e
  enter {σ : Scope} {c : Call} {p : ProcedureSymbol} {stack : CallStack} {frame : Frame} :
    Allows σ (.call c) → Holds σ stack → a.callee c = .ok p →
    a.calleeFrame p c stack = .ok frame →
    ∃ σ', blocks σ' = blocks σ ++ [p.block] ∧ (∀ s ∈ p.block.body, Allows σ' s) ∧
      Holds σ' (stack.push frame) ∧ ∀ stack', Holds σ' stack' → Holds σ stack'.pop

namespace Discipline

variable {a : Analysis} (D : Discipline a)

/-- Statements obey if calls do. -/
theorem stepwise {σ : D.Scope} {call : Call → Action Unit}
    (hcall : ∀ c, D.Allows σ (.call c) → (call c).Obeys (D.Holds σ) D.Tolerates) :
    a.Stepwise (D.Allows σ) call call fun x _ => x.Obeys (D.Holds σ) D.Tolerates where
  compound := D.compound
  nothing := .pure ()
  sequence hx hy := hx.bind fun _ => hy
  assign := D.assign
  write := D.write
  call := hcall _

/-- A call that there is no room for only fails. -/
theorem call_zero_obeys (limit : Nat) {σ : D.Scope} {c : Call} (h : D.Allows σ (.call c)) :
    (a.call limit 0 c).Obeys (D.Holds σ) D.Tolerates := by
  constructor
  · intro m m' r hI hrun
    rw [Analysis.call_zero] at hrun
    split at hrun <;> cases hrun
  · intro m m' e hI hrun
    rw [Analysis.call_zero] at hrun
    split at hrun
    next e' hp =>
      cases hrun
      exact ⟨hI, D.callee h hp⟩
    next p hp =>
      cases hrun
      exact ⟨hI, D.depth limit h hp⟩

/-- A call obeys if the calls of its body do, whichever scope it runs. -/
theorem call_succ_obeys {limit room : Nat}
    (hcalls : ∀ {σ : D.Scope} {c : Call}, D.Allows σ (.call c) →
      (a.call limit room c).Obeys (D.Holds σ) D.Tolerates)
    {σ : D.Scope} {c : Call} (h : D.Allows σ (.call c)) :
    (a.call limit (room + 1) c).Obeys (D.Holds σ) D.Tolerates := by
  constructor
  · intro m m' r hI hrun
    rw [Analysis.call_succ] at hrun
    split at hrun
    · cases hrun
    next p hp =>
      split at hrun
      · cases hrun
      next frame hframe =>
        obtain ⟨σ', -, hbody, hentered, hleave⟩ := D.enter h hI hp hframe
        have hobeys := (D.stepwise fun _ hc => hcalls hc).execAll p.block.body hbody
        split at hrun
        · cases hrun
        next u m₁ hrun' =>
          cases hrun
          exact hleave m₁.stack (hobeys.ok hentered hrun')
  · intro m m' e hI hrun
    rw [Analysis.call_succ] at hrun
    split at hrun
    next e' hp =>
      cases hrun
      exact ⟨hI, D.callee h hp⟩
    next p hp =>
      split at hrun
      next e' hframe =>
        cases hrun
        exact ⟨hI, D.frame h hI hp hframe⟩
      next frame hframe =>
        obtain ⟨σ', -, hbody, hentered, hleave⟩ := D.enter h hI hp hframe
        have hobeys := (D.stepwise fun _ hc => hcalls hc).execAll p.block.body hbody
        split at hrun
        next e' m₁ hrun' =>
          cases hrun
          obtain ⟨hended, herror⟩ := hobeys.error hentered hrun'
          exact ⟨hleave m₁.stack hended, herror⟩
        next => cases hrun

theorem call_obeys (limit room : Nat) {σ : D.Scope} {c : Call} (h : D.Allows σ (.call c)) :
    (a.call limit room c).Obeys (D.Holds σ) D.Tolerates := by
  induction room generalizing σ c with
  | zero => exact D.call_zero_obeys limit h
  | succ room ih => exact D.call_succ_obeys ih h

theorem statement_obeys (limit room : Nat) {σ : D.Scope} {s : Statement} (h : D.Allows σ s) :
    (a.exec (a.call limit room) s).Obeys (D.Holds σ) D.Tolerates :=
  (D.stepwise fun _ hc => D.call_obeys limit room hc).exec s h

/-! ### Points of a run -/

/-- At the point the condition holds for a scope where what is left to do is allowed. -/
def HoldsAt (pt : Point) (σ : D.Scope) : Prop :=
  D.blocks σ = pt.blocks ∧ D.Holds σ pt.machine.stack ∧ ∀ s ∈ pt.todo, D.Allows σ s

variable {limit : Nat} {program : Program} {m₀ : Machine}

/-- The point where a run starts. -/
def startPoint (limit : Nat) (program : Program) (m₀ : Machine) : Point :=
  ⟨[program.block], limit - m₀.stack.size, program.block.body, m₀.started program⟩

theorem exists_holdsAt {σ₀ : D.Scope} (h₀ : D.HoldsAt (startPoint limit program m₀) σ₀)
    {pt : Point} (h : a.Reaches limit program m₀ pt) : ∃ σ, D.HoldsAt pt σ := by
  induction h with
  | start => exact ⟨σ₀, h₀⟩
  | @next _ room _ _ _ _ _ hrun ih =>
      obtain ⟨σ, hblocks, hholds, htodo⟩ := ih
      have hs := D.statement_obeys limit room (htodo _ List.mem_cons_self)
      exact ⟨σ, hblocks, hs.ok hholds hrun, fun t ht => htodo t (List.mem_cons_of_mem _ ht)⟩
  | inside _ ih =>
      obtain ⟨σ, hblocks, hholds, htodo⟩ := ih
      refine ⟨σ, hblocks, hholds, fun t ht => ?_⟩
      rcases List.mem_append.mp ht with ht | ht
      · exact D.compound (htodo _ List.mem_cons_self) ht
      · exact htodo t (List.mem_cons_of_mem _ ht)
  | enter _ hp hframe ih =>
      obtain ⟨σ, hblocks, hholds, htodo⟩ := ih
      obtain ⟨σ', hblocks', hbody, hentered, -⟩ :=
        D.enter (htodo _ List.mem_cons_self) hholds hp hframe
      exact ⟨σ', by rw [hblocks', hblocks], hentered, hbody⟩

theorem exists_holds {σ₀ : D.Scope} (h₀ : D.HoldsAt (startPoint limit program m₀) σ₀)
    {blocks : List Block} {m : Machine} (h : a.Passes limit program m₀ blocks m) :
    ∃ σ, D.blocks σ = blocks ∧ D.Holds σ m.stack := by
  cases h with
  | point hpt =>
      obtain ⟨σ, hblocks, hholds, -⟩ := D.exists_holdsAt h₀ hpt
      exact ⟨σ, hblocks, hholds⟩
  | @failed _ room _ _ _ _ _ hpt hrun =>
      obtain ⟨σ, hblocks, hholds, htodo⟩ := D.exists_holdsAt h₀ hpt
      have hs := D.statement_obeys limit room (htodo _ List.mem_cons_self)
      exact ⟨σ, hblocks, (hs.error hholds hrun).1⟩

theorem body_obeys {σ₀ : D.Scope} (h₀ : D.HoldsAt (startPoint limit program m₀) σ₀)
    (room : Nat) :
    (a.execAll (a.call limit room) program.block.body).Obeys (D.Holds σ₀) D.Tolerates :=
  (D.stepwise fun _ hc => D.call_obeys limit room hc).execAll program.block.body h₀.2.2

/-- What a run ends in. The frame of the program is the top frame before it is taken off. -/
theorem interpret_error {σ₀ : D.Scope} (h₀ : D.HoldsAt (startPoint limit program m₀) σ₀)
    {e : RuntimeError} {m : Machine} (h : a.interpret limit program m₀ = .error e m) :
    D.Tolerates e := by
  rw [Analysis.interpret_eq] at h
  split at h
  next e' m' hrun =>
    cases h
    exact ((D.body_obeys h₀ _).error h₀.2.1 hrun).2
  next => cases h

theorem interpret_ok {σ₀ : D.Scope} (h₀ : D.HoldsAt (startPoint limit program m₀) σ₀)
    {frame : Frame} {m : Machine} (h : a.interpret limit program m₀ = .ok frame m) :
    ∃ stack, D.Holds σ₀ stack ∧ frame = stack.top?.getD (Machine.programFrame program) := by
  rw [Analysis.interpret_eq] at h
  split at h
  next => cases h
  next u m' hrun =>
    cases h
    exact ⟨m'.stack, (D.body_obeys h₀ _).ok h₀.2.1 hrun, rfl⟩

end Discipline

end MiniPascal

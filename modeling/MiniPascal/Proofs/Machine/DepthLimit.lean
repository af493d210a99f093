import Mathlib.Data.List.Find
import MiniPascal.Proofs.Machine.Arrivals
import MiniPascal.Proofs.Machine.Congruence
import MiniPascal.Proofs.Machine.Discipline
import MiniPascal.Proofs.Machine.Links
import MiniPascal.Proofs.Preparation

/-!
What the limit on the depth of calls does. A run under a limit `d` is laid beside a run of the
same program under a higher limit. As long as the second comes to no call with `d` procedures
active, both do the same. At the first such call the first run ends, and what it has written by
then the second has written too, and goes on from there.
-/

namespace MiniPascal

/-! ### Errors that are not about depth -/

/-- The error says that too many procedures are active. -/
inductive RuntimeError.Exceeds : RuntimeError → Prop
  | depth (name : String) (limit : Nat) (position : Position) :
      Exceeds (.callDepthExceeded name limit position)

/-- A result that is no such error. -/
def Shallow {α : Type} (r : Except RuntimeError α) : Prop := ∀ e, r = .error e → ¬ e.Exceeds

section

variable {α β : Type}

theorem shallow_ok (r : α) : Shallow (.ok r) := by
  intro e h
  cases h

theorem shallow_error {e : RuntimeError} (he : ¬ e.Exceeds) :
    Shallow (.error e : Except _ α) := by
  intro e' h
  cases h
  exact he

theorem Shallow.bind {r : Except RuntimeError α} {f : α → Except RuntimeError β}
    (hr : Shallow r) (hf : ∀ x, Shallow (f x)) : Shallow (r >>= f) := by
  cases r with
  | ok x => exact hf x
  | error e => exact shallow_error (hr e rfl)

end

theorem shallow_frameIndex (stack : CallStack) (name : String) (level : Nat)
    (position : Position) :
    Shallow (stack.frameIndex name level position) := by
  rw [CallStack.frameIndex]
  split
  · exact shallow_ok _
  · exact shallow_error (by rintro ⟨⟩)

namespace Analysis

variable (a : Analysis) (stack : CallStack)

theorem shallow_binding (v : Variable) : Shallow (a.binding v) := by
  rw [binding]
  split
  · exact shallow_ok _
  · exact shallow_error (by rintro ⟨⟩)

theorem shallow_store (name : String) (type : DataType) (position : Position) (v : Value) :
    Shallow (store name type position v) := by
  rw [store]
  split
  · exact shallow_ok _
  · exact shallow_error (by rintro ⟨⟩)

theorem shallow_raise (position : Position) (r : Except ArithmeticFault Value) :
    Shallow (raise position r) := by
  cases r with
  | ok v => exact shallow_ok v
  | error fault => exact shallow_error (by rintro ⟨⟩)

theorem shallow_eval (e : Expr) : Shallow (a.eval stack e) := by
  induction e with
  | var v =>
      refine (a.shallow_binding v).bind fun b => (shallow_frameIndex _ _ _ _).bind fun i => ?_
      split
      · exact shallow_ok _
      · exact shallow_error (by rintro ⟨⟩)
  | binary op left right position ihl ihr =>
      exact ihl.bind fun l => ihr.bind fun r => shallow_raise position _
  | unary op operand position ih => exact ih.bind fun v => shallow_raise position _
  | literal v => exact shallow_ok v

theorem shallow_evalAll (args : List Expr) : Shallow (a.evalAll stack args) := by
  induction args with
  | nil => exact shallow_ok []
  | cons e args ih =>
      exact (a.shallow_eval stack e).bind fun v => ih.bind fun vs => shallow_ok _

theorem shallow_destination (target : Variable) (v : Value) :
    Shallow (a.destination target v stack) :=
  (a.shallow_binding target).bind fun _ => (shallow_store _ _ _ _).bind fun _ =>
    (shallow_frameIndex _ _ _ _).bind fun _ => shallow_ok _

theorem shallow_bindParams (position : Position) (params : List VarSymbol) (args : List Expr)
    (frame : Frame) : Shallow (a.bindParams stack position params args frame) := by
  induction args generalizing params frame with
  | nil => cases params <;> exact shallow_ok frame
  | cons e args ih =>
      cases params with
      | nil => exact shallow_ok frame
      | cons param params =>
          exact (a.shallow_eval stack e).bind fun v => (shallow_store _ _ _ _).bind fun w =>
            ih params _

theorem shallow_calleeFrame (p : ProcedureSymbol) (c : Call) :
    Shallow (a.calleeFrame p c stack) :=
  (a.shallow_bindParams stack _ _ _ _).bind fun _ => (shallow_frameIndex _ _ _ _).bind fun _ =>
    shallow_ok _

theorem assign_shallow {target : Variable} {value : Expr} {m m' : Machine} {e : RuntimeError}
    (h : a.assign target value m = .error e m') : ¬ e.Exceeds := by
  have hobeys : (a.assign target value).Obeys (fun _ => True) (¬ ·.Exceeds) := by
    refine assign_obeys (fun _ _ _ => trivial) ?_
    intro stack e _ hfails
    exact ((a.shallow_eval stack value).bind (a.shallow_destination stack target)) e hfails
  exact (hobeys.error trivial h).2

theorem write_shallow {newline : Bool} {args : List Expr} {m m' : Machine} {e : RuntimeError}
    (h : a.write newline args m = .error e m') : ¬ e.Exceeds := by
  have hobeys : (a.write newline args).Obeys (fun _ => True) (¬ ·.Exceeds) := by
    apply write_obeys
    · rintro ⟨⟩
    · exact fun _ hfails => a.shallow_evalAll _ args _ hfails
  exact (hobeys.error trivial h).2

end Analysis

/-! ### Two limits -/

/-- How a part of a run ends under the limit `d`, and how under a higher limit, when the second
comes to the calls that are listed. -/
inductive Curtails (a : Analysis) (d : Nat) {α : Type} (reached : List Arrival) :
    Ending α → Ending α → Prop
  | same {r : Ending α} : (∀ v ∈ reached, v.machine.stack.size ≠ d + 1) →
      (∀ e m, r = .error e m → ¬ e.Exceeds) → Curtails a d reached r r
  | cut {v : Arrival} {p : ProcedureSymbol} {m : Machine} {r : Ending α} :
      reached.find? (·.machine.stack.size = d + 1) = some v → a.callee v.call = .ok p →
      m.output.Extends r.machine.output →
      Curtails a d reached (.error (.callDepthExceeded p.name d v.call.position) m) r

/-- Something is done to the machine in the end, also after a failure. -/
def Ending.close {α β : Type} (g : α → Machine → β) (f : Machine → Machine) :
    Ending α → Ending β
  | .ok r m => .ok (g r m) (f m)
  | .error e m => .error e (f m)

/-- All calls that are listed have a procedure. -/
def Analysis.Knows (a : Analysis) (reached : List Arrival) : Prop :=
  ∀ v ∈ reached, ∃ p, a.callee v.call = .ok p

section

variable {a : Analysis} {d : Nat} {α : Type}

theorem Curtails.after {before reached : List Arrival} {r r' : Ending α}
    (hbefore : ∀ v ∈ before, v.machine.stack.size ≠ d + 1) (h : Curtails a d reached r r') :
    Curtails a d (before ++ reached) r r' := by
  cases h with
  | same hreached he =>
      refine .same (fun v hv => ?_) he
      rcases List.mem_append.mp hv with hv | hv
      · exact hbefore v hv
      · exact hreached v hv
  | cut hfind hp hout =>
      refine .cut ?_ hp hout
      have hnone : before.find? (·.machine.stack.size = d + 1) = none := by
        simpa using hbefore
      rw [List.find?_append, hnone, Option.none_or, hfind]

theorem Curtails.close {β : Type} {reached : List Arrival} {r r' : Ending α}
    (h : Curtails a d reached r r') (g : α → Machine → β) {f : Machine → Machine}
    (hf : ∀ m, (f m).output = m.output) :
    Curtails a d reached (r.close g f) (r'.close g f) := by
  cases h with
  | same hreached he =>
      refine .same hreached ?_
      intro e m' heq
      cases r with
      | ok x m => cases heq
      | error e' m =>
          cases heq
          exact he e m rfl
  | cut hfind hp hout =>
      refine .cut hfind hp ?_
      rw [hf]
      cases r' with
      | ok x m => exact (hf m).symm ▸ hout
      | error e m => exact (hf m).symm ▸ hout

/-- On a stack of `size` frames the first action ends early if it ends differently. -/
structure CurtailsOn (a : Analysis) (d size : Nat) (reached : Machine → List Arrival)
    (x x' : Action Unit) : Prop where
  keepsShape : x.KeepsShape
  grows : x'.Grows
  curtails {m : Machine} : m.stack.size = size → a.Knows (reached m) →
    Curtails a d (reached m) (x m) (x' m)

variable {size : Nat} {call call' : Call → Action Unit}
  {inside : Call → Machine → List Arrival}

theorem CurtailsOn.sequence {first second : Machine → List Arrival} {x x' y y' : Action Unit}
    (hx : CurtailsOn a d size first x x') (hy : CurtailsOn a d size second y y') :
    CurtailsOn a d size (Analysis.logThen first x' second) (x >>= fun _ => y)
      (x' >>= fun _ => y') := by
  refine ⟨hx.keepsShape.bind fun _ => hy.keepsShape, hx.grows.bind fun _ => hy.grows, ?_⟩
  intro m hm hknows
  have hshape := hx.keepsShape m
  have hs := hx.curtails hm fun v hv => hknows v (List.mem_append_left _ hv)
  generalize hr : x m = r at hs hshape
  generalize hr' : x' m = r' at hs
  cases hs with
  | same hreached he =>
      cases r with
      | error e m' =>
          rw [bind_of_error hr, bind_of_error hr', Analysis.logThen_of_error hr']
          exact .same hreached fun e' m'' heq => by cases heq; exact he e m' rfl
      | ok u m' =>
          rw [Analysis.logThen_of_ok hr'] at hknows ⊢
          rw [bind_of_ok hr, bind_of_ok hr']
          exact .after hreached
            (hy.curtails ((CallStack.size_eq_of_shape hshape).trans hm)
              fun v hv => hknows v (List.mem_append_right _ hv))
  | cut hfind hp hout =>
      rw [bind_of_error hr, Analysis.logThen]
      refine .cut (by rw [List.find?_append, hfind, Option.some_or]) hp ?_
      -- The second run goes on and adds to its output.
      cases r' with
      | error e m' => exact (bind_of_error hr').symm ▸ hout
      | ok u m' =>
          rw [bind_of_ok hr']
          exact hout.trans (hy.grows m')

/-- What calls nothing ends in the same way under both limits. -/
theorem CurtailsOn.same {x : Action Unit} (hshape : x.KeepsShape) (hgrows : x.Grows)
    (he : ∀ e m m', x m = .error e m' → ¬ e.Exceeds) :
    CurtailsOn a d size (fun _ => []) x x :=
  ⟨hshape, hgrows, fun _ _ =>
    .same (fun _ hv => absurd hv List.not_mem_nil) fun e m' h => he e _ m' h⟩

theorem Analysis.logged_arrivals
    (hcalls : ∀ c, CurtailsOn a d size (fun m => ⟨c, m⟩ :: inside c m) (call c) (call' c)) :
    a.Logged Analysis.arrival call call' inside (CurtailsOn a d size) where
  compound _ := rfl
  empty := rfl
  nothing := .same (Action.keepsShape_congruence.pure ()) (Action.grows_congruence.pure ())
    fun _ _ _ he => nomatch he
  sequence := .sequence
  assign target value := .same (Action.keepsShape_congruence.assign a target value)
    (Action.grows_congruence.assign a target value) fun _ _ _ => a.assign_shallow
  write newline args _ := .same (Action.keepsShape_congruence.writeAll a newline args)
    (Action.grows_congruence.writeAll a newline args) fun _ _ _ => a.write_shallow
  call := hcalls

variable {d' room room' : Nat}

/-- With no room left, a call ends the run where it stands. -/
theorem CurtailsOn.call_zero (c : Call) :
    CurtailsOn a d (d + 1) (fun m => ⟨c, m⟩ :: a.logIn Analysis.arrival d' room' c m)
      (a.call d 0 c) (a.call d' room' c) := by
  refine ⟨a.call_keepsShape d 0 c, Action.grows_congruence.call a d' room' c, ?_⟩
  intro m hm hknows
  obtain ⟨p, hp⟩ := hknows ⟨c, m⟩ List.mem_cons_self
  rw [Analysis.call_zero, hp]
  refine .cut (v := ⟨c, m⟩) ?_ hp (Action.grows_congruence.call a d' _ c m)
  exact List.find?_cons_of_pos (decide_eq_true hm)

/-- With room left, a call ends early if its body does. -/
theorem CurtailsOn.call_succ (hsize : size ≤ d)
    (hcalls : ∀ c, CurtailsOn a d (size + 1)
      (fun m => ⟨c, m⟩ :: a.logIn Analysis.arrival d' room' c m) (a.call d room c)
      (a.call d' room' c)) (c : Call) :
    CurtailsOn a d size (fun m => ⟨c, m⟩ :: a.logIn Analysis.arrival d' (room' + 1) c m)
      (a.call d (room + 1) c) (a.call d' (room' + 1) c) := by
  refine ⟨a.call_keepsShape d _ c, Action.grows_congruence.call a d' _ c, ?_⟩
  intro m hm hknows
  obtain ⟨p, hp⟩ := hknows ⟨c, m⟩ List.mem_cons_self
  have hhere : ∀ v ∈ [(⟨c, m⟩ : Arrival)], v.machine.stack.size ≠ d + 1 := by
    intro v hv
    rw [List.mem_singleton.mp hv]
    dsimp only
    omega
  suffices hinside : Curtails a d (a.logIn Analysis.arrival d' (room' + 1) c m)
      (a.call d (room + 1) c m)
      (a.call d' (room' + 1) c m) from .after hhere hinside
  dsimp only at hp
  rw [Analysis.call_succ, Analysis.call_succ]
  simp only [hp]
  cases hframe : a.calleeFrame p c m.stack with
  | error e =>
      refine .same ?_ ?_
      · rw [Analysis.logIn_refused hp hframe]
        exact fun v hv => absurd hv List.not_mem_nil
      · intro e' m' he
        cases he
        exact a.shallow_calleeFrame _ _ _ e hframe
  | ok frame =>
      rw [Analysis.logIn_succ hp hframe] at hknows ⊢
      have hend := ((a.logged_arrivals hcalls).execAll p.block.body).curtails
        ((Analysis.size_entered m p frame).trans (congrArg (· + 1) hm))
        fun v hv => hknows v (List.mem_cons_of_mem _ hv)
      dsimp only
      rw [Analysis.bodyLog]
      generalize a.execAll (a.call d room) p.block.body (m.entered p frame) = r at hend
      generalize a.execAll (a.call d' room') p.block.body (m.entered p frame) = r' at hend
      have hclose := hend.close (fun _ _ => ()) (f := (·.left p frame)) fun _ => rfl
      cases r <;> cases r' <;> exact hclose

theorem Analysis.call_curtails (a : Analysis) (k : Nat) (hsize : size + room = d + 1)
    (c : Call) :
    CurtailsOn a d size (fun m => ⟨c, m⟩ :: a.logIn Analysis.arrival d' (k + room) c m)
      (a.call d room c) (a.call d' (k + room) c) := by
  induction room generalizing size c with
  | zero =>
      obtain rfl : size = d + 1 := hsize
      exact .call_zero c
  | succ room ih =>
      rw [← Nat.add_assoc]
      exact .call_succ (by omega) (ih (by omega)) c

/-- A program ends early only if it comes to a call that finds the stack full under the lower
limit. -/
theorem Analysis.interpret_curtails (hd : d ≤ d') {program : Program} {m : Machine}
    (hm : m.stack = {}) (hknows : a.Knows (a.programArrivals d' program m)) :
    Curtails a d (a.programArrivals d' program m) (a.interpret d program m)
      (a.interpret d' program m) := by
  have hsize : m.stack.size = 0 := by rw [hm]; rfl
  have hcalls : ∀ c, CurtailsOn a d 1
      (fun m => ⟨c, m⟩ :: a.logIn Analysis.arrival d' d' c m) (a.call d d c)
      (a.call d' d' c) := by
    intro c
    have h : CurtailsOn a d 1 _ _ (a.call d' _ c) :=
      a.call_curtails (d' - d) (Nat.add_comm 1 d) c
    rwa [Nat.sub_add_cancel hd] at h
  rw [programArrivals, programLog, bodyLog, hsize, Nat.sub_zero] at hknows ⊢
  have hend := ((a.logged_arrivals hcalls).execAll program.block.body).curtails
    ((size_started m program).trans (by rw [hsize])) hknows
  rw [interpret_eq, interpret_eq, hsize, Nat.sub_zero, Nat.sub_zero]
  generalize a.execAll (a.call d d) program.block.body (m.started program) = r at hend
  generalize a.execAll (a.call d' d') program.block.body (m.started program) = r' at hend
  have hclose := hend.close (fun _ m => m.stack.top?.getD (Machine.programFrame program))
    (f := fun m => (m.dumpStack "LEAVE" program.name).pop) fun _ => rfl
  cases r <;> cases r' <;> exact hclose

end

/-! ### Runs -/

/-- The calls that a run comes to, in order. -/
def callsReached (settings : Settings) (text : String) (output : Output) (j : Journal) :
    List Arrival :=
  match prepare settings text j with
  | (.stopped _, _) => []
  | (.ready program a, j) =>
      a.programArrivals settings.maxDepth program { output, journal := j }

/-- The run ends because too many procedures are active. -/
def RunResult.Exceeds (r : RunResult) : Prop := ∃ e, r.result = .error (.runtime e) ∧ e.Exceeds

theorem parse_ne_runtime (settings : Settings) (text : String) (j : Journal)
    (e : RuntimeError) :
    (parse settings text j).1 ≠ .error (.runtime e) := by
  rw [parse, tokenize]
  rcases readTokens text _ with ⟨e' | tokens, J⟩
  · rintro ⟨⟩
  dsimp only
  rcases parseProgram tokens settings J with ⟨e' | program, J'⟩ <;> rintro ⟨⟩

theorem analyze_ne_runtime (program : Program) (j : Journal) (e : RuntimeError) :
    (analyze program j).1 ≠ .error (.runtime e) := by
  rw [analyze]
  rcases analyzeProgram program j with ⟨errors | a, J⟩ <;> rintro ⟨⟩

theorem not_exceeds_of_stopped {settings : Settings} {text : String} {j J : Journal}
    {result : Except Error Outcome} (h : prepare settings text j = (.stopped result, J))
    (output : Output) : ¬ RunResult.Exceeds ⟨result, output, J⟩ := by
  rintro ⟨e, he, -⟩
  rcases (of_prepare_eq_stopped h).2 _ he with hparse | ⟨program, j₁, -, hanalyze⟩
  · exact parse_ne_runtime settings text j e hparse
  · exact analyze_ne_runtime program j₁ e hanalyze

/-- What the limit `d` makes of a run, when a run under a higher limit ends in `r'` and comes
to the calls that are listed. -/
inductive RunResult.Curtails (d : Nat) (reached : List Arrival) : RunResult → RunResult → Prop
  | same {r : RunResult} : (∀ v ∈ reached, v.machine.stack.depth ≠ d) → ¬ r.Exceeds →
      Curtails d reached r r
  | cut {v : Arrival} {r r' : RunResult} : reached.find? (·.machine.stack.depth = d) = some v →
      r.result = .error (.runtime (.callDepthExceeded v.call.name d v.call.position)) →
      r.output.Extends r'.output → Curtails d reached r r'

theorem run_curtails (settings : Settings) (text : String) (output : Output) (j : Journal)
    {d d' : Nat} (hd : d ≤ d') :
    RunResult.Curtails d (callsReached { settings with maxDepth := d' } text output j)
      (run { settings with maxDepth := d } text output j)
      (run { settings with maxDepth := d' } text output j) := by
  have hsame (d : Nat) : prepare { settings with maxDepth := d } text j =
      prepare settings text j :=
    prepare_congr rfl rfl text j
  rw [run, run, callsReached, hsame d, hsame d']
  rcases hprepare : prepare settings text j with ⟨result | ⟨program, a⟩, J⟩
  · exact .same (fun _ hv => absurd hv List.not_mem_nil)
      (not_exceeds_of_stopped hprepare output)
  obtain ⟨-, j₁, hparse, hanalyze⟩ := prepare_eq_ready_iff.mp hprepare
  have hres : a.Resolves program :=
    Analysis.resolves (congrArg Prod.fst hparse) (congrArg Prod.fst hanalyze)
  dsimp only
  have hsound {v : Arrival} (hv : v ∈ a.programArrivals d' program { output, journal := J }) :=
    Analysis.arrival_sound hres rfl hv
  have hknows : a.Knows (a.programArrivals d' program { output, journal := J }) :=
    fun v hv => (hsound hv).1.imp fun p => And.left
  have hend := a.interpret_curtails hd rfl hknows
  generalize a.interpret d program { output, journal := J } = r at hend
  generalize a.interpret d' program { output, journal := J } = r' at hend
  cases hend with
  | same hreached he =>
      refine .same (fun v hv hdepth => hreached v hv ?_) ?_
      · rw [(hsound hv).2, hdepth]
      · rintro ⟨e, heq, hexceeds⟩
        cases r with
        | ok frame m => cases heq
        | error e' m =>
            cases heq
            exact he e m rfl hexceeds
  | @cut v p m _ hfind hp hout =>
      obtain ⟨p', hp', hname⟩ := (hsound (List.mem_of_find?_eq_some hfind)).1
      obtain rfl := Except.ok.inj (hp.symm.trans hp')
      rw [hname]
      have hfind' : (a.programArrivals d' program { output, journal := J }).find?
          (·.machine.stack.depth = d) = some v := by
        rw [← hfind]
        refine List.find?_congr fun v hv => decide_eq_decide.mpr ?_
        rw [(hsound hv).2, Nat.add_right_cancel_iff]
      refine .cut hfind' rfl ?_
      cases r' with
      | ok frame m' => exact hout
      | error e m' => exact hout

/-- **The limit on the depth of calls only cuts runs short.** Run any text under two limits `d`
and `d'`, where `d'` is not the lower one. If the run under `d` does not end because of its
limit, then both runs are the same. If it does, then what it has written is the beginning of
what the other run writes. It does so exactly if the run under `d'` comes to a call while `d`
procedures are active, and then it ends with the name and the position of the first such
call. -/
theorem depth_limit_cuts_short (settings : Settings) (text : String) (output : Output)
    (j : Journal) (d d' : Nat) (hd : d ≤ d') :
    let r := run { settings with maxDepth := d } text output j
    let r' := run { settings with maxDepth := d' } text output j
    let reached := callsReached { settings with maxDepth := d' } text output j
    (¬ r.Exceeds → r = r') ∧ (r.Exceeds → r.output.Extends r'.output) ∧
      (r.Exceeds ↔ ∃ v ∈ reached, v.machine.stack.depth = d) ∧
      ∀ v, reached.find? (·.machine.stack.depth = d) = some v →
        r.result = .error (.runtime (.callDepthExceeded v.call.name d v.call.position)) := by
  intro r r' reached
  have h : RunResult.Curtails d reached r r' := run_curtails settings text output j hd
  generalize r = r at h
  generalize r' = r' at h
  cases h with
  | same hreached hr =>
      refine ⟨fun _ => rfl, fun hexceeds => absurd hexceeds hr,
        ⟨fun hexceeds => absurd hexceeds hr, ?_⟩, ?_⟩
      · rintro ⟨v, hv, hdepth⟩
        exact absurd hdepth (hreached v hv)
      · intro v hfind
        have hdepth : v.machine.stack.depth = d := by simpa using List.find?_some hfind
        exact absurd hdepth (hreached v (List.mem_of_find?_eq_some hfind))
  | @cut v r _ hfind hresult hout =>
      have hexceeds : r.Exceeds := ⟨_, hresult, .depth _ _ _⟩
      refine ⟨fun hr => absurd hexceeds hr,
        fun _ => hout, ⟨fun _ => ?_, fun _ => hexceeds⟩, ?_⟩
      · exact ⟨v, List.mem_of_find?_eq_some hfind, by simpa using List.find?_some hfind⟩
      · intro v' hfind'
        obtain rfl := Option.some.inj (hfind.symm.trans hfind')
        exact hresult

/-- A procedure that calls itself without end. -/
def countdownText : String :=
  "PROGRAM P; PROCEDURE Q(N : INTEGER); BEGIN WRITELN(N); Q(N - 1) END; " ++
    "BEGIN WRITELN(9); Q(3) END."

/-- Under the limit two the run ends at the call inside `Q`, which the run under the limit four
comes to again and again. -/
theorem countdown_cut_short :
    let r := run { maxDepth := 2 } countdownText {} (.ofSettings {})
    r.Exceeds ∧ r.output.Extends
      (run { maxDepth := 4 } countdownText {} (.ofSettings {})).output ∧
      ∃ v ∈ callsReached { maxDepth := 4 } countdownText {} (.ofSettings {}),
        v.machine.stack.depth = 2 ∧ v.call.name = "Q" ∧
        r.result = .error (.runtime (.callDepthExceeded v.call.name 2 v.call.position)) := by
  intro r
  obtain ⟨-, hextends, hiff, hfirst⟩ :=
    depth_limit_cuts_short {} countdownText {} (.ofSettings {}) 2 4 (by decide)
  have hname : ((callsReached { maxDepth := 4 } countdownText {} (.ofSettings {})).find?
      (·.machine.stack.depth = 2)).map (·.call.name) = some "Q" := by decide +kernel
  obtain ⟨v, hv, hq⟩ := Option.map_eq_some_iff.mp hname
  have hmem := List.mem_of_find?_eq_some hv
  have hdepth : v.machine.stack.depth = 2 := by simpa using List.find?_some hv
  have hexceeds := hiff.mpr ⟨v, hmem, hdepth⟩
  exact ⟨hexceeds, hextends hexceeds, v, hmem, hdepth, hq, hfirst v hv⟩

end MiniPascal

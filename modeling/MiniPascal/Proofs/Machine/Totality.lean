import MiniPascal.Proofs.Machine.Links

/-!
Runs come to an end. `Executes` describes running a statement by rules that know nothing of how
many frames may follow: a call looks at the size of the stack, fails if that is above the
limit, and runs the body of the procedure otherwise. A body is taken from a table, and nothing
in the rules keeps it from calling itself. But each call leaves one frame less to go, so every
statement has a derivation, which is a finite tree; and its result is the one that is computed.
-/

namespace MiniPascal

namespace Analysis

mutual

/-- Running a statement ends in `r`. -/
inductive Executes (a : Analysis) (limit : Nat) : Statement → Machine → Ending Unit → Prop
  | compound {body : List Statement} {m : Machine} {r : Ending Unit} :
      a.ExecutesAll limit body m r → a.Executes limit (.compound body) m r
  | assign (target : Variable) (value : Expr) (m : Machine) :
      a.Executes limit (.assign target value) m (a.assign target value m)
  | write (newline : Bool) (args : List Expr) (position : Position) (m : Machine) :
      a.Executes limit (.write newline args position) m (a.write newline args m)
  | empty (m : Machine) : a.Executes limit .empty m (.ok () m)
  | stray {c : Call} {m : Machine} {e : RuntimeError} :
      a.callee c = .error e → a.Executes limit (.call c) m (.error e m)
  | tooDeep {c : Call} {m : Machine} {p : ProcedureSymbol} :
      a.callee c = .ok p → limit < m.stack.size →
      a.Executes limit (.call c) m (.error (.callDepthExceeded p.name limit c.position) m)
  | refused {c : Call} {m : Machine} {p : ProcedureSymbol} {e : RuntimeError} :
      a.callee c = .ok p → m.stack.size ≤ limit → a.calleeFrame p c m.stack = .error e →
      a.Executes limit (.call c) m (.error e m)
  | returned {c : Call} {m m' : Machine} {p : ProcedureSymbol} {frame : Frame} :
      a.callee c = .ok p → m.stack.size ≤ limit → a.calleeFrame p c m.stack = .ok frame →
      a.ExecutesAll limit p.block.body (m.entered p frame) (.ok () m') →
      a.Executes limit (.call c) m (.ok () (m'.left p frame))
  | failed {c : Call} {m m' : Machine} {p : ProcedureSymbol} {frame : Frame}
      {e : RuntimeError} :
      a.callee c = .ok p → m.stack.size ≤ limit → a.calleeFrame p c m.stack = .ok frame →
      a.ExecutesAll limit p.block.body (m.entered p frame) (.error e m') →
      a.Executes limit (.call c) m (.error e (m'.left p frame))

/-- Running statements one after the other, up to the first that fails, ends in `r`. -/
inductive ExecutesAll (a : Analysis) (limit : Nat) :
    List Statement → Machine → Ending Unit → Prop
  | nil (m : Machine) : a.ExecutesAll limit [] m (.ok () m)
  | next {s : Statement} {rest : List Statement} {m m' : Machine} {r : Ending Unit} :
      a.Executes limit s m (.ok () m') → a.ExecutesAll limit rest m' r →
      a.ExecutesAll limit (s :: rest) m r
  | stop {s : Statement} {rest : List Statement} {m m' : Machine} {e : RuntimeError} :
      a.Executes limit s m (.error e m') → a.ExecutesAll limit (s :: rest) m (.error e m')

end

/-- Running a program ends in `r`. In the end the frame of the program is on top of the
stack. -/
inductive Interprets (a : Analysis) (limit : Nat) (program : Program) (m : Machine) :
    Ending Frame → Prop
  | ended {m' : Machine} {frame : Frame} :
      a.ExecutesAll limit program.block.body (m.started program) (.ok () m') →
      m'.stack.top? = some frame →
      Interprets a limit program m (.ok frame (m'.dumpStack "LEAVE" program.name).pop)
  | failed {m' : Machine} {e : RuntimeError} :
      a.ExecutesAll limit program.block.body (m.started program) (.error e m') →
      Interprets a limit program m (.error e (m'.dumpStack "LEAVE" program.name).pop)

variable {a : Analysis} {limit : Nat}

/-- The statements of a body on the stack as it is. -/
def execStatements (a : Analysis) (limit : Nat) (body : List Statement) : Action Unit :=
  fun m => a.execAll (a.call limit (limit + 1 - m.stack.size)) body m

theorem execStatements_keepsShape (a : Analysis) (limit : Nat) (body : List Statement) :
    (a.execStatements limit body).KeepsShape :=
  fun m => a.execAll_keepsShape (a.call_keepsShape limit _) body m

theorem execStatements_cons (s : Statement) (rest : List Statement) (m : Machine) :
    a.execStatements limit (s :: rest) m =
      match a.execStatement limit s m with
      | .ok _ m' => a.execStatements limit rest m'
      | .error e m' => .error e m' := by
  have hshape := a.execStatement_keepsShape limit s m
  cases hs : a.execStatement limit s m with
  | error e m' =>
      rw [execStatements, execAll]
      exact bind_of_error hs
  | ok u m' =>
      rw [hs] at hshape
      have hsize : m'.stack.size = m.stack.size := CallStack.size_eq_of_shape hshape
      rw [execStatements, execAll]
      refine (bind_of_ok hs).trans ?_
      rw [← hsize]
      rfl

theorem execStatement_call (c : Call) (m : Machine) :
    a.execStatement limit (.call c) m =
      match a.callee c with
      | .error e => .error e m
      | .ok p =>
          if limit < m.stack.size then .error (.callDepthExceeded p.name limit c.position) m
          else
            match a.calleeFrame p c m.stack with
            | .error e => .error e m
            | .ok frame =>
                match a.execStatements limit p.block.body (m.entered p frame) with
                | .error e m' => .error e (m'.left p frame)
                | .ok _ m' => .ok () (m'.left p frame) := by
  rw [execStatement, exec]
  rcases Nat.lt_or_ge limit m.stack.size with hsize | hsize
  · have hroom : limit + 1 - m.stack.size = 0 := by omega
    rw [hroom]
    simp only [if_pos hsize]
    exact a.call_zero limit c m
  · have hroom : limit + 1 - m.stack.size = (limit - m.stack.size) + 1 := by omega
    rw [hroom]
    simp only [if_neg (Nat.not_lt.mpr hsize), execStatements, size_entered,
      Nat.add_sub_add_right]
    exact a.call_succ limit _ c m

/-! ### What has a derivation is computed -/

mutual

theorem Executes.eq : ∀ {s : Statement} {m : Machine} {r : Ending Unit},
    a.Executes limit s m r → a.execStatement limit s m = r
  | _, _, _, .compound hbody => ExecutesAll.eq hbody
  | _, _, _, .assign _ _ _ => rfl
  | _, _, _, .write _ _ _ _ => rfl
  | _, _, _, .empty _ => rfl
  | _, _, _, .stray hp => by rw [execStatement_call, hp]
  | _, _, _, .tooDeep hp hsize => by
      rw [execStatement_call, hp]
      exact if_pos hsize
  | _, _, _, .refused hp hsize hframe => by
      simp only [execStatement_call, hp, if_neg (Nat.not_lt.mpr hsize), hframe]
  | _, _, _, .returned hp hsize hframe hbody => by
      have hrun := ExecutesAll.eq hbody
      simp only [execStatement_call, hp, if_neg (Nat.not_lt.mpr hsize), hframe, hrun]
  | _, _, _, .failed hp hsize hframe hbody => by
      have hrun := ExecutesAll.eq hbody
      simp only [execStatement_call, hp, if_neg (Nat.not_lt.mpr hsize), hframe, hrun]

theorem ExecutesAll.eq : ∀ {body : List Statement} {m : Machine} {r : Ending Unit},
    a.ExecutesAll limit body m r → a.execStatements limit body m = r
  | _, _, _, .nil _ => rfl
  | _, _, _, .next hs hrest => by
      have hrun := Executes.eq hs
      have hrun' := ExecutesAll.eq hrest
      rw [execStatements_cons, hrun]
      exact hrun'
  | _, _, _, .stop hs => by rw [execStatements_cons, Executes.eq hs]

end

/-! ### What is computed has a derivation -/

mutual

/-- Statements have derivations if calls have, on stacks of their size. -/
theorem executes_of_calls {size : Nat}
    (hcall : ∀ (c : Call) (m : Machine), m.stack.size = size →
      a.Executes limit (.call c) m (a.execStatement limit (.call c) m)) :
    ∀ (s : Statement) (m : Machine), m.stack.size = size →
      a.Executes limit s m (a.execStatement limit s m)
  | .compound body, m, hm => .compound (executesAll_of_calls hcall body m hm)
  | .assign target value, m, _ => .assign target value m
  | .call c, m, hm => hcall c m hm
  | .write newline args position, m, _ => .write newline args position m
  | .empty, m, _ => .empty m

theorem executesAll_of_calls {size : Nat}
    (hcall : ∀ (c : Call) (m : Machine), m.stack.size = size →
      a.Executes limit (.call c) m (a.execStatement limit (.call c) m)) :
    ∀ (body : List Statement) (m : Machine), m.stack.size = size →
      a.ExecutesAll limit body m (a.execStatements limit body m)
  | [], m, _ => .nil m
  | s :: rest, m, hm => by
      have hs := executes_of_calls hcall s m hm
      have hshape := a.execStatement_keepsShape limit s m
      rw [execStatements_cons]
      cases hrun : a.execStatement limit s m with
      | error e m' =>
          rw [hrun] at hs
          exact .stop hs
      | ok u m' =>
          rw [hrun] at hs hshape
          exact .next hs (executesAll_of_calls hcall rest m'
            ((CallStack.size_eq_of_shape hshape).trans hm))

end

theorem executes_call (c : Call) (m : Machine) :
    a.Executes limit (.call c) m (a.execStatement limit (.call c) m) := by
  -- The body runs on a stack with one frame more, which is nearer to the limit.
  induction hroom : limit + 1 - m.stack.size generalizing c m with
  | zero =>
      rw [execStatement_call]
      cases hp : a.callee c with
      | error e => exact .stray hp
      | ok p =>
          have hsize : limit < m.stack.size := by omega
          simp only [if_pos hsize]
          exact .tooDeep hp hsize
  | succ room ih =>
      rw [execStatement_call]
      cases hp : a.callee c with
      | error e => exact .stray hp
      | ok p =>
          have hsize : m.stack.size ≤ limit := by omega
          simp only [if_neg (Nat.not_lt.mpr hsize)]
          cases hframe : a.calleeFrame p c m.stack with
          | error e => exact .refused hp hsize hframe
          | ok frame =>
              have hentered := size_entered m p frame
              have hbody : a.ExecutesAll limit p.block.body (m.entered p frame)
                  (a.execStatements limit p.block.body (m.entered p frame)) :=
                executesAll_of_calls (fun c' m' hm' => ih c' m' (by omega))
                  p.block.body _ hentered
              dsimp only
              cases hrun : a.execStatements limit p.block.body (m.entered p frame) with
              | error e m' =>
                  rw [hrun] at hbody
                  exact .failed hp hsize hframe hbody
              | ok u m' =>
                  rw [hrun] at hbody
                  exact .returned hp hsize hframe hbody

theorem executes_iff {s : Statement} {m : Machine} {r : Ending Unit} :
    a.Executes limit s m r ↔ a.execStatement limit s m = r := by
  constructor
  · exact Executes.eq
  · rintro rfl
    exact executes_of_calls (fun c m _ => executes_call c m) s m rfl

theorem executesAll_iff {body : List Statement} {m : Machine} {r : Ending Unit} :
    a.ExecutesAll limit body m r ↔ a.execStatements limit body m = r := by
  constructor
  · exact ExecutesAll.eq
  · rintro rfl
    exact executesAll_of_calls (fun c m _ => executes_call c m) body m rfl

/-- The frame of the program is still there when its body has ended. -/
theorem exists_top? {program : Program} {m m' : Machine} {u : Unit}
    (h : a.execStatements limit program.block.body (m.started program) = .ok u m') :
    ∃ frame, m'.stack.top? = some frame := by
  have hshape := a.execStatements_keepsShape limit program.block.body (m.started program)
  rw [h] at hshape
  have hsize : m'.stack.size = (m.started program).stack.size :=
    CallStack.size_eq_of_shape hshape
  rw [size_started] at hsize
  cases htop : m'.stack.top? with
  | some frame => exact ⟨frame, rfl⟩
  | none =>
      have hzero : m'.stack.size = 0 := by simpa [CallStack.top?, CallStack.size] using htop
      omega

theorem interpret_eq_execStatements (program : Program) (m : Machine) :
    a.interpret limit program m =
      match a.execStatements limit program.block.body (m.started program) with
      | .error e m' => .error e (m'.dumpStack "LEAVE" program.name).pop
      | .ok _ m' =>
          .ok (m'.stack.top?.getD (Machine.programFrame program))
            (m'.dumpStack "LEAVE" program.name).pop := by
  rw [execStatements, size_started, Nat.add_sub_add_right]
  exact a.interpret_eq limit m program

theorem interprets_iff {program : Program} {m : Machine} {r : Ending Frame} :
    a.Interprets limit program m r ↔ a.interpret limit program m = r := by
  rw [interpret_eq_execStatements]
  constructor
  · rintro (⟨hbody, htop⟩ | hbody)
    · rw [executesAll_iff.mp hbody]
      simp only [htop, Option.getD_some]
    · rw [executesAll_iff.mp hbody]
  · rintro rfl
    cases hrun : a.execStatements limit program.block.body (m.started program) with
    | error e m' => exact .failed (executesAll_iff.mpr hrun)
    | ok u m' =>
        obtain ⟨frame, htop⟩ := exists_top? hrun
        simp only [htop, Option.getD_some]
        exact .ended (executesAll_iff.mpr hrun) htop

end Analysis

/-- **Runs are total and stacks well linked, whatever the analysis.** For any analysis, which
need not be that of the program, any limit and any number of programs and statements that are
run on one machine: running a statement or a program ends, by a finite derivation, in the
result that is computed. In every state on the way each link leads to a frame further down
whose level is one less, only the frame of a program has no link, and there are at most as many
frames as the limit and one more. So a search for a level always ends: on an empty stack it
finds nothing, and otherwise it finds a live frame of the level for the levels from one up to
that of the top frame, and nothing for others. -/
theorem machine_is_total_and_well_linked (a : Analysis) (limit : Nat) :
    (∀ s m r, a.Executes limit s m r ↔ a.execStatement limit s m = r) ∧
    (∀ program m r, a.Interprets limit program m r ↔ a.interpret limit program m = r) ∧
    ∀ todo m, a.Visits limit todo m →
      (∀ i f, m.stack.get? i = some f →
        (∀ j, f.link = some j → j < i ∧ ∃ g, m.stack.get? j = some g ∧ f.level = g.level + 1) ∧
        (f.link = none → f.kind = .program ∧ f.level = 1)) ∧
      m.stack.size ≤ limit + 1 ∧
      (m.stack.size = 0 → ∀ level, m.stack.findLevel level = .absent) ∧
      ∀ f, m.stack.top? = some f → ∀ level,
        (1 ≤ level → level ≤ f.level →
          ∃ i g, m.stack.findLevel level = .found i ∧ m.stack.get? i = some g ∧
          g.level = level) ∧
        (level < 1 ∨ f.level < level → m.stack.findLevel level = .absent) := by
  refine ⟨fun s m r => Analysis.executes_iff, fun program m r => Analysis.interprets_iff, ?_⟩
  intro todo m hm
  obtain ⟨hlinked, hsize⟩ := hm.linked
  refine ⟨fun i f hf => ⟨fun j hj => hlinked.link hf hj, hlinked.unlinked hf⟩, hsize,
    CallStack.findLevel_of_size_eq_zero, ?_⟩
  intro f htop level
  have hanswer := hlinked.findLevel htop level
  cases hfound : m.stack.findLevel level with
  | found i =>
      rw [hfound] at hanswer
      obtain ⟨hone, hle, g, hg, hlevel⟩ := hanswer
      exact ⟨fun _ _ => ⟨i, g, rfl, hg, hlevel⟩, by omega⟩
  | absent =>
      rw [hfound] at hanswer
      have hout : level < 1 ∨ f.level < level := hanswer
      exact ⟨by omega, fun _ => rfl⟩
  | broken =>
      rw [hfound] at hanswer
      exact hanswer.elim

/-- A call of `P` that is filed as a call of `Q`, which calls itself for ever. -/
def strayCall : Call := ⟨"P", [], 0, .start⟩

def strayProcedure : ProcedureSymbol := ⟨"Q", [], .mk [] [] [.call strayCall], 1⟩

def strayAnalysis : Analysis where
  scopes := {}
  calls := Std.TreeMap.insert {} 0 strayProcedure
  vars := {}

theorem strayCall_linked :
    ∃ m, strayAnalysis.Visits 1 [.call strayCall] m ∧ m.stack.size = 2 ∧
      (∃ i g, m.stack.findLevel 1 = .found i ∧ m.stack.get? i = some g ∧ g.level = 1) ∧
      strayAnalysis.Executes 1 (.call strayCall) m
        (.error (.callDepthExceeded "Q" 1 .start) m) := by
  let program : Program := ⟨"P", .mk [] [] [.call strayCall], .start⟩
  let m : Machine := { journal := { traces := [], dumps := [] } }
  let frame : Frame := { name := "Q", kind := .procedure, level := 2, link := some 0 }
  have hstart : strayAnalysis.Visits 1 [.call strayCall] (m.started program) :=
    .program program (.new _ _)
  have hvisits : strayAnalysis.Visits 1 [.call strayCall]
      ((m.started program).entered strayProcedure frame) :=
    hstart.enter rfl (by decide) rfl
  obtain ⟨hexecutes, -, hstates⟩ := machine_is_total_and_well_linked strayAnalysis 1
  obtain ⟨-, -, -, hlevels⟩ := hstates _ _ hvisits
  have hfound := (hlevels frame rfl 1).1 (by decide) (by decide)
  exact ⟨_, hvisits, rfl, hfound, (hexecutes _ _ _).mpr rfl⟩

end MiniPascal

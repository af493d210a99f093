import MiniPascal.Proofs.Machine.Congruence

/-!
The shape of a call stack is all of it but the members of its frames. Whatever the analysis
says, statements leave the shape as it was, whether they end well or fail: an assignment
changes members only, and a call takes its frame off again.
-/

namespace MiniPascal

/-- The frame without its members. -/
def Frame.bare (f : Frame) : Frame := { f with members := {} }

theorem Frame.eq_of_bare {f g : Frame} (h : f.bare = g.bare) :
    f.name = g.name ∧ f.kind = g.kind ∧ f.level = g.level ∧ f.link = g.link := by
  simpa [Frame.bare] using h

namespace CallStack

def shape (s : CallStack) : List Frame := s.frames.toList.map Frame.bare

@[simp]
theorem length_shape (s : CallStack) : s.shape.length = s.size := by
  simp [shape, size]

@[simp]
theorem shape_push (s : CallStack) (f : Frame) : (s.push f).shape = s.shape ++ [f.bare] := by
  simp [shape, push]

@[simp]
theorem shape_pop (s : CallStack) : s.pop.shape = s.shape.dropLast := by
  simp [shape, pop, List.map_dropLast]

@[simp]
theorem shape_assign (s : CallStack) (index : Nat) (name : String) (v : Value) :
    (s.assign index name v).shape = s.shape := by
  have hbare : Frame.bare ∘ (·.set name v) = Frame.bare := rfl
  apply List.ext_getElem?
  intro i
  simp only [shape, assign, List.getElem?_map, Array.getElem?_toList, Array.getElem?_modify]
  split
  · rw [Option.map_map, hbare]
  · rfl

theorem size_eq_of_shape {s t : CallStack} (h : s.shape = t.shape) : s.size = t.size := by
  rw [← length_shape, h, length_shape]

theorem getElem?_shape (s : CallStack) (i : Nat) :
    s.shape[i]? = (s.get? i).map Frame.bare := by
  simp [shape, get?]

/-- A frame of one stack, seen in another of the same shape. -/
theorem exists_of_shape {s t : CallStack} (h : s.shape = t.shape) {i : Nat} {f : Frame}
    (hf : s.get? i = some f) : ∃ g, t.get? i = some g ∧ g.bare = f.bare := by
  have hi : (t.get? i).map Frame.bare = some f.bare := by
    rw [← getElem?_shape, ← h, getElem?_shape, hf, Option.map_some]
  exact Option.map_eq_some_iff.mp hi

end CallStack

namespace Action

/-- However the action ends, the stack has the shape that it had. -/
def KeepsShape {α : Type} (x : Action α) : Prop :=
  ∀ m, (Ending.machine (x m)).stack.shape = m.stack.shape

section

variable {α β : Type} {x : Action α}

theorem KeepsShape.bind {f : α → Action β} (hx : x.KeepsShape) (hf : ∀ r, (f r).KeepsShape) :
    (x >>= f).KeepsShape := by
  intro m
  have hm := hx m
  cases h : x m with
  | ok r m' =>
      rw [h] at hm
      rw [bind_of_ok h]
      exact (hf r m').trans hm
  | error e m' =>
      rw [h] at hm
      rw [bind_of_error h]
      exact hm

theorem KeepsShape.ofStack (g : CallStack → Except RuntimeError α) :
    (ofStack g).KeepsShape := by
  intro m
  cases h : g m.stack with
  | ok r => rw [ofStack_of_ok h]; rfl
  | error e => rw [ofStack_of_error h]; rfl

theorem KeepsShape.afterwards (hx : x.KeepsShape) (message : Unit → String) :
    (x.afterwards (·.trace message)).KeepsShape := by
  intro m
  have hm := hx m
  cases h : x m with
  | ok r m' => rw [h] at hm; rw [afterwards_of_ok h]; exact hm
  | error e m' => rw [h] at hm; rw [afterwards_of_error h]; exact hm

/-- The frame is on top when the body ends, and is taken off. -/
theorem KeepsShape.inFrame {body : Action Unit} (hbody : body.KeepsShape) (frame : Frame) :
    (inFrame frame body).KeepsShape := by
  intro m
  have hm : (Ending.machine (body ((m.push frame).dumpStack "ENTER" frame.name))).stack.shape =
      m.stack.shape ++ [frame.bare] := (hbody _).trans (CallStack.shape_push _ _)
  have hpop : ∀ m' : Machine, m'.stack.shape = m.stack.shape ++ [frame.bare] →
      (m'.dumpStack "LEAVE" frame.name).pop.stack.shape = m.stack.shape := by
    intro m' hm'
    show m'.stack.pop.shape = m.stack.shape
    rw [CallStack.shape_pop, hm', List.dropLast_concat]
  cases h : body ((m.push frame).dumpStack "ENTER" frame.name) with
  | ok u m' => rw [h] at hm; rw [inFrame_of_ok h]; exact hpop m' hm
  | error e m' => rw [h] at hm; rw [inFrame_of_error h]; exact hpop m' hm

theorem KeepsShape.write (text : String) : (write text).KeepsShape := by
  intro m
  rw [Action.write]
  split <;> rfl

end

/-- All that a run is made of keeps the shape. -/
theorem keepsShape_congruence : Congruence fun x _ => x.KeepsShape where
  pure _ _ := rfl
  throw _ _ := rfl
  bind hx hf := hx.bind hf
  note _ _ := rfl
  ofStack := .ofStack
  store index name v m := CallStack.shape_assign m.stack index name v
  write := .write
  inFrame frame hbody := hbody.inFrame frame
  afterwards message hx := hx.afterwards message
  sized hf m := hf m.stack.size m

end Action

namespace Analysis

open MiniPascal.Action

variable (a : Analysis)

theorem exec_keepsShape {call : Call → Action Unit} (hcall : ∀ c, (call c).KeepsShape)
    (s : Statement) : (a.exec call s).KeepsShape :=
  @Congruence.exec _ keepsShape_congruence a call call hcall s

theorem execAll_keepsShape {call : Call → Action Unit} (hcall : ∀ c, (call c).KeepsShape)
    (body : List Statement) : (a.execAll call body).KeepsShape :=
  @Congruence.execAll _ keepsShape_congruence a call call hcall body

theorem call_keepsShape (limit room : Nat) (c : Call) : (a.call limit room c).KeepsShape :=
  keepsShape_congruence.call a limit room c

theorem execStatement_keepsShape (limit : Nat) (s : Statement) :
    (a.execStatement limit s).KeepsShape :=
  fun m => a.exec_keepsShape (a.call_keepsShape limit _) s m

theorem interpret_keepsShape (limit : Nat) (program : Program) :
    (a.interpret limit program).KeepsShape :=
  keepsShape_congruence.interpret a limit program

/-- When the body of a program has ended, there is a frame to be taken off. -/
theorem exists_top?_of_body {limit room : Nat} {program : Program} {m m' : Machine} {u : Unit}
    (h : a.execAll (a.call limit room) program.block.body (m.started program) = .ok u m') :
    ∃ frame, m'.stack.top? = some frame := by
  have hshape := a.execAll_keepsShape (a.call_keepsShape limit room) program.block.body
    (m.started program)
  rw [h, Ending.machine_ok, Machine.stack_started] at hshape
  apply CallStack.exists_top?
  rw [CallStack.size_eq_of_shape hshape, CallStack.size_push]
  exact Nat.succ_pos _

/-- A program is never left without its frame, so a run fails only if the body does. -/
theorem interpret_eq (limit : Nat) (m : Machine) (program : Program) :
    a.interpret limit program m =
      match a.execAll (a.call limit (limit - m.stack.size)) program.block.body
          (m.started program) with
      | .error e m' => .error e (m'.dumpStack "LEAVE" program.name).pop
      | .ok _ m' =>
          .ok (m'.stack.top?.getD (Machine.programFrame program))
            (m'.dumpStack "LEAVE" program.name).pop := by
  rw [interpret_eq_top?]
  cases hbody : a.execAll (a.call limit (limit - m.stack.size)) program.block.body
      (m.started program) with
  | error e m' => rfl
  | ok u m' =>
      obtain ⟨frame, hframe⟩ := a.exists_top?_of_body hbody
      dsimp only
      rw [hframe]
      rfl

end Analysis

end MiniPascal

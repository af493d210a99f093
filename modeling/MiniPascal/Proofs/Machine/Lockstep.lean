import MiniPascal.Proofs.Machine.Congruence

/-!
Two runs of the same statements, side by side. As long as their stacks agree, they evaluate the
same expressions to the same values and look for the same frames; so all that can set them
apart is what they write to. A relation between machines that notes and writes keep is kept by
whole runs, up to the write that the second output has no room for; from there on the first run
goes on alone.
-/

namespace MiniPascal

namespace Ending

/-- What comes of a part of a run, without the machine. -/
def result {α : Type} : Ending α → Except RuntimeError α
  | .ok r _ => .ok r
  | .error e _ => .error e

/-- How two runs of the same action end: alike, or the second one in a full output. -/
inductive Alike {α : Type} (R : Machine → Machine → Prop) (Full : Output → Output → Prop) :
    Ending α → Ending α → Prop
  | ok (r : α) {m m' : Machine} : R m m' → Alike R Full (.ok r m) (.ok r m')
  | error (e : RuntimeError) {m m' : Machine} : R m m' →
      Alike R Full (.error e m) (.error e m')
  | full {r : Ending α} {m' : Machine} : Full r.machine.output m'.output →
      Alike R Full r (.error (.output Output.fullMessage) m')

end Ending

/-- For runs of which none can end in an output that is full for it alone. -/
def Output.NeverFull (_ _ : Output) : Prop := False

namespace Ending.Alike

variable {α : Type} {R : Machine → Machine → Prop} {r r' : Ending α}

theorem machine (h : Alike R Output.NeverFull r r') : R r.machine r'.machine := by
  cases h with
  | ok _ h => exact h
  | error _ h => exact h
  | full h => exact h.elim

theorem result_eq (h : Alike R Output.NeverFull r r') : r.result = r'.result := by
  cases h with
  | ok _ _ => rfl
  | error _ _ => rfl
  | full h => exact h.elim

end Ending.Alike

/-- The action does not tell related machines apart, and adds to the output only. -/
structure Action.Keeps {α : Type} (R : Machine → Machine → Prop)
    (Full : Output → Output → Prop)
    (x : Action α) : Prop where
  grows : x.Grows
  alike ⦃m m' : Machine⦄ : R m m' → Ending.Alike R Full (x m) (x m')

/-- If the second output is full, it stays so, whatever is added to the first. -/
def Output.Lasting (Full : Output → Output → Prop) : Prop :=
  ∀ ⦃o more o' : Output⦄, Full o o' → o.Extends more → Full more o'

theorem Output.neverFull_lasting : Lasting NeverFull := fun _ _ _ h _ => h

/-- A relation between two machines that nothing but writing can end, and writing only by
filling the second output. -/
structure Lockstep (R : Machine → Machine → Prop) (Full : Output → Output → Prop) : Prop where
  stack {m m' : Machine} : R m m' → m.stack = m'.stack
  restack {m m' : Machine} (s : CallStack) : R m m' →
    R { m with stack := s } { m' with stack := s }
  trace {m m' : Machine} (message : Unit → String) :
    R m m' → R (m.trace message) (m'.trace message)
  dumpStack {m m' : Machine} (event name : String) :
    R m m' → R (m.dumpStack event name) (m'.dumpStack event name)
  write {m m' : Machine} (text : String) :
    R m m' → Ending.Alike R Full (Action.write text m) (Action.write text m')
  lasting : Output.Lasting Full

/-- A change to the stack that depends on the stack alone. -/
theorem Lockstep.mapStack {R : Machine → Machine → Prop} {Full : Output → Output → Prop}
    (hR : Lockstep R Full) (f : CallStack → CallStack) {m m' : Machine} (h : R m m') :
    R { m with stack := f m.stack } { m' with stack := f m'.stack } := by
  rw [← hR.stack h]
  exact hR.restack _ h

namespace Action

variable {α β : Type} {R : Machine → Machine → Prop} {Full : Output → Output → Prop}
    {x : Action α}

theorem Keeps.pure (r : α) : (pure r : Action α).Keeps R Full :=
  ⟨grows_congruence.pure r, fun _ _ h => .ok r h⟩

theorem Keeps.bind (hfull : Output.Lasting Full) {f : α → Action β} (hx : x.Keeps R Full)
    (hf : ∀ r, (f r).Keeps R Full) : (x >>= f).Keeps R Full := by
  refine ⟨hx.grows.bind fun r => (hf r).grows, fun m m' h => ?_⟩
  have hend := hx.alike h
  generalize hm : x m = end₁ at hend
  generalize hm' : x m' = end₂ at hend
  cases hend with
  | ok r h₁ =>
      rw [bind_of_ok hm, bind_of_ok hm']
      exact (hf r).alike h₁
  | error e h₁ =>
      rw [bind_of_error hm, bind_of_error hm']
      exact .error e h₁
  | full h₁ =>
      rw [bind_of_error hm']
      -- The first run goes on, and what it adds changes nothing about the second.
      cases end₁ with
      | error e m₁ => exact (bind_of_error hm).symm ▸ .full h₁
      | ok r m₁ => exact (bind_of_ok hm).symm ▸ .full (hfull h₁ ((hf r).grows m₁))

theorem Keeps.ofStack (hR : Lockstep R Full) (g : CallStack → Except RuntimeError α) :
    (ofStack g).Keeps R Full := by
  refine ⟨ofStack_grows g, fun m m' h => ?_⟩
  have hstack := hR.stack h
  cases hg : g m.stack with
  | ok r =>
      rw [ofStack_of_ok hg, ofStack_of_ok (hstack ▸ hg)]
      exact .ok r h
  | error e =>
      rw [ofStack_of_error hg, ofStack_of_error (hstack ▸ hg)]
      exact .error e h

theorem Keeps.afterwards (hR : Lockstep R Full) (hx : x.Keeps R Full)
    (message : Unit → String) :
    (x.afterwards (·.trace message)).Keeps R Full := by
  refine ⟨hx.grows.afterwards message, fun m m' h => ?_⟩
  have hend := hx.alike h
  generalize hm : x m = end₁ at hend
  generalize hm' : x m' = end₂ at hend
  cases hend with
  | ok r h₁ =>
      rw [afterwards_of_ok hm, afterwards_of_ok hm']
      exact .ok r (hR.trace message h₁)
  | error e h₁ =>
      rw [afterwards_of_error hm, afterwards_of_error hm']
      exact .error e (hR.trace message h₁)
  | full h₁ =>
      rw [afterwards_of_error hm']
      cases end₁ with
      | error e m₁ => exact (afterwards_of_error hm _).symm ▸ .full h₁
      | ok r m₁ => exact (afterwards_of_ok hm _).symm ▸ .full h₁

theorem Keeps.inFrame (hR : Lockstep R Full) {body : Action Unit} (hbody : body.Keeps R Full)
    (frame : Frame) : (inFrame frame body).Keeps R Full := by
  refine ⟨hbody.grows.inFrame frame, fun m m' h => ?_⟩
  have hleft {m m' : Machine} (h : R m m') :
      R (m.dumpStack "LEAVE" frame.name).pop (m'.dumpStack "LEAVE" frame.name).pop :=
    hR.mapStack CallStack.pop (hR.dumpStack "LEAVE" frame.name h)
  have hend := hbody.alike (hR.dumpStack "ENTER" frame.name (hR.mapStack (·.push frame) h))
  generalize hm : body _ = end₁ at hend
  generalize hm' : body _ = end₂ at hend
  cases hend with
  | ok r h₁ =>
      rw [inFrame_of_ok hm, inFrame_of_ok hm', hR.stack h₁]
      exact .ok _ (hleft h₁)
  | error e h₁ =>
      rw [inFrame_of_error hm, inFrame_of_error hm']
      exact .error e (hleft h₁)
  | full h₁ =>
      rw [inFrame_of_error hm']
      cases end₁ with
      | error e m₁ => exact (inFrame_of_error hm).symm ▸ .full h₁
      | ok u m₁ => exact (inFrame_of_ok hm).symm ▸ .full h₁

/-- The number of frames is the same on both sides. -/
theorem Keeps.sized (hR : Lockstep R Full) {f : Nat → Action α}
    (hf : ∀ n, (f n).Keeps R Full) :
    Action.Keeps R Full fun m => f m.stack.size m := by
  refine ⟨fun m => (hf m.stack.size).grows m, fun m m' h => ?_⟩
  show Ending.Alike R Full (f m.stack.size m) (f m'.stack.size m')
  rw [hR.stack h]
  exact (hf _).alike h

/-- Nothing that a run is made of tells related machines apart. -/
theorem keeps_congruence (hR : Lockstep R Full) : Congruence fun x _ => x.Keeps R Full where
  pure := .pure
  throw e := ⟨grows_congruence.throw e, fun _ _ h => .error e h⟩
  bind hx hf := hx.bind hR.lasting hf
  note message := ⟨grows_congruence.note message, fun _ _ h => .ok () (hR.trace message h)⟩
  ofStack := .ofStack hR
  store i name v := ⟨grows_congruence.store i name v, fun _ _ h =>
    .ok () (hR.mapStack (·.assign i name v) h)⟩
  write text := ⟨write_grows text, fun _ _ h => hR.write text h⟩
  inFrame frame hbody := hbody.inFrame hR frame
  afterwards message hx := hx.afterwards hR message
  sized := .sized hR

end Action

/-- Whole runs keep the relation. -/
theorem Analysis.interpret_keeps (a : Analysis) {R : Machine → Machine → Prop}
    {Full : Output → Output → Prop} (hR : Lockstep R Full) (limit : Nat) (program : Program) :
    (a.interpret limit program).Keeps R Full :=
  (Action.keeps_congruence hR).interpret a limit program

/-! ### Outputs that have the same room -/

namespace Output

/-- Since two runs started from `o` and `o'`, they have written the same; and both have the
same room left. -/
structure Abreast (o o' now now' : Output) : Prop where
  room : now.room = now'.room
  written : ∃ out, now.written = o.written ++ out ∧ now'.written = o'.written ++ out

variable {o o' now now' : Output}

theorem Abreast.start (h : o.room = o'.room) : Abreast o o' o o' :=
  ⟨h, .empty, ByteArray.append_empty.symm, ByteArray.append_empty.symm⟩

/-- A text fits into both or into none. -/
theorem Abreast.write (h : Abreast o o' now now') (text : String) :
    (now.write text).1 = (now'.write text).1 ∧
      Abreast o o' (now.write text).2 (now'.write text).2 := by
  obtain ⟨hroom, out, hout, hout'⟩ := h
  have happend : ∀ bytes, ∃ out₁, now.written ++ bytes = o.written ++ out₁ ∧
      now'.written ++ bytes = o'.written ++ out₁ := fun bytes =>
    ⟨out ++ bytes, by rw [hout, ByteArray.append_assoc], by rw [hout', ByteArray.append_assoc]⟩
  rw [Output.write, Output.write, ← hroom]
  cases now.room with
  | none => exact ⟨rfl, rfl, happend _⟩
  | some k =>
      dsimp only
      split
      · exact ⟨rfl, rfl, happend _⟩
      · exact ⟨rfl, rfl, happend _⟩

end Output

/-- Writing the same text to both. -/
theorem Action.write_alike {R : Machine → Machine → Prop} {Full : Output → Output → Prop}
    {o o' : Output} (text : String) {m m' : Machine}
    (h : Output.Abreast o o' m.output m'.output)
    (hR : ∀ now now', Output.Abreast o o' now now' →
      R { m with output := now } { m' with output := now' }) :
    Ending.Alike R Full (Action.write text m) (Action.write text m') := by
  obtain ⟨hsame, hafter⟩ := h.write text
  rw [Action.write, Action.write]
  generalize m.output.write text = end₁ at hsame hafter ⊢
  generalize m'.output.write text = end₂ at hsame hafter ⊢
  obtain ⟨complete, now⟩ := end₁
  obtain ⟨complete', now'⟩ := end₂
  cases hsame
  cases complete with
  | true => exact .ok () (hR now now' hafter)
  | false => exact .error _ (hR now now' hafter)

end MiniPascal

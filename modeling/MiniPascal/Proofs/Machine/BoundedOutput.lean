import MiniPascal.Proofs.Machine.Lockstep
import MiniPascal.Run

/-!
Runs whose output is bounded. A run with room for `k` bytes does what the run without a bound
does, as long as all that is written fits; the first write that does not fit stores what it can
and ends the run, so that nothing is written after it. Since the other run only ever adds to
its output, what is stored in the end are the first `k` bytes of the other output.
-/

namespace MiniPascal

namespace Output

/-- All that has been written to the first output, which has no bound, has fitted into the
second, which takes `k` bytes. -/
structure Fits (k : Nat) (o o' : Output) : Prop where
  unbounded : o.room = none
  written : o'.written = o.written
  size : o.written.size ≤ k
  room : o'.room = some (k - o.written.size)

/-- More than `k` bytes have been written to the first output, and the second has the first of
them. -/
structure Overflows (k : Nat) (o o' : Output) : Prop where
  size : k < o.written.size
  written : o'.written = o.written.extract 0 k

variable {k : Nat} {o o' o'' : Output}

theorem Overflows.extends (h : Overflows k o o') (hmore : o.Extends o'') :
    Overflows k o'' o' := by
  obtain ⟨more, hmore⟩ := hmore
  constructor
  · rw [hmore, ByteArray.size_append]
    exact Nat.lt_add_right more.size h.size
  · have hnone : k - o.written.size = 0 := Nat.sub_eq_zero_of_le (Nat.le_of_lt h.size)
    rw [hmore, ByteArray.extract_append, hnone, Nat.zero_sub, h.written]
    simp

theorem Fits.extract (h : Fits k o o') : o.written.extract 0 k = o.written := by
  rw [ByteArray.ext_iff, ByteArray.data_extract]
  exact Array.extract_eq_self_of_le h.size

/-- A text that still fits goes into both; one that does not fills the second. -/
theorem Fits.write (h : Fits k o o') (text : String) :
    ∃ now now', o.write text = (true, now) ∧
      (o'.write text = (true, now') ∧ Fits k now now' ∨
        o'.write text = (false, now') ∧ Overflows k now now') := by
  have hsize := h.size
  refine ⟨{ o with written := o.written ++ text.toUTF8 }, (o'.write text).2,
    by rw [Output.write, h.unbounded], ?_⟩
  rw [Output.write, h.room]
  dsimp only
  split
  next hfits =>
    refine .inl ⟨rfl, h.unbounded, by rw [h.written], ?_, ?_⟩
    · rw [ByteArray.size_append]
      omega
    · rw [ByteArray.size_append, Nat.sub_sub]
  next hfull =>
    refine .inr ⟨rfl, ?_, ?_⟩
    · rw [ByteArray.size_append]
      omega
    · rw [ByteArray.extract_append, h.extract, h.written, Nat.zero_sub]

end Output

/-! ### Runs -/

/-- Two machines with the same stack, where all that has been written fits. -/
structure Machine.Fits (k : Nat) (m m' : Machine) : Prop where
  stack : m.stack = m'.stack
  output : Output.Fits k m.output m'.output

theorem lockstep_bounded (k : Nat) : Lockstep (Machine.Fits k) (Output.Overflows k) where
  stack h := h.stack
  restack _ h := ⟨rfl, h.output⟩
  trace _ h := ⟨h.stack, h.output⟩
  dumpStack _ _ h := ⟨h.stack, h.output⟩
  lasting _ _ _ h hmore := h.extends hmore
  write {m m'} text h := by
    obtain ⟨now, now', hwrite, ⟨hwrite', hnow⟩ | ⟨hwrite', hnow⟩⟩ := h.output.write text
    · rw [Action.write, Action.write, hwrite, hwrite']
      exact .ok () ⟨h.stack, hnow⟩
    · rw [Action.write, Action.write, hwrite, hwrite']
      exact .full hnow

/-- Either all that is written fits, or the run ends because its output is full. -/
theorem run_bounded (settings : Settings) (text : String) (j : Journal) (k : Nat) :
    let r := run settings text {} j
    let bounded := run settings text { room := some k } j
    bounded.result = r.result ∧ Output.Fits k r.output bounded.output ∨
      bounded.result = .error (.runtime (.output Output.fullMessage)) ∧
        Output.Overflows k r.output bounded.output := by
  have hstart : Output.Fits k {} { room := some k } := ⟨rfl, rfl, Nat.zero_le k, rfl⟩
  rw [run, run]
  rcases prepare settings text j with ⟨result | ⟨program, a⟩, J⟩
  · exact .inl ⟨rfl, hstart⟩
  have hmachines : Machine.Fits k { journal := J }
      { output := { room := some k }, journal := J } :=
    ⟨rfl, hstart⟩
  have hend :=
    (a.interpret_keeps (lockstep_bounded k) settings.maxDepth program).alike hmachines
  dsimp only
  generalize a.interpret settings.maxDepth program { journal := J } = r at hend
  generalize a.interpret settings.maxDepth program { output := _, journal := J } = r' at hend
  cases hend with
  | ok frame h => exact .inl ⟨rfl, h.output⟩
  | error e h => exact .inl ⟨rfl, h.output⟩
  | full h => cases r <;> exact .inr ⟨rfl, h⟩

/-- **A bounded output holds the beginning of the output.** Run any text once with an output
that takes everything and once with one that takes `k` bytes. The second holds the first `k`
bytes of the first. If there are no more than `k`, then both runs come to the same result; and
if there are more, then the second fails because its output is full, whatever the first comes
to. -/
theorem bounded_output_holds_the_beginning (settings : Settings) (text : String) (j : Journal)
    (k : Nat) :
    let r := run settings text {} j
    let bounded := run settings text { room := some k } j
    bounded.output.written = r.output.written.extract 0 k ∧
      (r.output.written.size ≤ k → bounded.result = r.result) ∧
      (k < r.output.written.size →
        bounded.result = .error (.runtime (.output Output.fullMessage))) := by
  obtain ⟨hresult, hfits⟩ | ⟨hresult, hover⟩ := run_bounded settings text j k
  · exact ⟨hfits.written.trans hfits.extract.symm, fun _ => hresult,
      fun hlt => absurd hfits.size (Nat.not_le.mpr hlt)⟩
  · exact ⟨hover.written, fun hle => absurd hover.size (Nat.not_lt.mpr hle), fun _ => hresult⟩

/-- Five bytes fit into five, and of five bytes two fit into two. -/
theorem bounded_output_five :
    let text := "PROGRAM P; BEGIN WRITE(123); WRITELN(4) END."
    let written (k : Nat) := run {} text { room := some k } (.ofSettings {})
    (written 5).result = (run {} text {} (.ofSettings {})).result ∧
      (written 2).output.written.toList = "12".toUTF8.toList ∧
      (written 2).result = .error (.runtime (.output Output.fullMessage)) := by
  intro text written
  have hsize : (run {} text {} (.ofSettings {})).output.written.size = 5 := by decide +kernel
  have hbytes : ((run {} text {} (.ofSettings {})).output.written.extract 0 2).toList =
      "12".toUTF8.toList := by decide +kernel
  have hfive := bounded_output_holds_the_beginning {} text (.ofSettings {}) 5
  have htwo := bounded_output_holds_the_beginning {} text (.ofSettings {}) 2
  exact ⟨hfive.2.1 (Nat.le_of_eq hsize), htwo.1 ▸ hbytes, htwo.2.2 (by rw [hsize]; decide)⟩

end MiniPascal

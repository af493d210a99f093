import MiniPascal.Proofs.Grammar.Congruence
import MiniPascal.Run

/-!
How far a text gets before its program is started. It stops where the settings say or at the
first stage that fails, and has written nothing then; or it has been read and analyzed without
errors, and what remains of the run is what the interpreter makes of the program.
-/

namespace MiniPascal

variable {settings : Settings} {text : String} {output : Output} {j J : Journal}

/-- The limit on the depth of calls does not matter yet. -/
theorem prepare_congr {s s' : Settings} (hstage : s.stage = s'.stage)
    (hnesting : s.maxNesting = s'.maxNesting) (text : String) (j : Journal) :
    prepare s text j = prepare s' text j := by
  simp only [prepare, parse, parseProgram_congr hnesting, hstage]

/-- A program is started if it is read and analyzed and the settings ask for no less. -/
theorem prepare_eq_ready_iff {program : Program} {a : Analysis} :
    prepare settings text j = (.ready program a, J) ↔
      settings.stage = .interpret ∧
        ∃ j₁, parse settings text j = (.ok program, j₁) ∧ analyze program j₁ = (.ok a, J) := by
  constructor
  · intro h
    rw [prepare] at h
    split at h
    · cases h
    next program₁ j₁ hparse =>
      split at h
      · cases h
      next hparsed =>
        split at h
        · cases h
        next a₁ j₂ hanalyze =>
          split at h
          · cases h
          next hanalyzed =>
            cases h
            refine ⟨?_, j₁, hparse, hanalyze⟩
            cases hstage : settings.stage with
            | parse => exact absurd hstage hparsed
            | analyze => exact absurd hstage hanalyzed
            | interpret => rfl
  · rintro ⟨hstage, j₁, hparse, hanalyze⟩
    rw [prepare, hparse]
    simp only [hstage, reduceCtorEq, if_false, hanalyze]

/-- A run that stops early has no variables to show, and its error is that of a stage. -/
theorem of_prepare_eq_stopped {result : Except Error Outcome}
    (h : prepare settings text j = (.stopped result, J)) :
    (∀ outcome, result = .ok outcome → outcome.globals = none) ∧
      ∀ e, result = .error e → (parse settings text j).1 = .error e ∨
        ∃ program j₁, (parse settings text j).1 = .ok program ∧
        (analyze program j₁).1 = .error e := by
  rw [prepare] at h
  split at h
  next e j₁ hparse =>
    cases h
    refine ⟨fun _ ho => (by cases ho), fun e' he => ?_⟩
    cases he
    exact .inl (congrArg Prod.fst hparse)
  next program j₁ hparse =>
    split at h
    · cases h
      exact ⟨fun _ ho => by cases ho; rfl, fun _ he => by cases he⟩
    split at h
    next e j₂ hanalyze =>
      cases h
      refine ⟨fun _ ho => (by cases ho), fun e' he => ?_⟩
      cases he
      exact .inr ⟨program, j₁, congrArg Prod.fst hparse, congrArg Prod.fst hanalyze⟩
    next a j₂ hanalyze =>
      split at h
      · cases h
        exact ⟨fun _ ho => by cases ho; rfl, fun _ he => by cases he⟩
      · cases h

theorem run_of_stopped {result : Except Error Outcome}
    (h : prepare settings text j = (.stopped result, J)) (output : Output) :
    run settings text output j = ⟨result, output, J⟩ := by
  rw [run, h]

theorem run_of_ready {program : Program} {a : Analysis}
    (h : prepare settings text j = (.ready program a, J)) (output : Output) :
    run settings text output j =
      .ofEnding program a (a.interpret settings.maxDepth program
        { output, journal := J }) := by
  rw [run, h]

/-- Only a program that has ended has variables to show. -/
theorem exists_of_globals {outcome : Outcome} {globals : Frame}
    (h : (run settings text output j).result = .ok outcome)
    (hglobals : outcome.globals = some globals) :
    ∃ program a J m, prepare settings text j = (.ready program a, J) ∧
      a.interpret settings.maxDepth program { output, journal := J } = .ok globals m := by
  rcases hprepare : prepare settings text j with ⟨result | ⟨program, a⟩, J⟩
  · rw [run_of_stopped hprepare] at h
    rw [(of_prepare_eq_stopped hprepare).1 outcome h] at hglobals
    cases hglobals
  · rw [run_of_ready hprepare] at h
    refine ⟨program, a, J, ?_⟩
    cases hrun : a.interpret settings.maxDepth program { output, journal := J } with
    | error e m =>
        rw [hrun] at h
        cases h
    | ok frame m =>
        rw [hrun] at h
        cases h
        cases hglobals
        exact ⟨m, rfl, rfl⟩

/-- A run fails at the first stage that does. -/
theorem run_eq_error {err : Error} (h : (run settings text output j).result = .error err) :
    (parse settings text j).1 = .error err ∨
      ∃ program j₁, (parse settings text j).1 = .ok program ∧
        ((analyze program j₁).1 = .error err ∨
          ∃ a m e m', (analyze program j₁).1 = .ok a ∧
            a.interpret settings.maxDepth program m = .error e m' ∧ err = .runtime e) := by
  rcases hprepare : prepare settings text j with ⟨result | ⟨program, a⟩, J⟩
  · rw [run_of_stopped hprepare] at h
    rcases (of_prepare_eq_stopped hprepare).2 err h
        with hparse | ⟨program, j₁, hparse, hanalyze⟩
    · exact .inl hparse
    · exact .inr ⟨program, j₁, hparse, .inl hanalyze⟩
  · obtain ⟨-, j₁, hparse, hanalyze⟩ := prepare_eq_ready_iff.mp hprepare
    rw [run_of_ready hprepare] at h
    refine .inr ⟨program, j₁, congrArg Prod.fst hparse, .inr ⟨a, { output, journal := J }, ?_⟩⟩
    cases hrun : a.interpret settings.maxDepth program { output, journal := J } with
    | ok frame m =>
        rw [hrun] at h
        cases h
    | error e m =>
        rw [hrun] at h
        exact ⟨e, m, congrArg Prod.fst hanalyze, rfl, (Except.error.inj h).symm⟩

end MiniPascal

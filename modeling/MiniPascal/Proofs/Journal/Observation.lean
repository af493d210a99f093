import MiniPascal.Proofs.Journal.Heedless
import MiniPascal.Proofs.Preparation

/-!
What a run reports about itself changes nothing of what it does. Every run is laid beside the
run that reports everything: both come to the same result and write the same, and the journal
of the first is what is left of the journal of the second when the topics that are switched off
are crossed out. So the messages of a trace are there in full or not at all, and which dumps
are reported is for the dumps alone to say.
-/

namespace MiniPascal

/-! ### Stages -/

section

variable {R : Journal → Journal → Prop} {j j' : Journal}

theorem tokenize_heedless (hR : Journal.Parallel R) (h : R j j') (text : String) :
    ∃ r J J', R J J' ∧ tokenize text j = (r, J) ∧ tokenize text j' = (r, J') := by
  obtain ⟨J, J', hJ, hread, hread'⟩ :=
    readTokens_heedless hR (hR (.dump .text) (fun _ => text) h) text
  rw [tokenize, tokenize, Journal.dump, Journal.dump, hread, hread']
  cases tokens text with
  | ok ts => exact ⟨_, J, J', hJ, rfl, rfl⟩
  | error e => exact ⟨_, J, J', hJ, rfl, rfl⟩

theorem Parser.ofTokens_journal (tokens : List Token) (settings : Settings) (j j' : Journal) :
    Parser.ofTokens tokens settings j' =
      { Parser.ofTokens tokens settings j with journal := j' } := by
  cases tokens <;> rfl

theorem parseProgram_heedless (hR : Journal.Parallel R) (h : R j j') (tokens : List Token)
    (settings : Settings) :
    ∃ r J J', R J J' ∧ parseProgram tokens settings j = (r, J) ∧
      parseProgram tokens settings j' = (r, J') := by
  have hjournal : (Parser.ofTokens tokens settings j).journal = j := by
    cases tokens <;> rfl
  have hend := (Rule.heedless_congruence hR).wholeProgram (.refl (fun _ _ h => .error _ h)
    settings.maxNesting) (hjournal.symm ▸ h)
  rw [parseProgram, parseProgram, Parser.ofTokens_journal tokens settings j j']
  generalize Rule.wholeProgram settings.maxNesting (.ofTokens tokens settings j) = r at hend
  generalize Rule.wholeProgram settings.maxNesting _ = r' at hend
  cases hend with
  | ok program hq => exact ⟨_, _, _, hq, rfl, rfl⟩
  | error e hq => exact ⟨_, _, _, hq, rfl, rfl⟩

/-- From the same tokens on, whatever text they are of. -/
theorem parse_of_tokenize (hR : Journal.Parallel R) {J J' : Journal} (hJ : R J J')
    (settings : Settings) {text text' : String} {r : Except Error (List Token)}
    (htokenize : tokenize text j = (r, J))
    (htokenize' : tokenize text' j' = (r, J')) :
    ∃ r J J', R J J' ∧ parse settings text j = (r, J) ∧ parse settings text' j' = (r, J') := by
  rw [parse, parse, htokenize, htokenize']
  cases r with
  | error e => exact ⟨_, J, J', hJ, rfl, rfl⟩
  | ok tokens =>
      obtain ⟨r, J₁, J₁', hJ₁, hparse, hparse'⟩ := parseProgram_heedless hR hJ tokens settings
      dsimp only
      rw [hparse, hparse']
      cases r with
      | error e => exact ⟨_, J₁, J₁', hJ₁, rfl, rfl⟩
      | ok program =>
          exact ⟨_, _, _, hR (.dump .tree) (fun _ => program.outline) hJ₁, rfl, rfl⟩

theorem parse_heedless (hR : Journal.Parallel R) (h : R j j') (settings : Settings)
    (text : String) :
    ∃ r J J', R J J' ∧ parse settings text j = (r, J) ∧ parse settings text j' = (r, J') := by
  obtain ⟨r, J, J', hJ, htokenize, htokenize'⟩ := tokenize_heedless hR h text
  exact parse_of_tokenize hR hJ settings htokenize htokenize'

theorem analyze_heedless (hR : Journal.Parallel R) (h : R j j') (program : Program) :
    ∃ r J J', R J J' ∧ analyze program j = (r, J) ∧ analyze program j' = (r, J') := by
  have hbeside : Walk.Beside R ((Walk.start j).visitProgram program)
      ((Walk.start j').visitProgram program) :=
      Walk.visitProgram_heedless hR program ⟨j', h, rfl⟩
  obtain ⟨J', hJ', hwalk⟩ := hbeside
  rw [analyze, analyze, analyzeProgram, analyzeProgram, hwalk]
  generalize (Walk.start j).visitProgram program = w at hJ'
  by_cases hempty : w.errors.isEmpty
  · simp only [if_pos hempty]
    exact ⟨_, _, J', hJ', rfl, rfl⟩
  · simp only [if_neg hempty]
    exact ⟨_, _, J', hJ', rfl, rfl⟩

/-- From the same tree on. -/
theorem prepare_of_parse (hR : Journal.Parallel R) {J J' : Journal} (hJ : R J J')
    {settings : Settings} {text text' : String} {r : Except Error Program}
    (hparse : parse settings text j = (r, J)) (hparse' : parse settings text' j' = (r, J')) :
    ∃ r J J', R J J' ∧ prepare settings text j = (r, J) ∧
    prepare settings text' j' = (r, J') := by
  rw [prepare, prepare, hparse, hparse']
  cases r with
  | error e => exact ⟨_, _, _, hJ, rfl, rfl⟩
  | ok program =>
      obtain ⟨r, J₁, J₁', hJ₁, hanalyze, hanalyze'⟩ := analyze_heedless hR hJ program
      dsimp only
      rw [hanalyze, hanalyze']
      split
      · exact ⟨_, _, _, hJ, rfl, rfl⟩
      cases r with
      | error e => exact ⟨_, _, _, hJ₁, rfl, rfl⟩
      | ok a =>
          dsimp only
          split
          · exact ⟨_, _, _, hJ₁, rfl, rfl⟩
          · exact ⟨_, _, _, hJ₁, rfl, rfl⟩

theorem run_of_parse (hR : Journal.Parallel R) {J J' : Journal} (hJ : R J J')
    {settings : Settings} {text text' : String} {r : Except Error Program} (output : Output)
    (hparse : parse settings text j = (r, J)) (hparse' : parse settings text' j' = (r, J')) :
    (run settings text output j).result = (run settings text' output j').result ∧
      (run settings text output j).output = (run settings text' output j').output ∧
      R (run settings text output j).journal (run settings text' output j').journal := by
  obtain ⟨r, J₁, J₁', hJ₁, hprepare, hprepare'⟩ := prepare_of_parse hR hJ hparse hparse'
  rw [run, run, hprepare, hprepare']
  cases r with
  | stopped result => exact ⟨rfl, rfl, hJ₁⟩
  | ready program a =>
      have hmachines : Machine.Heedless R { output, journal := J₁ }
          { output, journal := J₁' } :=
        ⟨rfl, rfl, hJ₁⟩
      have hend :=
        (a.interpret_keeps (lockstep_heedless hR) settings.maxDepth program).alike hmachines
      dsimp only
      generalize a.interpret settings.maxDepth program { output, journal := J₁ } = r at hend
      generalize a.interpret settings.maxDepth program { output, journal := J₁' } = r' at hend
      cases hend with
      | ok _ hm | error _ hm => exact ⟨rfl, hm.output, hm.journal⟩
      | full h => exact h.elim

theorem run_heedless (hR : Journal.Parallel R) (h : R j j') (settings : Settings)
    (text : String) (output : Output) :
    (run settings text output j).result = (run settings text output j').result ∧
      (run settings text output j).output = (run settings text output j').output ∧
      R (run settings text output j).journal (run settings text output j').journal := by
  obtain ⟨r, J, J', hJ, hparse, hparse'⟩ := parse_heedless hR h settings text
  exact run_of_parse hR hJ output hparse hparse'

end

/-! ### Journals -/

namespace Journal

/-- The journal of a run with the settings `s` has those entries of the other one that it
wants, and the other one wants all. -/
structure Selects (s : Settings) (j full : Journal) : Prop where
  traces : j.traces = s.traces
  dumps : j.dumps = s.dumps
  all (topic : Topic) : full.wants topic = true
  entries : j.entries.toList = full.entries.toList.filter fun e => j.wants e.topic

theorem selects_parallel (s : Settings) : Parallel (Selects s) := by
  intro j full topic message h
  refine ⟨(j.traces_note topic message).trans h.traces,
    (j.dumps_note topic message).trans h.dumps, fun topic' => by rw [wants_note, h.all], ?_⟩
  have hwants : (fun e : Entry => (j.note topic message).wants e.topic) =
      fun e => j.wants e.topic :=
    funext fun e => wants_note j topic e.topic message
  rw [entries_note, entries_note, h.all topic, hwants, h.entries, if_pos rfl,
    List.filter_append]
  congr 1
  cases hj : j.wants topic <;> simp [hj]

/-- A journal that wants everything, with nothing in it yet. -/
def complete : Journal := { traces := Trace.all, dumps := Dump.all }

theorem selects_complete (s : Settings) : Selects s (ofSettings s) complete where
  traces := rfl
  dumps := rfl
  all topic := by
    cases topic with
    | trace t => cases t <;> rfl
    | dump d => cases d <;> rfl
  entries := rfl

/-- The entries that are reported under a name. -/
def reported (j : Journal) (target : String) : List Entry :=
  j.entries.toList.filter fun e => e.topic.target = target

theorem Selects.reported_eq {s : Settings} {j full : Journal} (h : Selects s j full)
    (target : String) :
    j.reported target =
      full.entries.toList.filter fun e => e.topic.target = target ∧ j.wants e.topic := by
  rw [reported, h.entries, List.filter_filter]
  simp only [Bool.decide_and, Bool.decide_eq_true]

end Journal

theorem Trace.target_injective {t t' : Trace} (h : t.target = t'.target) : t = t' := by
  revert h
  cases t <;> cases t' <;> decide

theorem Trace.target_ne (t : Trace) : t.target ≠ Dump.target := by
  cases t <;> decide

theorem Topic.eq_trace {topic : Topic} {t : Trace} (h : topic.target = t.target) :
    topic = .trace t := by
  cases topic with
  | trace t' => rw [Trace.target_injective h]
  | dump d => exact absurd h.symm t.target_ne

theorem Topic.eq_dump {topic : Topic} (h : topic.target = Dump.target) :
    ∃ d, topic = .dump d := by
  cases topic with
  | trace t => exact absurd h t.target_ne
  | dump d => exact ⟨d, rfl⟩

/-- Of a trace there is all or nothing. -/
theorem Journal.Selects.reported_trace {s : Settings} {j full : Journal} (h : Selects s j full)
    (t : Trace) : j.reported t.target = if t ∈ s.traces then full.reported t.target
      else [] := by
  rw [h.reported_eq]
  split
  next ht =>
    apply List.filter_congr
    intro e _
    rw [decide_eq_decide]
    refine ⟨And.left, fun he => ⟨he, ?_⟩⟩
    rw [Topic.eq_trace he]
    exact decide_eq_true (h.traces.symm ▸ ht)
  next ht =>
    apply List.filter_eq_nil_iff.mpr
    intro e _ he
    obtain ⟨he, hwanted⟩ := of_decide_eq_true he
    rw [Topic.eq_trace he] at hwanted
    exact ht (h.traces ▸ of_decide_eq_true hwanted)

/-- The dumps that are switched on decide what is dumped. -/
theorem Journal.Selects.reported_dump {s s' : Settings} {j j' full : Journal}
    (h : Selects s j full) (h' : Selects s' j' full)
    (hdumps : ∀ d, d ∈ s.dumps ↔ d ∈ s'.dumps) :
    j.reported Dump.target = j'.reported Dump.target := by
  rw [h.reported_eq, h'.reported_eq]
  apply List.filter_congr
  intro e _
  rw [decide_eq_decide]
  apply and_congr_right
  intro he
  obtain ⟨d, hd⟩ := Topic.eq_dump he
  rw [hd, Journal.wants, Journal.wants, decide_eq_true_iff, decide_eq_true_iff,
    h.dumps, h'.dumps]
  exact hdumps d

/-! ### Runs -/

/-- What is computed depends on the stage and on the limits alone. -/
theorem run_congr {s s' : Settings} (hstage : s.stage = s'.stage)
    (hdepth : s.maxDepth = s'.maxDepth) (hnesting : s.maxNesting = s'.maxNesting)
    (text : String) (output : Output) (j : Journal) :
    run s text output j = run s' text output j := by
  rw [run, run, prepare_congr hstage hnesting, hdepth]

/-- A run beside the one that reports everything. -/
theorem run_selects {s s' : Settings} (hstage : s.stage = s'.stage)
    (hdepth : s.maxDepth = s'.maxDepth) (hnesting : s.maxNesting = s'.maxNesting)
    (text : String) (output : Output) :
    (run s text output (.ofSettings s)).result = (run s' text output .complete).result ∧
      (run s text output (.ofSettings s)).output = (run s' text output .complete).output ∧
      Journal.Selects s (run s text output (.ofSettings s)).journal
        (run s' text output .complete).journal := by
  rw [← run_congr hstage hdepth hnesting]
  exact run_heedless (Journal.selects_parallel s) (Journal.selects_complete s) s text output

/-- **What is reported changes nothing.** Take any text, and two settings that differ at most
in the traces and dumps that are switched on. The two runs come to the same result, whether
they succeed or fail at whatever stage, and write the same. A trace that is switched on in both
has the same messages in the same order in both, whatever else is switched on, and a trace that
is switched off has none; and if the same dumps are switched on, the same is dumped. -/
theorem reporting_changes_nothing (s s' : Settings) (hstage : s.stage = s'.stage)
    (hdepth : s.maxDepth = s'.maxDepth) (hnesting : s.maxNesting = s'.maxNesting)
    (text : String) (output : Output) :
    let r := run s text output (.ofSettings s)
    let r' := run s' text output (.ofSettings s')
    r.result = r'.result ∧ r.output = r'.output ∧
      (∀ t, t ∈ s.traces → t ∈ s'.traces →
        r.journal.reported t.target = r'.journal.reported t.target) ∧
      (∀ t, t ∉ s.traces → r.journal.reported t.target = []) ∧
      ((∀ d, d ∈ s.dumps ↔ d ∈ s'.dumps) →
        r.journal.reported Dump.target = r'.journal.reported Dump.target) := by
  intro r r'
  obtain ⟨hresult, houtput, hjournal⟩ := run_selects hstage hdepth hnesting text output
  obtain ⟨hresult', houtput', hjournal'⟩ := run_selects (s := s') rfl rfl rfl text output
  refine ⟨hresult.trans hresult'.symm, houtput.trans houtput'.symm, ?_, ?_, ?_⟩
  · intro t ht ht'
    rw [hjournal.reported_trace, hjournal'.reported_trace, if_pos ht, if_pos ht']
  · intro t ht
    rw [hjournal.reported_trace, if_neg ht]
  · exact hjournal.reported_dump hjournal'

/-- A call is traced by four messages, whatever else is switched on. -/
theorem reporting_a_call :
    let text :=
      "PROGRAM P; VAR X : INTEGER; PROCEDURE Q(A : INTEGER); BEGIN X := A END; BEGIN Q(9) END."
    let s : Settings := { traces := [.parser, .interpreter], dumps := [.stack] }
    let s' : Settings := { traces := [.interpreter, .token], dumps := [.stack, .stack] }
    let r := run s text {} (.ofSettings s)
    let r' := run s' text {} (.ofSettings s')
    r.result = r'.result ∧ (r.journal.reported Trace.interpreter.target).length = 4 ∧
      (r'.journal.reported Trace.interpreter.target).length = 4 ∧
      r.journal.reported Trace.token.target = [] ∧
      r.journal.reported Dump.target = r'.journal.reported Dump.target := by
  intro text s s' r r'
  obtain ⟨hresult, -, htrace, hnone, hdump⟩ :=
    reporting_changes_nothing s s' rfl rfl rfl text {}
  have hfour : (r.journal.reported Trace.interpreter.target).length = 4 := by decide +kernel
  exact ⟨hresult, hfour, htrace .interpreter (by decide) (by decide) ▸ hfour,
    hnone .token (by decide), hdump fun d => by cases d <;> decide⟩

end MiniPascal

import MiniPascal.Token.Stream

/-!
The identifiers of a text are the words that are not reserved.
-/

namespace MiniPascal

namespace Token

/-- An identifier, if it is one, is spelled as a word that is not reserved. -/
def Unreserved (t : Token) : Prop :=
  t.kind = .identifier → ∃ spelling, t.spelling? = some spelling ∧ Kind.ofWord? spelling = none

theorem Kind.ofWord?_ne_identifier (word : String) : ofWord? word ≠ some .identifier := by
  unfold ofWord?
  split <;> simp

theorem Kind.ofChar?_ne_identifier (c : Char) : ofChar? c ≠ some .identifier := by
  unfold ofChar?
  split <;> simp

theorem unreserved_of_kind_ne {t : Token} (h : t.kind ≠ .identifier) : t.Unreserved :=
  fun ht => absurd ht h

end Token

namespace Cursor

theorem word_unreserved (p : Position) (cs : List Char) : (word p cs).1.Unreserved := by
  intro hkind
  refine ⟨_, rfl, ?_⟩
  cases hword : Token.Kind.ofWord? (String.ofList (Text.upper (cs.takeWhile isWordChar))) with
  | none => rfl
  | some kind =>
      have hidentifier : kind = .identifier := by simpa [word, hword] using hkind
      exact absurd (hidentifier ▸ hword) (Token.Kind.ofWord?_ne_identifier _)

theorem number_kind_ne {p : Position} {cs : List Char} {t : Token}
    (h : (number p cs).1 = .ok t) :
    t.kind ≠ .identifier := by
  simp only [number] at h
  split at h
  · simp only [realToken] at h
    split at h <;> cases h
    simp
  · simp only [integerToken] at h
    split at h <;> cases h
    simp

theorem quoted_kind_ne {p : Position} {cs : List Char} {t : Token}
    (h : (quoted p cs).1 = .ok t) :
    t.kind ≠ .identifier := by
  simp only [quoted] at h
  split at h <;> cases h
  simp

theorem lexeme_unreserved {c : Cursor} {t : Token} (h : c.lexeme.1 = .ok t) :
    t.Unreserved := by
  obtain ⟨cs, p⟩ := c
  cases cs with
  | nil =>
      cases h
      exact Token.unreserved_of_kind_ne (by simp)
  | cons ch cs =>
      simp only [lexeme] at h
      split at h
      · cases h
        exact word_unreserved p (ch :: cs)
      · refine Token.unreserved_of_kind_ne ?_
        split at h
        · exact number_kind_ne h
        · split at h
          · exact quoted_kind_ne h
          · split at h
            · cases h
              simp
            · split at h
              next kind hkind =>
                cases h
                rintro rfl
                exact Token.Kind.ofChar?_ne_identifier ch hkind
              next => cases h

theorem scan_unreserved {c : Cursor} {t : Token} (h : c.scan.1 = .ok t) : t.Unreserved := by
  unfold scan at h
  split at h
  · exact lexeme_unreserved h
  · cases h

theorem steps_unreserved {c : Cursor} {s : Step} {t : Token} (hs : s ∈ c.steps)
    (ht : s.result = .ok t) : t.Unreserved := by
  fun_induction steps c with
  | case1 c e rest h =>
      obtain rfl := List.mem_singleton.mp hs
      cases ht
  | case2 c u rest h hu =>
      obtain rfl := List.mem_singleton.mp hs
      cases ht
      exact scan_unreserved (congrArg Prod.fst h)
  | case3 c u rest h hu _ ih =>
      rcases List.mem_cons.mp hs with rfl | hs
      · cases ht
        exact scan_unreserved (congrArg Prod.fst h)
      · exact ih hs

end Cursor

theorem exists_step_of_mem {steps : List Step} {tokens : List Token} {t : Token}
    (h : steps.mapM Step.result = .ok tokens) (ht : t ∈ tokens) :
    ∃ s ∈ steps, s.result = .ok t := by
  induction steps generalizing tokens with
  | nil =>
      cases h
      cases ht
  | cons s steps ih =>
      rw [List.mapM_cons] at h
      cases hs : s.result with
      | error e =>
          rw [hs] at h
          cases h
      | ok u =>
          cases hsteps : steps.mapM Step.result with
          | error e =>
              rw [hs, hsteps] at h
              cases h
          | ok us =>
              rw [hs, hsteps] at h
              cases h
              rcases List.mem_cons.mp ht with rfl | ht
              · exact ⟨s, List.mem_cons_self, hs⟩
              · obtain ⟨s', hs', hresult⟩ := ih hsteps ht
                exact ⟨s', List.mem_cons_of_mem s hs', hresult⟩

/-- No identifier of a text is a reserved word. -/
theorem readTokens_unreserved {text : String} {j : Journal} {tokens : List Token} {t : Token}
    (h : (readTokens text j).1 = .ok tokens) (ht : t ∈ tokens) : t.Unreserved := by
  obtain ⟨s, hs, hresult⟩ := exists_step_of_mem h ht
  exact Cursor.steps_unreserved hs hresult

end MiniPascal

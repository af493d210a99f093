import MiniPascal.Proofs.Token.Segmentation
import MiniPascal.Run

/-!
Reading a text is cutting it into pieces. A text is read if the pieces come to its end; its
tokens are then those of the pieces, each at the position where its piece starts. Otherwise the
first thing that cannot be read is the error.
-/

namespace MiniPascal

namespace Cursor

/-- The tokens from the cursor on. -/
def results (c : Cursor) : Except LexicalError (List Token) := c.steps.mapM (·.result)

/-- The end of the text and an error come last. -/
theorem results_eq (c : Cursor) :
    c.results =
      match c.scan with
      | (.error e, _) => .error e
      | (.ok t, rest) =>
          if t.kind = .endOfText then .ok [t] else rest.results.map (t :: ·) := by
  rw [results, steps]
  split
  next e rest hscan =>
    rw [hscan]
    rfl
  next t rest hscan =>
    simp only [hscan]
    by_cases ht : t.kind = .endOfText
    · rw [dif_pos ht, if_pos ht]
      rfl
    · rw [dif_neg ht, if_neg ht, List.mapM_cons, results]
      cases rest.steps.mapM (·.result) <;> rfl

/-- Only what is read matters. -/
theorem results_congr {c c' : Cursor} (h : c.scan = c'.scan) : c.results = c'.results := by
  rw [results_eq, h, ← results_eq]

theorem results_of_ok {c c' : Cursor} {t : Token} (h : c.scan = (.ok t, c'))
    (ht : t.kind ≠ .endOfText) : c.results = c'.results.map (t :: ·) := by
  rw [results_eq, h]
  exact if_neg ht

theorem results_of_error {c : Cursor} {e : LexicalError} (h : c.scan.1 = .error e) :
    c.results = .error e := by
  have hscan : c.scan = (.error e, c.scan.2) := Prod.ext h rfl
  rw [results_eq, hscan]

theorem results_nil (p : Position) : results ⟨[], p⟩ = .ok [⟨.endOfText, none, p⟩] :=
  results_eq ⟨[], p⟩

end Cursor

/-! ### Texts in pieces -/

namespace Piece

theorem kind_ne_endOfText {q : Piece} {p : Position} {t : Token} (h : q.token? p = some t) :
    t.kind ≠ .endOfText := by
  cases q with
  | blank c hc => cases h
  | comment inside hinside => cases h
  | word first others hfirst hothers =>
      cases h
      show (Token.Kind.ofWord? _).getD .identifier ≠ .endOfText
      unfold Token.Kind.ofWord?
      split <;> simp
  | mark c kind hkind =>
      cases h
      rintro rfl
      unfold Token.Kind.ofChar? at hkind
      split at hkind <;> cases hkind
  | _ =>
      cases h
      simp

theorem position_of_token? {q : Piece} {p : Position} {t : Token} (h : q.token? p = some t) :
    t.position = p := by
  cases q with
  | blank c hc => cases h
  | comment inside hinside => cases h
  | _ =>
      cases h
      rfl

end Piece

theorem Segmented.results_eq {pieces : List Piece} {text rest : List Char}
    (h : Segmented pieces text rest) (before : List Char) :
    Cursor.results ⟨text, .behind before⟩ =
      (Cursor.results ⟨rest, .behind (before ++ pieces.flatMap Piece.chars)⟩).map
        (lexemes before pieces ++ ·) := by
  induction h generalizing before with
  | nil text =>
      simp only [lexemes, List.flatMap_nil, List.append_nil, List.nil_append]
      cases Cursor.results ⟨text, .behind before⟩ <;> rfl
  | @cons q pieces text rest hlongest hrange _ ih =>
      have hread := ih (before ++ q.chars)
      rw [List.append_assoc, ← List.flatMap_cons,
        Position.behind_append before q.chars] at hread
      cases htoken : q.token? (.behind before) with
      | none =>
          -- Nothing comes from a skipped piece, so reading from it and from
          -- behind it is the same.
          rw [Cursor.results_congr (Cursor.scan_skipped htoken text), hread]
          simp [lexemes, htoken]
      | some t =>
          have hscan := Cursor.scan_lexeme (Piece.ends_of_longestIn hlongest) hrange htoken
          rw [Cursor.results_of_ok hscan (Piece.kind_ne_endOfText htoken), hread]
          simp only [lexemes, htoken, Option.toList_some, List.singleton_append]
          cases Cursor.results
            ⟨rest, .behind (before ++ (q :: pieces).flatMap Piece.chars)⟩ <;> rfl

/-! ### Every text -/

/-- Numbers take the point with them if a digit follows it. -/
theorem Piece.exists_number {c : Char} (h : c.isDigit = true) (cs : List Char) :
    ∃ (q : Piece) (rest : List Char), c :: cs = q.chars ++ rest ∧ q.Ends rest := by
  by_cases hfraction : StartsFraction (cs.dropWhile Char.isDigit)
  · obtain ⟨d, rest, hrest, hd⟩ := hfraction
    refine ⟨.real (.run c h cs) (.run d hd rest), rest.dropWhile Char.isDigit, ?_, ?_⟩
    · rw [chars, List.append_assoc, List.cons_append, Digits.run_append, ← hrest,
        Digits.run_append]
    · exact stops_dropWhile Char.isDigit rest
  · refine ⟨.integer (.run c h cs), cs.dropWhile Char.isDigit, ?_, ?_⟩
    · exact (Digits.run_append c h cs).symm
    · exact ⟨stops_dropWhile Char.isDigit cs, hfraction⟩

/-- What is not the end of a text starts with a longest piece, or with something that is no
piece. -/
theorem Piece.exists_longest (c : Char) (cs : List Char) (p : Position) :
    (∃ (q : Piece) (rest : List Char), c :: cs = q.chars ++ rest ∧ q.Ends rest) ∨
      ∃ e, Unreadable p (c :: cs) e := by
  by_cases hblank : Text.isBlank c = true
  · exact .inl ⟨.blank c hblank, cs, rfl, trivial⟩
  by_cases hbrace : c = '\x7b'
  · subst hbrace
    by_cases hclosed : '\x7d' ∈ cs
    · obtain ⟨inside, rest, rfl, hinside⟩ := List.eq_append_cons_of_mem hclosed
      exact .inl ⟨.comment inside hinside, rest, by simp [chars], trivial⟩
    · exact .inr ⟨_, .comment hclosed⟩
  by_cases hletter : Text.isLetter c = true
  · refine .inl ⟨.word c (cs.takeWhile Cursor.isWordChar) hletter
      (fun d hd => List.mem_takeWhile_imp hd), cs.dropWhile Cursor.isWordChar, ?_, ?_⟩
    · rw [chars, List.cons_append, List.takeWhile_append_dropWhile]
    · exact stops_dropWhile Cursor.isWordChar cs
  by_cases hdigit : c.isDigit = true
  · exact .inl (exists_number hdigit cs)
  by_cases hquote : c = '\''
  · subst hquote
    by_cases hclosed : '\'' ∈ cs
    · obtain ⟨contents, rest, rfl, hcontents⟩ := List.eq_append_cons_of_mem hclosed
      exact .inl ⟨.quoted contents hcontents, rest, by simp [chars], trivial⟩
    · exact .inr ⟨_, .string hclosed⟩
  cases hkind : Token.Kind.ofChar? c with
  | some kind =>
      by_cases hassign : c = ':' ∧ cs.head? = some '='
      · obtain ⟨rfl, hhead⟩ := hassign
        obtain ⟨rest, rfl⟩ := List.head?_eq_some_iff.mp hhead
        exact .inl ⟨.assign, rest, rfl, trivial⟩
      · exact .inl ⟨.mark c kind hkind, cs, rfl, hassign⟩
  | none =>
      have hlead : Lead.ofChar? c = none := by
        simp [Lead.ofChar?, hblank, hbrace, hletter, hdigit, hquote, hkind]
      refine .inr ⟨_, .character fun q hq => ?_⟩
      obtain ⟨d, ds, hds, hd⟩ := q.exists_cons
      rw [hds, List.head?_cons, Option.some.injEq] at hq
      rw [← hq, hd] at hlead
      cases hlead

/-- The next piece of a text, unless there is nothing that can be read. -/
theorem Piece.exists_next (c : Char) (cs : List Char) (p : Position) :
    (∃ (q : Piece) (rest : List Char),
        c :: cs = q.chars ++ rest ∧ q.LongestIn (q.chars ++ rest) ∧ q.InRange) ∨
      ∃ e, Unreadable p (c :: cs) e := by
  rcases exists_longest c cs p with ⟨q, rest, hcut, hends⟩ | hunreadable
  · have hlongest := longestIn_of_ends hends
    by_cases hrange : q.InRange
    · exact .inl ⟨q, rest, hcut, hlongest, hrange⟩
    · rw [hcut]
      cases q with
      | integer digits => exact .inr ⟨_, .integer hlongest hrange⟩
      | real whole fraction => exact .inr ⟨_, .real hlongest hrange⟩
      | _ => exact absurd trivial hrange
  · exact .inr hunreadable

/-- Every text is in pieces up to its end or up to something that cannot be read. -/
theorem segmented_or_unreadable (before text : List Char) :
    (∃ pieces, Segmented pieces text []) ∨
      ∃ pieces rest e, Segmented pieces text rest ∧
        Unreadable (.behind (before ++ pieces.flatMap Piece.chars)) rest e := by
  -- On the length of the text: every piece has characters, so less is left after it.
  induction hlength : text.length using Nat.strongRecOn generalizing before text with
  | ind n ih =>
      cases text with
      | nil => exact .inl ⟨[], .nil []⟩
      | cons c cs =>
          rcases Piece.exists_next c cs (.behind before)
              with ⟨q, text, hcut, hlongest, hrange⟩ | ⟨e, he⟩
          · have hlt : text.length < n := by
              have hpos := List.length_pos_iff.mpr q.chars_ne_nil
              rw [hcut, List.length_append] at hlength
              omega
            rw [hcut]
            rcases ih text.length hlt (before ++ q.chars) text rfl with
              ⟨pieces, hpieces⟩ | ⟨pieces, rest, e, hpieces, he⟩
            · exact .inl ⟨q :: pieces, .cons hlongest hrange hpieces⟩
            · refine .inr ⟨q :: pieces, rest, e, .cons hlongest hrange hpieces, ?_⟩
              rwa [List.flatMap_cons, ← List.append_assoc]
          · refine .inr ⟨[], c :: cs, e, .nil _, ?_⟩
            rwa [List.flatMap_nil, List.append_nil]

/-! ### Positions -/

theorem exists_behind_of_mem {before : List Char} {pieces : List Piece} {t : Token}
    (h : t ∈ lexemes before pieces) : ∃ cs, t.position = .behind (before ++ cs) := by
  induction pieces generalizing before with
  | nil => cases h
  | cons q pieces ih =>
      rcases List.mem_append.mp h with hq | hpieces
      · refine ⟨[], ?_⟩
        rw [Piece.position_of_token? (Option.mem_toList.mp hq), List.append_nil]
      · obtain ⟨cs, hcs⟩ := ih hpieces
        exact ⟨q.chars ++ cs, by rw [hcs, List.append_assoc]⟩

/-- A piece has characters, so what comes after it comes later. -/
theorem Piece.before_behind (q : Piece) (before cs : List Char) :
    (Position.behind before).Before (.behind (before ++ q.chars ++ cs)) := by
  rw [List.append_assoc, Position.behind_append]
  apply Position.before_after
  intro hnil
  exact q.chars_ne_nil (List.append_eq_nil_iff.mp hnil).1

/-- The positions of a text's tokens increase up to its end. -/
theorem pairwise_before (before : List Char) (pieces : List Piece) :
    ((lexemes before pieces).map Token.position ++
      [Position.behind (before ++ pieces.flatMap Piece.chars)]).Pairwise Position.Before := by
  induction pieces generalizing before with
  | nil => exact List.pairwise_singleton _ _
  | cons q pieces ih =>
      have htail := ih (before ++ q.chars)
      rw [List.append_assoc, ← List.flatMap_cons] at htail
      rw [lexemes, List.map_append, List.append_assoc]
      refine List.pairwise_append.mpr ⟨?_, htail, ?_⟩
      · cases q.token? (.behind before) <;> simp
      · intro p hp p' hp'
        obtain ⟨t, ht, rfl⟩ := List.mem_map.mp hp
        rw [Piece.position_of_token? (Option.mem_toList.mp ht)]
        rcases List.mem_append.mp hp' with hp' | hp'
        · obtain ⟨t', ht', rfl⟩ := List.mem_map.mp hp'
          obtain ⟨cs, hcs⟩ := exists_behind_of_mem ht'
          rw [hcs]
          exact q.before_behind before cs
        · rw [List.mem_singleton.mp hp', List.flatMap_cons, ← List.append_assoc]
          exact q.before_behind before _

/-! ### The tokens of a text -/

theorem tokens_of_segmented {text : String} {pieces : List Piece}
    (h : Segmented pieces text.toList []) :
    tokens text = .ok (lexemes [] pieces ++ [⟨.endOfText, none, .behind text.toList⟩]) := by
  have htext : text.toList = pieces.flatMap Piece.chars := by simpa using h.eq_append
  have hread := h.results_eq []
  rw [List.nil_append, ← htext, Cursor.results_nil] at hread
  exact hread

theorem tokens_of_unreadable {text : String} {pieces : List Piece} {rest : List Char}
    {e : LexicalError} (h : Segmented pieces text.toList rest)
    (he : Unreadable (.behind (pieces.flatMap Piece.chars)) rest e) :
    tokens text = .error e := by
  have hread := h.results_eq []
  rw [List.nil_append, Cursor.results_of_error (Cursor.scan_unreadable he)] at hread
  exact hread

theorem tokens_eq_ok_iff {text : String} {ts : List Token} :
    tokens text = .ok ts ↔ ∃ pieces, Segmented pieces text.toList [] ∧
      ts = lexemes [] pieces ++ [⟨.endOfText, none, .behind text.toList⟩] := by
  constructor
  · intro h
    rcases segmented_or_unreadable [] text.toList
        with ⟨pieces, hpieces⟩ | ⟨pieces, rest, e, hpieces, he⟩
    · rw [tokens_of_segmented hpieces] at h
      exact ⟨pieces, hpieces, (Except.ok.inj h).symm⟩
    · rw [tokens_of_unreadable hpieces he] at h
      cases h
  · rintro ⟨pieces, hpieces, rfl⟩
    exact tokens_of_segmented hpieces

theorem tokens_eq_error_iff {text : String} {e : LexicalError} :
    tokens text = .error e ↔ ∃ pieces rest, Segmented pieces text.toList rest ∧
      Unreadable (.behind (pieces.flatMap Piece.chars)) rest e := by
  constructor
  · intro h
    rcases segmented_or_unreadable [] text.toList
        with ⟨pieces, hpieces⟩ | ⟨pieces, rest, e', hpieces, he⟩
    · rw [tokens_of_segmented hpieces] at h
      cases h
    · rw [tokens_of_unreadable hpieces he] at h
      cases h
      exact ⟨pieces, rest, hpieces, he⟩
  · rintro ⟨pieces, rest, hpieces, he⟩
    exact tokens_of_unreadable hpieces he

theorem tokenize_eq (text : String) (j : Journal) :
    (tokenize text j).1 = (tokens text).mapError Error.lexical := by
  rw [tokenize]
  split
  next ts j' hread =>
    have htokens : tokens text = .ok ts := congrArg Prod.fst hread
    rw [htokens]
    rfl
  next e j' hread =>
    have htokens : tokens text = .error e := congrArg Prod.fst hread
    rw [htokens]
    rfl

/-- Reading a text is exact segmentation. The tokens of a text are those of its pieces, in
order and at the positions that counting gives, and then the end of the text; their positions
increase. A text that is not in pieces to its end has the error of the first thing that cannot
be read. -/
theorem tokens_are_exact_segmentation (text : String) (j : Journal) :
    (∀ ts, (tokenize text j).1 = .ok ts ↔ ∃ pieces, Segmented pieces text.toList [] ∧
      ts = lexemes [] pieces ++ [⟨.endOfText, none, .behind text.toList⟩]) ∧
    (∀ ts, (tokenize text j).1 = .ok ts → (ts.map Token.position).Pairwise Position.Before) ∧
    (∀ err, (tokenize text j).1 = .error err ↔ ∃ pieces rest e,
      Segmented pieces text.toList rest ∧
        Unreadable (.behind (pieces.flatMap Piece.chars)) rest e ∧ err = .lexical e) := by
  rw [tokenize_eq]
  have hok : ∀ ts, (tokens text).mapError Error.lexical = .ok ts ↔ tokens text = .ok ts := by
    intro ts
    cases tokens text <;> simp [Except.mapError]
  refine ⟨fun ts => ?_, fun ts hts => ?_, fun err => ?_⟩
  · rw [hok, tokens_eq_ok_iff]
  · obtain ⟨pieces, hpieces, rfl⟩ := tokens_eq_ok_iff.mp ((hok ts).mp hts)
    have hpairwise := pairwise_before [] pieces
    have htext : text.toList = pieces.flatMap Piece.chars := by simpa using hpieces.eq_append
    rw [List.nil_append, ← htext] at hpairwise
    rw [List.map_append]
    exact hpairwise
  · constructor
    · intro herr
      cases htokens : tokens text with
      | ok ts =>
          rw [htokens] at herr
          cases herr
      | error e =>
          rw [htokens] at herr
          cases herr
          obtain ⟨pieces, rest, hpieces, he⟩ := tokens_eq_error_iff.mp htokens
          exact ⟨pieces, rest, e, hpieces, he, rfl⟩
    · rintro ⟨pieces, rest, e, hpieces, he, rfl⟩
      rw [tokens_of_unreadable hpieces he]
      rfl

/-- A comment and a string, both with a newline inside. -/
def windingPieces : List Piece :=
  [.word 'x' [] (by decide +kernel) (by simp), .comment ['\n'] (by decide), .assign,
    .quoted ['\n'] (by decide), .integer (.single '1' (by decide))]

def windingText : String := String.ofList (windingPieces.flatMap Piece.chars)

theorem windingText_tokens :
    Segmented windingPieces windingText.toList [] ∧
      ∃ ts, (tokenize windingText (.ofSettings {})).1 = .ok ts ∧
        ts.map Token.position = [⟨1, 1⟩, ⟨2, 2⟩, ⟨2, 4⟩, ⟨3, 2⟩, ⟨3, 3⟩] ∧
        (ts.map Token.position).Pairwise Position.Before := by
  have htext : windingText.toList = windingPieces.flatMap Piece.chars := String.toList_ofList
  have hbrace : Cursor.isWordChar '\x7b' = false := by decide +kernel
  have hsegmented : Segmented windingPieces windingText.toList [] := by
    rw [htext]
    refine .cons (Piece.longestIn_of_ends (stops_cons hbrace)) trivial ?_
    refine .cons (Piece.longestIn_of_ends trivial) trivial ?_
    refine .cons (Piece.longestIn_of_ends trivial) trivial ?_
    refine .cons (Piece.longestIn_of_ends trivial) trivial ?_
    refine .cons (Piece.longestIn_of_ends ⟨?_, ?_⟩)
      (by simp [Piece.InRange, decimal, Digits.single])
      (.nil [])
    · simp [Stops]
    · rintro ⟨d, rest, hrest, -⟩
      cases hrest
  obtain ⟨hok, hincrease, -⟩ := tokens_are_exact_segmentation windingText (.ofSettings {})
  have htokens := (hok _).mpr ⟨windingPieces, hsegmented, rfl⟩
  refine ⟨hsegmented, _, htokens, ?_, hincrease _ htokens⟩
  rw [htext]
  rfl

end MiniPascal

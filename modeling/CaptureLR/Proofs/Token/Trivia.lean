import CaptureLR.Proofs.Token.Reading

/-!
# White space and comments

What may stand between two tokens, told without the scanner that skips it: white space, line
comments up to a line break and block comments up to the first `///` behind their own. The scanner
finds how far it goes on, or that a block comment is not closed.
-/

namespace CaptureLR

/-- White space and comments before the rest of a text. A line comment goes on up to a line break
or the end, and a block comment to the first `///` behind its own. -/
inductive Trivia (rest : List Char) : List Char → Prop
  | nil : Trivia rest []
  | blank {c : Char} {cs : List Char} (hc : isBlank c = true) (h : Trivia rest cs) :
      Trivia rest (c :: cs)
  | line {body cs : List Char} (hfirst : body.head? ≠ some '/') (hbody : '\n' ∉ body)
      (hend : EndsRun (· ≠ '\n') (cs ++ rest)) (h : Trivia rest cs) :
      Trivia rest ('/' :: '/' :: (body ++ cs))
  | block {body cs : List Char} (hbody : ¬ ['/', '/', '/'] <:+: body ++ ['/', '/'])
      (h : Trivia rest cs) :
      Trivia rest ('/' :: '/' :: '/' :: (body ++ '/' :: '/' :: '/' :: cs))

/-- White space and comments that go on as far as there are any. -/
structure IsGap (gap rest : List Char) : Prop where
  trivia : Trivia rest gap
  notBlank : EndsRun isBlank rest
  notComment : ¬ ['/', '/'] <+: rest

theorem IsGap.nil :
  IsGap [] []
  := by
  refine ⟨.nil, ?_, ?_⟩
  · rintro _ ⟨⟩
  · rintro ⟨rest, hcomment⟩
    cases hcomment

/-- Before a character that begins neither white space nor a comment there is nothing to skip. -/
theorem IsGap.cons {c : Char} (hblank : isBlank c = false) (hslash : c ≠ '/') (cs : List Char) :
  IsGap [] (c :: cs)
  := by
  refine ⟨.nil, ?_, ?_⟩
  · rintro _ ⟨⟩
    exact hblank
  · rintro ⟨rest, hcomment⟩
    apply hslash (List.cons.inj hcomment).1.symm

/-- Behind white space and comments that go on as far as there are any, there are none. -/
theorem IsGap.triviaLength_eq {gap rest : List Char} (h : IsGap gap rest) :
  triviaLength rest = some 0
  := by
  have hblanks : (rest.takeWhile isBlank).length = 0 := by
    rw [h.notBlank.takeWhile_eq, List.length_nil]
  have hrest : rest.drop (rest.takeWhile isBlank).length = rest := by
    rw [hblanks, List.drop_zero]
  unfold triviaLength
  simp only
  split
  · next rest' hcomment => cases h.notComment ⟨'/' :: rest', hcomment.symm.trans hrest⟩
  · next rest' _ hcomment => cases h.notComment ⟨rest', hcomment.symm.trans hrest⟩
  · rw [hblanks]

theorem IsGap.skipTrivia_eq {gap : List Char} {c : Cursor} (h : IsGap gap c.rest) :
  skipTrivia c = .ok c
  := by
  simp only [skipTrivia, h.triviaLength_eq, Cursor.skip]

theorem Trivia.append_blanks {rest blanks cs : List Char} (hblanks : ∀ c ∈ blanks, isBlank c = true)
    (h : Trivia rest cs) :
  Trivia rest (blanks ++ cs)
  := by
  induction blanks with
  | nil => exact h
  | cons c blanks ih =>
      rw [List.forall_mem_cons] at hblanks
      exact .blank hblanks.1 (ih hblanks.2)

/-- A block comment is closed by the first `///` behind its own. -/
theorem exists_body_of_blockLength {cs : List Char} {n : Nat} (h : blockLength cs = some n) :
  ∃ body behind, cs = body ++ '/' :: '/' :: '/' :: behind ∧ n = body.length + 3
    ∧ ¬ ['/', '/', '/'] <:+: body ++ ['/', '/']
  := by
  induction cs using blockLength.induct generalizing n with
  | case1 behind =>
      rw [blockLength, Option.some.injEq] at h
      refine ⟨[], behind, rfl, h.symm, ?_⟩
      intro hwithin
      have hlength := hwithin.length_le
      simp at hlength
  | case2 c cs hnot ih =>
      rw [blockLength.eq_2 _ _ hnot] at h
      obtain ⟨n, hn, rfl⟩ := Option.map_eq_some_iff.mp h
      obtain ⟨body, behind, rfl, rfl, hbody⟩ := ih hn
      refine ⟨c :: body, behind, rfl, rfl, ?_⟩
      rw [List.cons_append, List.infix_cons_iff]
      rintro (hatonce | hwithin)
      · -- the comment would be closed at once
        have hwhole : ['/', '/', '/'] <+: c :: (body ++ '/' :: '/' :: '/' :: behind) :=
          hatonce.trans ⟨'/' :: behind, by simp⟩
        obtain ⟨behind', hbehind⟩ := hwhole
        obtain ⟨hc, hbehind⟩ := List.cons.inj hbehind.symm
        apply hnot behind' hc hbehind
      · apply hbody hwithin
  | case3 => cases h

/-- A block comment that is not closed has no `///` behind its own. -/
theorem not_infix_of_blockLength {cs : List Char} (h : blockLength cs = none) :
  ¬ ['/', '/', '/'] <:+: cs
  := by
  induction cs using blockLength.induct with
  | case1 => cases h
  | case2 c cs hnot ih =>
      rw [blockLength.eq_2 _ _ hnot, Option.map_eq_none_iff] at h
      rw [List.infix_cons_iff]
      rintro (⟨behind, hbehind⟩ | hwithin)
      · obtain ⟨hc, hbehind⟩ := List.cons.inj hbehind.symm
        apply hnot behind hc hbehind
      · apply ih h hwithin
  | case3 =>
      intro hwithin
      have hlength := hwithin.length_le
      simp at hlength

/-- The number of characters of white space and comments that a text begins with; none if a block
comment behind them is not closed. -/
inductive TriviaAhead : List Char → Option Nat → Prop
  | ends {gap rest : List Char} (hgap : IsGap gap rest) : TriviaAhead (gap ++ rest) (some gap.length)
  | openComment {gap body : List Char} (hgap : Trivia ('/' :: '/' :: '/' :: body) gap)
      (hbody : ¬ ['/', '/', '/'] <:+: body) :
      TriviaAhead (gap ++ '/' :: '/' :: '/' :: body) none

/-- White space and comments go on with those that are behind them. -/
theorem TriviaAhead.prepend {cs : List Char} {n : Option Nat} (h : TriviaAhead cs n)
    (first : List Char)
    (hfirst : ∀ gap rest, cs = gap ++ rest → Trivia rest gap → Trivia rest (first ++ gap)) :
  TriviaAhead (first ++ cs) (n.map (first.length + ·))
  := by
  cases h with
  | @ends gap rest hgap =>
      rw [← List.append_assoc, Option.map_some, ← List.length_append]
      exact .ends ⟨hfirst gap rest rfl hgap.trivia, hgap.notBlank, hgap.notComment⟩
  | @openComment gap body hgap hbody =>
      rw [← List.append_assoc]
      exact .openComment (hfirst gap _ rfl hgap) hbody

/-- White space and comments are told from what is behind them. -/
theorem triviaAhead (cs : List Char) :
  TriviaAhead cs (triviaLength cs)
  := by
  fun_induction triviaLength cs with
  | case1 cs blanks rest hrest hblock =>
      obtain ⟨run, rest', rfl, hrun, hblanks, -⟩ := exists_run isBlank cs
      have hlength : blanks = run.length := congrArg List.length hrun
      rw [hlength, List.drop_left] at hrest
      subst hrest
      have htrivia : Trivia ('/' :: '/' :: '/' :: rest) (run ++ []) := .append_blanks hblanks .nil
      rw [List.append_nil] at htrivia
      exact .openComment htrivia (not_infix_of_blockLength hblock)
  | case2 cs blanks rest hrest n hblock =>
      rename_i ih
      obtain ⟨run, rest', rfl, hrun, hblanks, -⟩ := exists_run isBlank cs
      have hlength : blanks = run.length := congrArg List.length hrun
      rw [hlength, List.drop_left] at hrest
      obtain ⟨body, behind, rfl, rfl, hbody⟩ := exists_body_of_blockLength hblock
      have hdrop : (body ++ '/' :: '/' :: '/' :: behind).drop (body.length + 3) = behind := by
        rw [List.drop_length_add_append]
        rfl
      rw [hdrop] at ih ⊢
      subst hrest
      have hahead := ih.prepend (run ++ '/' :: '/' :: '/' :: (body ++ ['/', '/', '/'])) (by
        intro gap rest _ htrivia
        simpa using Trivia.append_blanks hblanks (.block hbody htrivia))
      have hsum : (run ++ '/' :: '/' :: '/' :: (body ++ ['/', '/', '/'])).length
          = blanks + 3 + (body.length + 3) := by
        simp only [hlength, List.length_append, List.length_cons, List.length_nil]
        omega
      rw [hsum] at hahead
      simpa using hahead
  | case3 cs blanks rest hnot hrest line =>
      rename_i ih
      obtain ⟨run, rest', rfl, hrun, hblanks, -⟩ := exists_run isBlank cs
      have hlength : blanks = run.length := congrArg List.length hrun
      rw [hlength, List.drop_left] at hrest
      obtain ⟨body, behind, rfl, hbodyrun, hbody, hend⟩ := exists_run (· ≠ '\n') rest
      have hline : line = body.length := congrArg List.length hbodyrun
      rw [hline, List.drop_left] at ih ⊢
      subst hrest
      have hfirst : body.head? ≠ some '/' := by
        intro hhead
        obtain ⟨body', rfl⟩ := List.head?_eq_some_iff.mp hhead
        apply hnot _ rfl
      have hbreak : '\n' ∉ body := by
        intro hmem
        have hne := hbody _ hmem
        simp at hne
      have hahead := ih.prepend (run ++ '/' :: '/' :: body) (by
        rintro gap rest rfl htrivia
        simpa using Trivia.append_blanks hblanks (.line hfirst hbreak hend htrivia))
      have hsum : (run ++ '/' :: '/' :: body).length = blanks + 2 + body.length := by
        simp only [hlength, List.length_append, List.length_cons]
        omega
      rw [hsum] at hahead
      simpa using hahead
  | case4 cs blanks _ =>
      rename_i hline
      obtain ⟨run, rest, rfl, hrun, hblanks, hend⟩ := exists_run isBlank cs
      have hlength : blanks = run.length := congrArg List.length hrun
      rw [hlength, List.drop_left] at hline
      rw [hlength]
      refine .ends ⟨?_, hend, ?_⟩
      · have htrivia : Trivia rest (run ++ []) := .append_blanks hblanks .nil
        rw [List.append_nil] at htrivia
        exact htrivia
      · rintro ⟨rest', rfl⟩
        apply hline rest' rfl

end CaptureLR

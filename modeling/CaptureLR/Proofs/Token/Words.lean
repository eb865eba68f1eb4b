import CaptureLR.Proofs.Token.Reading

/-!
# What the word tokenizer makes of a text

The rules that the tokens of words and operators follow, told without the scanner: between white
space a piece of text is a run of letters, a longest operator or a single character. Every stream is
cut by these rules and has no errors, and the order of the operators plays no part.
-/

namespace CaptureLR

/-- White space that goes on as far as there is any. -/
structure IsBlankGap (gap rest : List Char) : Prop where
  blanks : ∀ c ∈ gap, isBlank c = true
  notBlank : EndsRun isBlank rest

/-- What a piece of text is read as, given the rest. A letter and all letters behind it make up a
word. Where there is no letter, there is a longest operator that the text begins with, and if there
is none, a character. -/
inductive WordLexeme (operators : List String) (before piece rest : List Char) :
    Terminal → TokenValue → Prop
  | letters {first : Char} (hfirst : piece.head? = some first)
      (hpiece : ∀ c ∈ piece, c.isAlpha = true) (hrest : EndsRun Char.isAlpha rest) :
      WordLexeme operators before piece rest (String.ofList piece) .none
  | operator {first : Char} (hfirst : (piece ++ rest).head? = some first)
      (hletter : first.isAlpha = false) {w : String} (hw : IsLongest operators (piece ++ rest) w)
      (hpiece : piece = w.toList) :
      WordLexeme operators before piece rest w .none
  | character {first : Char} (hpiece : piece = [first]) (hletter : first.isAlpha = false)
      (hnone : ∀ w ∈ operators, ¬ w.toList <+: piece ++ rest) :
      WordLexeme operators before piece rest (String.singleton first) .none

/-- The kind of a token is the text of its piece. -/
theorem WordLexeme.kind_eq {operators : List String} {before piece rest : List Char}
    {kind : Terminal} {value : TokenValue}
    (h : WordLexeme operators before piece rest kind value) :
  kind = String.ofList piece
  := by
  cases h with
  | letters => rfl
  | operator _ _ _ hpiece => rw [hpiece, String.ofList_toList]
  | character hpiece =>
      rw [hpiece]
      rfl

variable (operators : List String)

/-- The text that is ahead is a piece that is read as it is. -/
theorem exists_lexeme_of_word (before : List Char) (first : Char) (cs : List Char) :
  ∃ piece rest, first :: cs = piece ++ rest
    ∧ (wordAhead (.ofList operators) first cs).length = piece.length
    ∧ WordLexeme operators before piece rest (wordAhead (.ofList operators) first cs) .none
  := by
  unfold wordAhead
  by_cases hletter : first.isAlpha = true
  · rw [if_pos hletter]
    obtain ⟨run, rest, hpieces, hrun, hall, hend⟩ := exists_run Char.isAlpha (first :: cs)
    have hfirst := head?_of_takeWhile hletter hrun
    rw [hrun]
    exact ⟨run, rest, hpieces, String.length_ofList, .letters hfirst hall hend⟩
  · rw [if_neg hletter]
    rw [Bool.not_eq_true] at hletter
    cases hmatch : (Lexicon.ofList operators).match? (first :: cs) with
    | some w =>
        have hw := Lexicon.isLongest_of_match? hmatch
        obtain ⟨rest, hpieces⟩ := hw.begins
        rw [← hpieces] at hw
        have hfirst : (w.toList ++ rest).head? = some first := by
          rw [hpieces]
          rfl
        exact ⟨w.toList, rest, hpieces.symm, String.length_toList.symm,
          .operator hfirst hletter hw rfl⟩
    | none =>
        exact ⟨[first], cs, rfl, String.length_singleton,
          .character rfl hletter (Lexicon.match?_eq_none_iff.mp hmatch)⟩

variable {before : List Char} {c : Cursor}

/-- The next item of a cursor: the end of the input or a token, behind white space. -/
theorem yieldsNext_words (h : c.Behind before) :
  YieldsNext IsBlankGap (WordLexeme operators) (fun _ _ => False) (.words (.ofList operators))
    before c
  := by
  obtain ⟨gap, text, hrest, hrun, hblanks, hend⟩ := exists_run isBlank c.rest
  obtain ⟨hbehind, hskip⟩ := h.skip_length hrest
  have hgap : c.skipBlanks = c.skip gap.length := by
    rw [Cursor.skipBlanks, Cursor.skipWhile, hrun]
  cases text with
  | nil =>
      rw [List.append_nil] at hrest
      refine .endOfInput ⟨hrest ▸ hblanks, fun _ hc => by cases hc⟩ ?_
      simp only [TokenStream.next, hgap, scanWord, hskip, hbehind.position, hrest]
  | cons first cs =>
      obtain ⟨piece, rest, hpieces, hlength, hlexeme⟩ :=
        exists_lexeme_of_word operators (before ++ gap) first cs
      have hpiece := hskip.trans hpieces
      obtain ⟨hbehind', hskip'⟩ := hbehind.skip_length hpiece
      have htoken := hbehind.token_eq hpiece (wordAhead (.ofList operators) first cs) .none
      rw [hpieces] at hrest hend
      refine .token hrest ⟨hblanks, hend⟩ hlexeme hbehind' hskip' ?_ ?_
      · simp only [TokenStream.next, hgap, scanWord, hskip, hlength, htoken]
      · rintro rfl
        -- the cursor stands behind the white space already
        have hagain : (c.skip gap.length).skipBlanks = c.skip gap.length := by
          rw [Cursor.skipBlanks, Cursor.skipWhile, hpiece, hend.takeWhile_eq]
          rfl
        simp only [List.length_nil, Cursor.skip, TokenStream.next, hgap, hagain]

/-- What a cursor still has to read is cut by the rules of words and operators. -/
theorem isCut_words (h : c.Behind before) (n : Nat) :
  IsCut IsBlankGap (WordLexeme operators) (fun _ _ => False) n before c.rest
    ((TokenStream.words (.ofList operators) c).take n)
  := isCut_of_yieldsNext (fun _ _ => yieldsNext_words operators) h n

/-- Lexicons of the same operators make the same items. -/
theorem take_words_congr {operators' : List String} (h : ∀ w, w ∈ operators' ↔ w ∈ operators)
    (c : Cursor) (n : Nat) :
  (TokenStream.words (.ofList operators') c).take n
    = (TokenStream.words (.ofList operators) c).take n
  := by
  have hscan : scanWord (.ofList operators') = scanWord (.ofList operators) := by
    funext c
    simp only [scanWord, wordAhead, Lexicon.match?_congr h]
  induction n generalizing c with
  | zero => rfl
  | succ n ih =>
      simp only [TokenStream.take, TokenStream.next, hscan]
      cases scanWord (.ofList operators) c.skipBlanks with
      | none => rfl
      | some read => simp only [ih]

/-- Every stream of the word tokenizer is cut by the rules of words and operators: tokens cover
pieces of the text in order, with white space between them, and the end of the input is the last
item. So no item is an error, all items but the last one are tokens of a kind, and each token is the
end of the input at the end of the text, or its kind is the text it covers, a piece that is read as
it is. The order of the operators plays no part. -/
theorem Tokenizer.words_cut (text : String) (n : Nat) :
  IsCut IsBlankGap (WordLexeme operators) (fun _ _ => False) n [] text.toList
      (((Tokenizer.words (.ofList operators)).stream text).take n)
    ∧ (∀ item ∈ ((Tokenizer.words (.ofList operators)).stream text).take n, ∃ t, item = .ok t)
    ∧ (∀ item ∈ (((Tokenizer.words (.ofList operators)).stream text).take n).dropLast,
      ∃ t kind, item = .ok t ∧ t.kind = some kind)
    ∧ ((((Tokenizer.words (.ofList operators)).stream text).take n).length < n →
      (((Tokenizer.words (.ofList operators)).stream text).take n).getLast?
        = some (.ok (.endOfInput (.ofText text.toList))))
    ∧ (∀ t, .ok t ∈ ((Tokenizer.words (.ofList operators)).stream text).take n →
      t = .endOfInput (.ofText text.toList)
        ∨ ∃ before piece rest kind, text.toList = before ++ (piece ++ rest)
          ∧ t = .covering kind before piece .none ∧ t.textIn text = kind
          ∧ WordLexeme operators before piece rest kind .none)
    ∧ ∀ operators', operators'.Perm operators →
      ((Tokenizer.words (.ofList operators')).stream text).take n
        = ((Tokenizer.words (.ofList operators)).stream text).take n
  := by
  have hcut := isCut_words operators (Cursor.behind_ofText text) n
  refine ⟨hcut, ?_, ?_, ?_, ?_, ?_⟩
  · intro item hitem
    apply hcut.exists_token_of_mem (fun _ _ => id) hitem
  · intro item hitem
    apply hcut.exists_kind_of_mem_dropLast hitem
  · intro hlength
    apply hcut.getLast?_eq (fun _ _ => id) hlength
  · intro t ht
    apply (hcut.exists_text_of_mem ht).imp_right
    rintro ⟨before, piece, rest, kind, value, htext, rfl, hpiece, hlexeme⟩
    obtain rfl : value = .none := by cases hlexeme <;> rfl
    exact ⟨before, piece, rest, kind, htext, rfl, hpiece.trans hlexeme.kind_eq.symm, hlexeme⟩
  · intro operators' hperm
    apply take_words_congr operators (fun w => hperm.mem_iff)

/-- Operators that begin one another, in another order. -/
theorem Tokenizer.words_cut_reordered :
  ["<<", "<", "<<="].Perm ["<", "<<=", "<<"]
    ∧ ((Tokenizer.words (.ofList ["<<", "<", "<<="])).stream "a <<=b").take 9
      = [.ok ⟨some "a", ⟨0, 0, 0⟩, ⟨0, 1, 1⟩, .none⟩, .ok ⟨some "<<=", ⟨0, 2, 2⟩, ⟨0, 5, 5⟩, .none⟩,
        .ok ⟨some "b", ⟨0, 5, 5⟩, ⟨0, 6, 6⟩, .none⟩, .ok (.endOfInput ⟨0, 6, 6⟩)]
    ∧ (((Tokenizer.words (.ofList ["<", "<<=", "<<"])).stream "a <<=b").take 9).length < 9
    ∧ (((Tokenizer.words (.ofList ["<", "<<=", "<<"])).stream "a <<=b").take 9).getLast?
      = some (.ok (.endOfInput ⟨0, 6, 6⟩))
  := by
  have hperm : ["<<", "<", "<<="].Perm ["<", "<<=", "<<"] := by decide
  have hlength :
      (((Tokenizer.words (.ofList ["<", "<<=", "<<"])).stream "a <<=b").take 9).length < 9 := by
    decide
  obtain ⟨-, -, -, hlast, -, horder⟩ := Tokenizer.words_cut ["<", "<<=", "<<"] "a <<=b" 9
  exact ⟨hperm, horder _ hperm, hlength, hlast hlength⟩

end CaptureLR

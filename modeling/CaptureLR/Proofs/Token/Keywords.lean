import CaptureLR.Proofs.Token.Literals
import CaptureLR.Proofs.Token.Trivia

/-!
# What the keyword tokenizer makes of a text

The rules that the tokens of keywords and literals follow, told without the scanners: what a piece
of text may be read as, given what stands before and behind it, and where a text has no token. Every
stream is cut by these rules.
-/

namespace CaptureLR

/-! ### Tokens -/

/-- What a piece of text is read as, between what stands before it and the rest. A longest keyword
that the text begins with is read as itself, but as an identifier, with the letters and digits that
follow, if it is made of letters, numerals and underscores and there are such, or a point stands
before it. Where no keyword begins, there is an identifier, a number or a text. -/
inductive KeywordLexeme (keywords : List String) (before piece rest : List Char) :
    Terminal → TokenValue → Prop
  | keyword {k : String} (hk : IsLongest keywords (piece ++ rest) k) (hpiece : piece = k.toList)
      (hword : isWord k = true → EndsRun Char.isAlphanum rest ∧ before.getLast? ≠ some '.') :
      KeywordLexeme keywords before piece rest k .none
  | extended {k : String} {more : List Char} (hk : IsLongest keywords (piece ++ rest) k)
      (hword : isWord k = true) (hpiece : piece = k.toList ++ more)
      (hmore : ∀ c ∈ more, c.isAlphanum = true) (hext : more ≠ [] ∨ before.getLast? = some '.')
      (hrest : EndsRun Char.isAlphanum rest) :
      KeywordLexeme keywords before piece rest "identifier" (.identifier (String.ofList piece))
  | identifier (hnone : ∀ k ∈ keywords, ¬ k.toList <+: piece ++ rest) {first : Char}
      (hfirst : piece.head? = some first) (hletter : first.isAlpha = true)
      (hpiece : ∀ c ∈ piece, c.isAlphanum = true) (hrest : EndsRun Char.isAlphanum rest) :
      KeywordLexeme keywords before piece rest "identifier" (.identifier (String.ofList piece))
  | number (hnone : ∀ k ∈ keywords, ¬ k.toList <+: piece ++ rest) (hpiece : IsNumeral piece)
      (hrest : EndsRun Char.isDigit rest) :
      KeywordLexeme keywords before piece rest "number" (.number (numeralBits piece))
  | text (hnone : ∀ k ∈ keywords, ¬ k.toList <+: piece ++ rest) {body content : List Char}
      (hpiece : piece = '"' :: (body ++ ['"'])) (hcontent : unescapeText body = some content) :
      KeywordLexeme keywords before piece rest "text" (.text (String.ofList content))

/-- What is read before it shows that there is no literal or identifier: a text literal up to a
backslash that begins no escape, or up to the end of the text, digits and a point that no digit
follows, or nothing where a character can begin none. -/
inductive LiteralFault : (read rest : List Char) → Prop
  | badEscape {body rest content : List Char} (hbody : unescapeText body = some content)
      (hrest : ∀ c, rest.head? = some c → ¬ (c = 'n' ∨ c = '\\' ∨ c = '"')) :
      LiteralFault ('"' :: (body ++ ['\\'])) rest
  | unclosed {body content : List Char} (hbody : unescapeText body = some content) :
      LiteralFault ('"' :: body) []
  | numeral {digits rest : List Char} (hne : digits ≠ []) (h : ∀ c ∈ digits, c.isDigit = true)
      (hrest : EndsRun Char.isDigit rest) :
      LiteralFault (digits ++ ['.']) rest
  | unknown {first : Char} {rest : List Char} (hquote : first ≠ '"') (hdigit : first.isDigit = false)
      (hletter : first.isAlpha = false) :
      LiteralFault [] (first :: rest)

/-- What is read before it shows that there is no token: a block comment that is not closed, or a
faulty literal where no keyword begins. -/
inductive KeywordFault (keywords : List String) : (read rest : List Char) → Prop
  | openComment {gap body : List Char} (hgap : Trivia ('/' :: '/' :: '/' :: body) gap)
      (hbody : ¬ ['/', '/', '/'] <:+: body) :
      KeywordFault keywords (gap ++ '/' :: '/' :: '/' :: body) []
  | literal {gap read rest : List Char} (hgap : IsGap gap (read ++ rest))
      (hnone : ∀ k ∈ keywords, ¬ k.toList <+: read ++ rest) (h : LiteralFault read rest) :
      KeywordFault keywords (gap ++ read) rest

variable {keywords : List String} {before : List Char} {c : Cursor}

/-- A keyword is read as itself or as an identifier that it is a part of. -/
theorem exists_lexeme_of_keyword {k : String} (h : c.Behind before)
    (hk : IsLongest keywords c.rest k) :
  ∃ piece rest kind value, c.rest = piece ++ rest
    ∧ keywordToken k c = (piece.length, .covering kind before piece value)
    ∧ KeywordLexeme keywords before piece rest kind value
  := by
  obtain ⟨behind, hbehind⟩ := hk.begins
  obtain ⟨more, rest, rfl, hrun, hmore, hend⟩ := exists_run Char.isAlphanum behind
  have hrest : c.rest = k.toList ++ (more ++ rest) := hbehind.symm
  have hrest' : c.rest = (k.toList ++ more) ++ rest := by rw [hrest, List.append_assoc]
  have hextra : ((c.rest.drop k.length).takeWhile Char.isAlphanum).length = more.length := by
    rw [hrest, ← String.length_toList, List.drop_left, hrun]
  have hitself : c.token k.length k .none = .covering k before k.toList .none := by
    rw [← String.length_toList]
    apply h.token_eq hrest
  have hpart : identifierToken c (k.length + more.length)
      = .covering "identifier" before (k.toList ++ more)
        (.identifier (String.ofList (k.toList ++ more))) := by
    have hlength : k.length + more.length = (k.toList ++ more).length := by
      rw [List.length_append, String.length_toList]
    rw [identifierToken, hlength, h.token_eq hrest', Cursor.ahead, hrest', List.take_left]
  unfold keywordToken
  simp only [hextra]
  by_cases hword : isWord k = true
  · rw [if_pos hword]
    by_cases hext : more.length ≠ 0 ∨ c.last = some '.'
    · rw [if_pos hext, hpart]
      rw [h.last, ne_eq, List.length_eq_zero_iff] at hext
      refine ⟨k.toList ++ more, rest, _, _, hrest', ?_,
        .extended (hrest' ▸ hk) hword rfl hmore hext hend⟩
      rw [List.length_append, String.length_toList]
    · rw [if_neg hext, hitself]
      rw [h.last, ne_eq, List.length_eq_zero_iff, not_or, Decidable.not_not] at hext
      obtain ⟨rfl, hpoint⟩ := hext
      refine ⟨k.toList, rest, _, _, hrest, ?_, .keyword (hrest ▸ hk) rfl (fun _ => ⟨hend, hpoint⟩)⟩
      rw [String.length_toList]
  · rw [if_neg hword, hitself]
    refine ⟨k.toList, more ++ rest, _, _, hrest, ?_,
      .keyword (hrest ▸ hk) rfl (fun h => absurd h hword)⟩
    rw [String.length_toList]

/-- A literal or identifier that begins where no keyword does. -/
theorem exists_lexeme_of_literal {first : Char} {cs : List Char} {length : Nat} {t : Token}
    (h : c.Behind before) (hrest : c.rest = first :: cs)
    (hnone : ∀ k ∈ keywords, ¬ k.toList <+: c.rest)
    (hliteral : literalToken first cs c = .ok (length, t)) :
  ∃ piece rest kind value, c.rest = piece ++ rest ∧ length = piece.length
    ∧ t = .covering kind before piece value ∧ KeywordLexeme keywords before piece rest kind value
  := by
  unfold literalToken at hliteral
  split at hliteral
  · next hquote =>
    have hahead := textAhead cs
    generalize scanText cs = r at hahead hliteral
    cases hahead with
    | @closed body behind content hbody =>
        cases hliteral
        have hpieces : c.rest = ('"' :: (body ++ ['"'])) ++ behind := by simp [hrest, hquote]
        have hlength : body.length + 1 + 1 = ('"' :: (body ++ ['"'])).length := by simp
        rw [hpieces] at hnone
        rw [hlength]
        exact ⟨_, behind, _, _, hpieces, rfl, h.token_eq hpieces _ _, .text hnone rfl hbody⟩
    | badEscape => cases hliteral
    | unclosed => cases hliteral
  · split at hliteral
    · next hdigit =>
      simp only at hliteral
      rcases exists_numeral hdigit with ⟨behind, hpieces, hlast, hnumeral, hend⟩
        | ⟨digits, behind, -, hnumeral, -⟩
      · rw [if_neg hlast] at hliteral
        cases hliteral
        have hpieces := hrest.trans hpieces
        rw [hpieces] at hnone
        exact ⟨_, behind, _, _, hpieces, rfl, h.token_eq hpieces _ _, .number hnone hnumeral hend⟩
      · rw [hnumeral, if_pos (List.getLast?_concat ..)] at hliteral
        cases hliteral
    · split at hliteral
      · next hletter =>
        cases hliteral
        obtain ⟨run, behind, hpieces, hrun, hall, hend⟩ := exists_run Char.isAlphanum (first :: cs)
        have hfirst := head?_of_takeWhile (by rw [Char.isAlphanum, hletter, Bool.true_or]) hrun
        rw [← hrest] at hpieces
        have hahead : c.ahead run.length = String.ofList run := by
          rw [Cursor.ahead, hpieces, List.take_left]
        rw [hpieces] at hnone
        rw [hrun, identifierToken, h.token_eq hpieces, hahead]
        exact ⟨run, behind, _, _, hpieces, rfl, rfl, .identifier hnone hfirst hletter hall hend⟩
      · cases hliteral

/-- What is neither a literal nor an identifier is faulty, and the error is where this shows. -/
theorem exists_fault_of_literal {first : Char} {cs : List Char} {e : TokenizeError}
    (h : c.Behind before) (hrest : c.rest = first :: cs)
    (hliteral : literalToken first cs c = .error e) :
  ∃ read rest, c.rest = read ++ rest ∧ LiteralFault read rest ∧ e = ⟨.ofText (before ++ read)⟩
  := by
  have hposition : ∀ {read rest : List Char}, c.rest = read ++ rest →
      (c.skip read.length).position = .ofText (before ++ read) :=
    fun hpieces => (h.skip_length hpieces).1.position
  unfold literalToken at hliteral
  split at hliteral
  · next hquote =>
    have hahead := textAhead cs
    generalize scanText cs = r at hahead hliteral
    cases hahead with
    | closed => cases hliteral
    | @badEscape body rest content hbody hbad =>
        cases hliteral
        have hpieces : c.rest = ('"' :: (body ++ ['\\'])) ++ rest := by simp [hrest, hquote]
        have hlength : body.length + 1 + 1 = ('"' :: (body ++ ['\\'])).length := by simp
        rw [hlength, hposition hpieces]
        exact ⟨_, rest, hpieces, .badEscape hbody hbad, rfl⟩
    | unclosed hbody =>
        cases hliteral
        have hpieces : c.rest = ('"' :: cs) ++ [] := by simp [hrest, hquote]
        have hlength : cs.length + 1 = ('"' :: cs).length := rfl
        rw [hlength, hposition hpieces]
        exact ⟨_, [], hpieces, .unclosed hbody, rfl⟩
  · next hquote =>
    split at hliteral
    · next hdigit =>
      simp only at hliteral
      rcases exists_numeral hdigit with ⟨behind, -, hlast, -⟩
        | ⟨digits, behind, hcs, hnumeral, hne, hall, hend⟩
      · rw [if_neg hlast] at hliteral
        cases hliteral
      · rw [hnumeral, if_pos (List.getLast?_concat ..)] at hliteral
        cases hliteral
        have hpieces : c.rest = (digits ++ ['.']) ++ behind := by simp [hrest, hcs]
        rw [hposition hpieces]
        exact ⟨_, behind, hpieces, .numeral hne hall hend, rfl⟩
    · next hdigit =>
      split at hliteral
      · cases hliteral
      · next hletter =>
        cases hliteral
        refine ⟨[], first :: cs, hrest, .unknown hquote ?_ ?_, ?_⟩
        · simpa using hdigit
        · simpa using hletter
        · rw [h.position, List.append_nil]

variable (keywords)

/-- Behind a gap there is the end of the text, a token or a fault. -/
theorem scanKeyword_cases (h : c.Behind before) :
  (c.rest = [] ∧ scanKeyword (.ofList keywords) c = .ok none)
    ∨ (∃ piece rest kind value, c.rest = piece ++ rest
      ∧ KeywordLexeme keywords before piece rest kind value
      ∧ scanKeyword (.ofList keywords) c
        = .ok (some (.covering kind before piece value, c.skip piece.length)))
    ∨ ∃ read rest, c.rest = read ++ rest ∧ (∀ k ∈ keywords, ¬ k.toList <+: read ++ rest)
      ∧ LiteralFault read rest
      ∧ scanKeyword (.ofList keywords) c = .error ⟨.ofText (before ++ read)⟩
  := by
  unfold scanKeyword
  cases hrest : c.rest with
  | nil => exact Or.inl ⟨rfl, rfl⟩
  | cons first cs =>
      right
      simp only
      cases hmatch : (Lexicon.ofList keywords).match? (first :: cs) with
      | some k =>
          left
          have hk := Lexicon.isLongest_of_match? hmatch
          rw [← hrest] at hk
          obtain ⟨piece, rest, kind, value, hpieces, htoken, hlexeme⟩ :=
            exists_lexeme_of_keyword h hk
          rw [← hrest]
          refine ⟨piece, rest, kind, value, hpieces, hlexeme, ?_⟩
          simp only [htoken]
      | none =>
          have hnone := Lexicon.match?_eq_none_iff.mp hmatch
          rw [← hrest] at hnone
          simp only
          cases hliteral : literalToken first cs c with
          | error e =>
              right
              obtain ⟨read, rest, hpieces, hfault, rfl⟩ := exists_fault_of_literal h hrest hliteral
              rw [hpieces] at hnone
              exact ⟨read, rest, hrest.symm.trans hpieces, hnone, hfault, rfl⟩
          | ok token =>
              left
              obtain ⟨length, t⟩ := token
              obtain ⟨piece, rest, kind, value, hpieces, rfl, rfl, hlexeme⟩ :=
                exists_lexeme_of_literal h hrest hnone hliteral
              rw [← hrest]
              exact ⟨piece, rest, kind, value, hpieces, hlexeme, rfl⟩

/-! ### Streams -/

/-- The next item of a cursor: the end of the input, a token or an error, behind a gap. -/
theorem yieldsNext_keywords (h : c.Behind before) :
  YieldsNext IsGap (KeywordLexeme keywords) (KeywordFault keywords)
    (.keywords (.ofList keywords)) before c
  := by
  have hahead := triviaAhead c.rest
  generalize hrest : c.rest = cs at hahead
  generalize hlength : triviaLength cs = n at hahead
  cases hahead with
  | @openComment gap body hgap hbody =>
      have hpieces : c.rest = (gap ++ '/' :: '/' :: '/' :: body) ++ [] := by simp [hrest]
      refine .error hpieces (.openComment hgap hbody) ?_
      rw [← (h.skip_length hpieces).1.position]
      simp only [TokenStream.next, skipTrivia, hrest, hlength]
  | @ends gap rest hgap =>
      obtain ⟨hbehind, hskip⟩ := h.skip_length hrest
      have htrivia : skipTrivia c = .ok (c.skip gap.length) := by
        simp only [skipTrivia, hrest, hlength]
      rcases scanKeyword_cases keywords hbehind with
        ⟨hend, hscan⟩ | ⟨piece, rest', kind, value, hpieces, hlexeme, hscan⟩
          | ⟨read, rest', hpieces, hnone, hfault, hscan⟩
      · rw [hskip] at hend
        subst hend
        rw [List.append_nil] at hrest
        refine .endOfInput (hrest ▸ hgap) ?_
        simp only [TokenStream.next, htrivia, hscan, hbehind.position, hrest]
      · obtain ⟨hbehind', hskip'⟩ := hbehind.skip_length hpieces
        rw [hskip] at hpieces
        subst hpieces
        refine .token hrest hgap hlexeme hbehind' hskip' ?_ ?_
        · simp only [TokenStream.next, htrivia, hscan]
        · rintro rfl
          -- the cursor stands behind the gap already, and there is no gap to skip
          rw [← hskip] at hgap
          simp only [List.length_nil, Cursor.skip, TokenStream.next, htrivia, hgap.skipTrivia_eq]
      · rw [hskip] at hpieces
        subst hpieces
        refine .error (hrest.trans (List.append_assoc ..).symm) (.literal hgap hnone hfault) ?_
        rw [← List.append_assoc]
        simp only [TokenStream.next, htrivia, hscan]

/-- What a cursor still has to read is cut by the rules of keywords and literals. -/
theorem isCut_keywords (h : c.Behind before) (n : Nat) :
  IsCut IsGap (KeywordLexeme keywords) (KeywordFault keywords) n before c.rest
    ((TokenStream.keywords (.ofList keywords) c).take n)
  := isCut_of_yieldsNext (fun _ _ => yieldsNext_keywords keywords) h n

/-- Every stream of the keyword tokenizer is cut by the rules of keywords and literals: tokens cover
pieces of the text in order, with white space and comments between them, and an error or the end of
the input is the last item. So each token is the end of the input at the end of the text, or its
text is a piece that is read as it is. -/
theorem Tokenizer.keywords_cut (keywords : List String) (text : String) (n : Nat) :
  IsCut IsGap (KeywordLexeme keywords) (KeywordFault keywords) n [] text.toList
      (((Tokenizer.keywords (.ofList keywords)).stream text).take n)
    ∧ (∀ item ∈ (((Tokenizer.keywords (.ofList keywords)).stream text).take n).dropLast,
      ∃ t kind, item = .ok t ∧ t.kind = some kind)
    ∧ ∀ t, .ok t ∈ ((Tokenizer.keywords (.ofList keywords)).stream text).take n →
      t = .endOfInput (.ofText text.toList)
        ∨ ∃ before piece rest kind value, text.toList = before ++ (piece ++ rest)
          ∧ t = .covering kind before piece value ∧ t.textIn text = String.ofList piece
          ∧ KeywordLexeme keywords before piece rest kind value
  := by
  have hcut := isCut_keywords keywords (Cursor.behind_ofText text) n
  refine ⟨hcut, ?_, ?_⟩
  · intro item hitem
    apply hcut.exists_kind_of_mem_dropLast hitem
  · intro t ht
    apply (hcut.exists_piece_of_mem ht).imp_right
    rintro ⟨before, piece, rest, kind, value, htext, rfl, hlexeme⟩
    refine ⟨before, piece, rest, kind, value, htext, rfl, ?_, hlexeme⟩
    have hsource : text = String.ofList (before ++ (piece ++ rest)) := by
      rw [← htext]
      exact String.ofList_toList.symm
    rw [hsource]
    apply Token.textIn_covering

end CaptureLR

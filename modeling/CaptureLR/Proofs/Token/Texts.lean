import CaptureLR.Proofs.Token.Keywords

/-!
# Text literals and their contents

The literal of a text is read as one token with the text as its value, and the value of every token
of a text literal is what its characters mean once the escapes are undone. The quote that closes a
literal is the first one that is not escaped.
-/

namespace CaptureLR

/-! ### Escaped characters -/

/-- Whether what stands behind some characters is escaped: whether a backslash stands before it that
is not escaped itself. -/
def isEscaped (front : List Char) : Bool :=
  front.foldl (fun escaped c => c = '\\' && !escaped) false

theorem isEscaped_cons {c : Char} (hc : c ≠ '\\') (cs : List Char) :
  isEscaped (c :: cs) = isEscaped cs
  := by
  simp [isEscaped, hc]

/-- A backslash and the character it escapes do not matter to what comes behind them. -/
theorem isEscaped_escape (c : Char) (cs : List Char) :
  isEscaped ('\\' :: c :: cs) = isEscaped cs
  := by
  simp [isEscaped]

/-- A quote behind the content of a literal closes it: it is not escaped, and every quote before it
is. -/
structure ClosesText (body : List Char) : Prop where
  closing : isEscaped body = false
  inner : ∀ front back, body = front ++ '"' :: back → isEscaped front = true

theorem ClosesText.cons {c : Char} {body : List Char} (hquote : c ≠ '"') (hbackslash : c ≠ '\\')
    (h : ClosesText body) :
  ClosesText (c :: body)
  := by
  constructor
  · rw [isEscaped_cons hbackslash]
    apply h.closing
  · intro front back hbody
    cases front with
    | nil => cases hquote (List.cons.inj hbody).1
    | cons x front =>
        obtain ⟨hx, htail⟩ := List.cons.inj hbody
        rw [← hx, isEscaped_cons hbackslash]
        apply h.inner front back htail

theorem ClosesText.escape {body : List Char} (c : Char) (h : ClosesText body) :
  ClosesText ('\\' :: c :: body)
  := by
  constructor
  · rw [isEscaped_escape]
    apply h.closing
  · intro front back hbody
    cases front with
    | nil => cases (List.cons.inj hbody).1
    | cons x front =>
        obtain ⟨hx, htail⟩ := List.cons.inj hbody
        subst hx
        cases front with
        | nil => rfl
        | cons y front =>
            rw [isEscaped_escape]
            apply h.inner front back (List.cons.inj htail).2

/-- The content of a literal is closed by the quote behind it. -/
theorem closesText_of_unescapeText {body content : List Char}
    (h : unescapeText body = some content) :
  ClosesText body
  := by
  induction body using unescapeText.induct generalizing content with
  | case1 => exact ⟨rfl, fun front _ hbody => by cases front <;> cases hbody⟩
  | case2 => cases h
  | case3 cs ih =>
      obtain ⟨content, hcs, -⟩ := Option.map_eq_some_iff.mp h
      apply (ih hcs).escape
  | case4 cs ih =>
      obtain ⟨content, hcs, -⟩ := Option.map_eq_some_iff.mp h
      apply (ih hcs).escape
  | case5 cs ih =>
      obtain ⟨content, hcs, -⟩ := Option.map_eq_some_iff.mp h
      apply (ih hcs).escape
  | case6 cs hn hbackslash hquote =>
      rw [unescapeText.eq_6 cs hn hbackslash hquote] at h
      cases h
  | case7 c cs hquote hn hbackslash hescaped hlone ih =>
      rw [unescapeText.eq_7 c cs hquote hn hbackslash hescaped hlone] at h
      obtain ⟨content, hcs, -⟩ := Option.map_eq_some_iff.mp h
      apply (ih hcs).cons hquote hlone

/-! ### The literal of a text -/

/-- The scanner reads the content of the literal of a text and finds its end. -/
theorem scanText_escapeText (cs rest : List Char) :
  scanText (escapeText cs ++ '"' :: rest) = .ok (cs, (escapeText cs).length + 1)
  := by
  induction cs with
  | nil => rfl
  | cons c cs ih =>
      have hcons : escapeText (c :: cs) = escapeChar c ++ escapeText cs := List.flatMap_cons
      rw [hcons, escapeChar]
      split
      · next h => simp [scanText, ih, h]
      · split
        · next h => simp [scanText, ih, h]
        · split
          · next h => simp [scanText, ih, h]
          · next hbackslash _ =>
            simp [scanText, ih, hbackslash]

variable (keywords : List String)

/-- Where no keyword begins, the literal of a text is read as a token that has the text as its
value. -/
theorem scanKeyword_textLiteral {before cs : List Char} {c : Cursor} (h : c.Behind before)
    (hrest : c.rest = textLiteral cs) (hnone : ∀ k ∈ keywords, ¬ k.toList <+: textLiteral cs) :
  scanKeyword (.ofList keywords) c
    = .ok (some (.covering "text" before (textLiteral cs) (.text (String.ofList cs)),
      c.skip (textLiteral cs).length))
  := by
  have hmatch : (Lexicon.ofList keywords).match? ('"' :: (escapeText cs ++ ['"'])) = none :=
    Lexicon.match?_eq_none_iff.mpr hnone
  have hlength : (textLiteral cs).length = (escapeText cs).length + 1 + 1 := by
    simp [textLiteral]
  have htoken := h.token_eq (hrest.trans (List.append_nil _).symm) "text"
    (.text (String.ofList cs))
  rw [hlength] at htoken
  unfold scanKeyword
  rw [hrest, hlength]
  simp only [textLiteral, hmatch, literalToken, ↓reduceIte, scanText_escapeText, htoken]

/-- The stream of the literal of a text is its token and the end of the input. -/
theorem take_textLiteral {before cs : List Char} {c : Cursor} (h : c.Behind before)
    (hrest : c.rest = textLiteral cs) (hnone : ∀ k ∈ keywords, ¬ k.toList <+: textLiteral cs)
    (n : Nat) :
  (TokenStream.keywords (.ofList keywords) c).take n
    = [.ok (.covering "text" before (textLiteral cs) (.text (String.ofList cs))),
      .ok (.endOfInput (.ofText (before ++ textLiteral cs)))].take n
  := by
  have hgap : IsGap [] c.rest := by
    rw [hrest]
    apply IsGap.cons (by decide) (by decide)
  obtain ⟨hbehind, hend⟩ := h.skip_length (hrest.trans (List.append_nil _).symm)
  have hgap' : IsGap [] (c.skip (textLiteral cs).length).rest := by
    rw [hend]
    exact .nil
  have hfirst : TokenStream.next (.keywords (.ofList keywords) c)
      = some (.ok (.covering "text" before (textLiteral cs) (.text (String.ofList cs))),
        .keywords (.ofList keywords) (c.skip (textLiteral cs).length)) := by
    simp only [TokenStream.next, hgap.skipTrivia_eq, scanKeyword_textLiteral keywords h hrest hnone]
  have hsecond : TokenStream.next
      (.keywords (.ofList keywords) (c.skip (textLiteral cs).length))
        = some (.ok (.endOfInput (.ofText (before ++ textLiteral cs))), .nil) := by
    simp only [TokenStream.next, hgap'.skipTrivia_eq, scanKeyword, hend, hbehind.position]
  cases n with
  | zero => rfl
  | succ n =>
      simp only [TokenStream.take, hfirst, List.take_succ_cons]
      cases n with
      | zero => rfl
      | succ n =>
          simp only [TokenStream.take, hsecond, TokenStream.take_nil, List.take_succ_cons,
            List.take_nil]

/-! ### The values of text tokens -/

/-- A token with the value of a text covers a literal with this content. -/
theorem KeywordLexeme.exists_body {keywords : List String} {before piece rest : List Char}
    {kind : Terminal} {content : String}
    (h : KeywordLexeme keywords before piece rest kind (.text content)) :
  kind = "text" ∧ ∃ body, piece = '"' :: (body ++ ['"'])
    ∧ unescapeText body = some content.toList
  := by
  cases h with
  | text _ hpiece hcontent =>
      rw [String.toList_ofList]
      exact ⟨rfl, _, hpiece, hcontent⟩

/-- A token of the kind of texts has the value of a text, or it is a keyword of this name. -/
theorem KeywordLexeme.exists_content {keywords : List String} {before piece rest : List Char}
    {kind : Terminal} {value : TokenValue}
    (h : KeywordLexeme keywords before piece rest kind value) (hkind : kind = "text") :
  (∃ content, value = .text content) ∨ "text" ∈ keywords ∧ piece = "text".toList
  := by
  cases h with
  | keyword hk hpiece =>
      subst hkind
      exact Or.inr ⟨hk.mem, hpiece⟩
  | extended => simp at hkind
  | identifier => simp at hkind
  | number => simp at hkind
  | text => exact Or.inl ⟨_, rfl⟩

/-- On the literal of a text, with no keyword before it, the keyword tokenizer yields one token,
which covers the literal and has the text as its value, and the end of the input. In every stream
the value of a text token is what is between its quotes once the escapes are undone, and its closing
quote is the first one that is not escaped. Every token of the kind of texts is such a one, but a
keyword of this name. -/
theorem Tokenizer.keywords_text :
  (∀ s : String, (∀ k ∈ keywords, ¬ k.toList <+: textLiteral s.toList) → ∀ n,
      ((Tokenizer.keywords (.ofList keywords)).stream (String.ofList (textLiteral s.toList))).take n
        = [.ok (.covering "text" [] (textLiteral s.toList) (.text s)),
          .ok (.endOfInput (.ofText (textLiteral s.toList)))].take n)
    ∧ ∀ (text : String) (n : Nat) (t : Token),
      .ok t ∈ ((Tokenizer.keywords (.ofList keywords)).stream text).take n →
        (∀ content, t.value = .text content → t.kind = some "text"
          ∧ ∃ body, t.textIn text = String.ofList ('"' :: (body ++ ['"']))
            ∧ unescapeText body = some content.toList ∧ ClosesText body)
        ∧ (t.kind = some "text" → (∃ content, t.value = .text content)
          ∨ "text" ∈ keywords ∧ t.textIn text = "text")
  := by
  constructor
  · intro s hnone n
    have hrest : (Cursor.ofText (String.ofList (textLiteral s.toList))).rest
        = textLiteral s.toList := String.toList_ofList
    have htake := take_textLiteral keywords (Cursor.behind_ofText _) hrest hnone n
    rw [String.ofList_toList, List.nil_append] at htake
    apply htake
  · intro text n t ht
    have hcut := isCut_keywords keywords (Cursor.behind_ofText text) n
    rcases hcut.exists_text_of_mem ht with
      rfl | ⟨before, piece, rest, kind, value, -, rfl, hpiece, hlexeme⟩
    · constructor
      · intro content hvalue
        cases hvalue
      · intro hkind
        cases hkind
    · rw [hpiece]
      constructor
      · rintro content ⟨⟩
        obtain ⟨rfl, body, rfl, hcontent⟩ := hlexeme.exists_body
        exact ⟨rfl, body, rfl, hcontent, closesText_of_unescapeText hcontent⟩
      · intro hkind
        apply (hlexeme.exists_content (Option.some.inj hkind)).imp_right
        rintro ⟨hmem, rfl⟩
        exact ⟨hmem, String.ofList_toList⟩

/-- Quotes, backslashes, line breaks, keywords and comment marks in a text. -/
theorem Tokenizer.keywords_text_quoted :
  (∀ k ∈ ["let", "//", "n"], ¬ k.toList <+: textLiteral "\"let\" // \\\n".toList)
    ∧ ((Tokenizer.keywords (.ofList ["let", "//", "n"])).stream
        "\"\\\"let\\\" // \\\\\\n\"").take 3
      = [.ok ⟨some "text", ⟨0, 0, 0⟩, ⟨0, 17, 17⟩, .text "\"let\" // \\\n"⟩,
        .ok (.endOfInput ⟨0, 17, 17⟩)]
    ∧ ∃ body, unescapeText body = some "\"let\" // \\\n".toList ∧ ClosesText body
  := by
  have hnone : ∀ k ∈ ["let", "//", "n"],
      ¬ k.toList <+: textLiteral "\"let\" // \\\n".toList := by decide
  have htake := (Tokenizer.keywords_text ["let", "//", "n"]).1 "\"let\" // \\\n" hnone 3
  refine ⟨hnone, htake, ?_⟩
  have hmem : .ok (.covering "text" [] (textLiteral "\"let\" // \\\n".toList)
        (.text "\"let\" // \\\n"))
      ∈ ((Tokenizer.keywords (.ofList ["let", "//", "n"])).stream
        (String.ofList (textLiteral "\"let\" // \\\n".toList))).take 3 := by
    rw [htake]
    exact List.mem_cons_self
  obtain ⟨-, body, -, hcontent, hcloses⟩ :=
    ((Tokenizer.keywords_text ["let", "//", "n"]).2 _ 3 _ hmem).1 _ rfl
  exact ⟨body, hcontent, hcloses⟩

end CaptureLR

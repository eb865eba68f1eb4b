import CaptureLR.Token.Stream

/-!
# Texts that are cut into pieces

A tokenizer leaves out gaps of a text and makes tokens of the pieces between them, from left to
right. What it may leave out and what a piece is read as is said by relations of its own; that the
gaps and pieces make up the text, and that the tokens stand where the pieces do, is the same for
all.
-/

namespace CaptureLR

/-! ### Cursors -/

/-- The position behind two texts is that of the first one, advanced over the second. -/
theorem Position.ofText_append (before piece : List Char) :
  ofText (before ++ piece) = (ofText before).advanceMany piece
  := by
  rw [← advanceMany_start, ← advanceMany_start, advanceMany, advanceMany, advanceMany,
    List.foldl_append]

/-- The bytes before a place are those of the characters before it. -/
theorem Position.offset_ofText_cons (c : Char) (cs : List Char) :
  (ofText (c :: cs)).offset = c.utf8Size + (ofText cs).offset
  := by
  have hfold : ∀ (cs : List Char) (n : Nat),
      cs.foldl (fun n c => n + c.utf8Size) n = n + cs.foldl (fun n c => n + c.utf8Size) 0 := by
    intro cs
    induction cs with
    | nil => exact fun _ => rfl
    | cons c cs ih =>
        intro n
        rw [List.foldl_cons, List.foldl_cons, ih, ih (0 + c.utf8Size)]
        omega
  rw [ofText, ofText, List.foldl_cons, hfold, Nat.zero_add]

theorem Position.offset_ofText_append (before piece : List Char) :
  (ofText (before ++ piece)).offset = (ofText before).offset + (ofText piece).offset
  := by
  induction before with
  | nil => exact (Nat.zero_add _).symm
  | cons c before ih =>
      rw [List.cons_append, offset_ofText_cons, ih, offset_ofText_cons, Nat.add_assoc]

/-- A cursor stands behind the characters that were read. -/
structure Cursor.Behind (before : List Char) (c : Cursor) : Prop where
  position : c.position = .ofText before
  last : c.last = before.getLast?

namespace Cursor

variable {before : List Char} {c : Cursor}

theorem behind_ofText (text : String) :
  (ofText text).Behind []
  := ⟨rfl, rfl⟩

/-- A cursor stays behind what was read when characters are skipped. -/
theorem Behind.skip (h : c.Behind before) (n : Nat) :
  (c.skip n).Behind (before ++ c.rest.take n)
  := by
  induction n generalizing c before with
  | zero =>
      rw [List.take_zero, List.append_nil]
      apply h
  | succ n ih =>
      cases hrest : c.rest with
      | nil =>
          have hbump : c.bump = c := by rw [bump, hrest]
          have hskipped := ih h
          rw [hrest, List.take_nil] at hskipped
          rw [Cursor.skip, hbump, List.take_nil]
          apply hskipped
      | cons x xs =>
          have hbump : c.bump = ⟨c.position.advance x, xs, some x⟩ := by rw [bump, hrest]
          have hbehind : c.bump.Behind (before ++ [x]) := by
            rw [hbump]
            constructor
            · rw [h.position, Position.ofText_append]
              rfl
            · simp
          have hskipped := ih hbehind
          have hxs : c.bump.rest = xs := by rw [hbump]
          rw [hxs, List.append_assoc] at hskipped
          rw [Cursor.skip]
          apply hskipped

/-- A cursor behind a piece of what was to be read. -/
theorem Behind.skip_length {piece rest : List Char} (h : c.Behind before)
    (hrest : c.rest = piece ++ rest) :
  (c.skip piece.length).Behind (before ++ piece) ∧ (c.skip piece.length).rest = rest
  := by
  have hskipped := h.skip piece.length
  rw [hrest, List.take_left] at hskipped
  refine ⟨hskipped, ?_⟩
  rw [rest_skip, hrest, List.drop_left]

end Cursor

/-! ### The longest word -/

/-- A word of a list is a longest one that a text begins with. -/
structure IsLongest (words : List String) (text : List Char) (w : String) : Prop where
  mem : w ∈ words
  begins : w.toList <+: text
  longest : ∀ v ∈ words, v.toList <+: text → v.length ≤ w.length

/-- A text begins with one longest word only. -/
theorem IsLongest.unique {words : List String} {text : List Char} {v w : String}
    (hv : IsLongest words text v) (hw : IsLongest words text w) :
  v = w
  := by
  have hle := hw.longest v hv.mem hv.begins
  have hge := hv.longest w hw.mem hw.begins
  have hlength : v.toList.length = w.toList.length := by
    rw [String.length_toList, String.length_toList]
    exact Nat.le_antisymm hle hge
  have hbegins := List.prefix_of_prefix_length_le hv.begins hw.begins (Nat.le_of_eq hlength)
  apply String.toList_injective (hbegins.eq_of_length hlength)

namespace Lexicon

/-- A lexicon has the words that it was made of. -/
theorem mem_words_ofList {words : List String} {w : String} :
  w ∈ (ofList words).words ↔ w ∈ words
  := by
  suffices h : ∀ l : Lexicon, w ∈ (words.foldl add l).words ↔ w ∈ l.words ∨ w ∈ words by
    simpa [ofList, empty] using h empty
  induction words with
  | nil => simp
  | cons v words ih =>
      intro l
      rw [List.foldl_cons, ih, add, mem_addWord, List.mem_cons, or_assoc, or_left_comm]

/-- The word that is found is a longest one. -/
theorem isLongest_of_match? {words : List String} {text : List Char} {w : String}
    (h : (ofList words).match? text = some w) :
  IsLongest words text w
  := by
  obtain ⟨hbegins, before, behind, hwords, hnone⟩ := List.find?_eq_some_iff_append.mp h
  have hmem : w ∈ (ofList words).words := by simp [hwords]
  refine ⟨mem_words_ofList.mp hmem, List.isPrefixOf_iff_prefix.mp hbegins, ?_⟩
  intro v hv hvbegins
  have hdescending := (ofList words).descending
  rw [hwords, List.pairwise_append] at hdescending
  obtain ⟨-, hdescending, -⟩ := hdescending
  rw [← mem_words_ofList, hwords, List.mem_append, List.mem_cons] at hv
  rcases hv with hv | rfl | hv
  · -- no word before the one found begins the text
    have hnot := hnone v hv
    rw [List.isPrefixOf_iff_prefix.mpr hvbegins] at hnot
    cases hnot
  · apply Nat.le_refl
  · apply (List.pairwise_cons.mp hdescending).1 v hv

/-- No word is found if none begins the text. -/
theorem match?_eq_none_iff {words : List String} {text : List Char} :
  (ofList words).match? text = none ↔ ∀ w ∈ words, ¬ w.toList <+: text
  := by
  rw [match?, List.find?_eq_none]
  constructor
  · intro h w hw hbegins
    apply h w (mem_words_ofList.mpr hw) (List.isPrefixOf_iff_prefix.mpr hbegins)
  · intro h w hw hbegins
    apply h w (mem_words_ofList.mp hw) (List.isPrefixOf_iff_prefix.mp hbegins)

/-- The word that is found depends on which words there are only, and not on their order. -/
theorem match?_congr {words words' : List String} (h : ∀ w, w ∈ words' ↔ w ∈ words)
    (text : List Char) :
  (ofList words').match? text = (ofList words).match? text
  := by
  cases hfound : (ofList words).match? text with
  | none =>
      rw [match?_eq_none_iff] at hfound ⊢
      simpa only [h] using hfound
  | some w =>
      have hw := isLongest_of_match? hfound
      have hw' : IsLongest words' text w :=
        ⟨(h w).mpr hw.mem, hw.begins, fun v hv => hw.longest v ((h v).mp hv)⟩
      cases hfound' : (ofList words').match? text with
      | none => cases match?_eq_none_iff.mp hfound' w hw'.mem hw'.begins
      | some v => rw [(isLongest_of_match? hfound').unique hw']

end Lexicon

/-! ### Runs of characters -/

/-- A text does not begin with a character of a kind. -/
def EndsRun (p : Char → Bool) (rest : List Char) : Prop := ∀ c, rest.head? = some c → p c = false

theorem EndsRun.takeWhile_eq {p : Char → Bool} {rest : List Char} (h : EndsRun p rest) :
  rest.takeWhile p = []
  := by
  cases rest with
  | nil => rfl
  | cons c rest => rw [List.takeWhile_cons_of_neg (by simp [h c rfl])]

/-- A text is the longest run of characters of a kind that it begins with, and a rest that does not
begin with one. -/
theorem exists_run (p : Char → Bool) (cs : List Char) :
  ∃ run rest, cs = run ++ rest ∧ cs.takeWhile p = run ∧ (∀ c ∈ run, p c = true) ∧ EndsRun p rest
  := by
  refine ⟨_, cs.dropWhile p, List.takeWhile_append_dropWhile.symm, rfl, ?_, ?_⟩
  · intro c hc
    apply List.all_eq_true.mp List.all_takeWhile c hc
  · intro c hc
    have hhead := List.head?_dropWhile_not p cs
    rw [hc] at hhead
    apply hhead

/-- The longest run that begins with a character of its kind. -/
theorem head?_of_takeWhile {p : Char → Bool} {first : Char} {cs run : List Char}
    (hfirst : p first = true) (hrun : (first :: cs).takeWhile p = run) :
  run.head? = some first
  := by
  rw [← hrun, List.takeWhile_cons_of_pos hfirst]
  rfl

/-! ### Items -/

/-- The token of a piece of a text, given what stands before it. -/
def Token.covering (kind : Terminal) (before piece : List Char) (value : TokenValue) : Token :=
  ⟨some kind, .ofText before, .ofText (before ++ piece), value⟩

/-- What is behind as many bytes as some characters have is what is behind the characters. -/
theorem Token.charsFrom_offset (before rest : List Char) :
  charsFrom (Position.ofText before).offset (before ++ rest) = some rest
  := by
  induction before with
  | nil =>
      cases rest <;> rfl
  | cons c before ih =>
      have hpos := c.utf8Size_pos
      rw [Position.offset_ofText_cons, List.cons_append]
      obtain ⟨n, hn⟩ := Nat.exists_eq_add_one_of_ne_zero
        (show c.utf8Size + (Position.ofText before).offset ≠ 0 by omega)
      rw [hn, charsFrom, ← hn, if_neg (by omega), Nat.add_sub_cancel_left]
      apply ih

/-- As many bytes as some characters have are those of the characters. -/
theorem Token.charsUntil_offset (piece rest : List Char) :
  charsUntil (Position.ofText piece).offset (piece ++ rest) = some piece
  := by
  induction piece with
  | nil =>
      cases rest <;> rfl
  | cons c piece ih =>
      have hpos := c.utf8Size_pos
      rw [Position.offset_ofText_cons, List.cons_append]
      obtain ⟨n, hn⟩ := Nat.exists_eq_add_one_of_ne_zero
        (show c.utf8Size + (Position.ofText piece).offset ≠ 0 by omega)
      rw [hn, charsUntil, ← hn, if_neg (by omega), Nat.add_sub_cancel_left, ih]
      rfl

/-- The text of the token of a piece is the piece. -/
theorem Token.textIn_covering (kind : Terminal) (before piece rest : List Char)
    (value : TokenValue) :
  (covering kind before piece value).textIn (String.ofList (before ++ (piece ++ rest)))
    = String.ofList piece
  := by
  have hle := Nat.le_add_right (Position.ofText before).offset (Position.ofText piece).offset
  rw [textIn, covering, Position.offset_ofText_append, if_neg (Nat.not_lt.mpr hle),
    String.toList_ofList, charsFrom_offset, Option.bind_some, Nat.add_sub_cancel_left,
    charsUntil_offset]

/-- The text of a token that stands where a piece does is the piece. -/
theorem Token.textIn_eq {text : String} {before piece rest : List Char} {t : Token}
    (htext : text.toList = before ++ (piece ++ rest))
    (hstart : t.start.offset = (Position.ofText before).offset)
    (hstop : t.stop.offset = (Position.ofText (before ++ piece)).offset) :
  t.textIn text = String.ofList piece
  := by
  rw [← textIn_covering "" before piece rest .none, ← htext, String.ofList_toList, textIn, hstart,
    hstop]
  rfl

/-- The token that a cursor makes of a piece that is next. -/
theorem Cursor.Behind.token_eq {c : Cursor} {before piece rest : List Char} (h : c.Behind before)
    (hrest : c.rest = piece ++ rest) (kind : Terminal) (value : TokenValue) :
  c.token piece.length kind value = .covering kind before piece value
  := by
  obtain ⟨hbehind, -⟩ := h.skip_length hrest
  rw [Cursor.token, Token.covering, h.position, hbehind.position]

/-- The first items that the rest of a text is cut into, given what stands before it and how many
items are asked for. A gap that may stand before what is behind it separates each piece from the one
before, each token covers a piece that may be read as it is, and unless enough items are there the
last one is the end of the input at the end of the text, or an error at the place up to which the
text was read when it showed a fault. -/
inductive IsCut (Gap : (gap rest : List Char) → Prop)
    (Lexeme : (before piece rest : List Char) → Terminal → TokenValue → Prop)
    (Fault : (read rest : List Char) → Prop) :
    Nat → (before rest : List Char) → List TokenItem → Prop
  | nil {before rest : List Char} : IsCut Gap Lexeme Fault 0 before rest []
  | token {n : Nat} {before gap piece rest : List Char} {kind : Terminal} {value : TokenValue}
      {items : List TokenItem} (hgap : Gap gap (piece ++ rest))
      (hlexeme : Lexeme (before ++ gap) piece rest kind value)
      (h : IsCut Gap Lexeme Fault n (before ++ gap ++ piece) rest items) :
      IsCut Gap Lexeme Fault (n + 1) before (gap ++ (piece ++ rest))
        (.ok (.covering kind (before ++ gap) piece value) :: items)
  | endOfInput {n : Nat} {before gap : List Char} (hgap : Gap gap []) :
      IsCut Gap Lexeme Fault (n + 1) before gap [.ok (.endOfInput (.ofText (before ++ gap)))]
  | error {n : Nat} {before read rest : List Char} (hfault : Fault read rest) :
      IsCut Gap Lexeme Fault (n + 1) before (read ++ rest) [.error ⟨.ofText (before ++ read)⟩]

section Cut

variable {Gap Fault : List Char → List Char → Prop}
  {Lexeme : (before piece rest : List Char) → Terminal → TokenValue → Prop} {n : Nat}
  {before rest : List Char} {items : List TokenItem}

/-- Every token covers a piece of the text that may be read as it is, or it is the end of the
input at the end of the text. -/
theorem IsCut.exists_piece_of_mem (h : IsCut Gap Lexeme Fault n before rest items) {t : Token}
    (ht : .ok t ∈ items) :
  t = .endOfInput (.ofText (before ++ rest))
    ∨ ∃ front piece back kind value, before ++ rest = front ++ (piece ++ back)
      ∧ t = .covering kind front piece value ∧ Lexeme front piece back kind value
  := by
  induction h with
  | nil => cases ht
  | @token n before gap piece rest kind value items hgap hlexeme h ih =>
      rcases List.mem_cons.mp ht with heq | ht
      · cases heq
        right
        exact ⟨_, piece, rest, kind, value, (List.append_assoc ..).symm, rfl, hlexeme⟩
      · have hpiece := ih ht
        rw [List.append_assoc, List.append_assoc] at hpiece
        apply hpiece
  | endOfInput =>
      cases List.mem_singleton.mp ht
      exact Or.inl rfl
  | error => cases List.mem_singleton.mp ht

/-- All items but the last one are tokens, and not the end of the input. -/
theorem IsCut.exists_kind_of_mem_dropLast (h : IsCut Gap Lexeme Fault n before rest items)
    {item : TokenItem} (hitem : item ∈ items.dropLast) :
  ∃ t kind, item = .ok t ∧ t.kind = some kind
  := by
  induction h with
  | nil => cases hitem
  | @token _ _ _ _ _ _ _ items _ _ _ ih =>
      cases items with
      | nil => cases hitem
      | cons next items =>
          rw [List.dropLast_cons_of_ne_nil (List.cons_ne_nil _ _), List.mem_cons] at hitem
          rcases hitem with rfl | hitem
          · exact ⟨_, _, rfl, rfl⟩
          · apply ih hitem
  | endOfInput => cases hitem
  | error => cases hitem

/-- Where no text is faulty, every item is a token. -/
theorem IsCut.exists_token_of_mem (h : IsCut Gap Lexeme Fault n before rest items)
    (hfault : ∀ read rest, ¬ Fault read rest) {item : TokenItem} (hitem : item ∈ items) :
  ∃ t, item = .ok t
  := by
  induction h with
  | nil => cases hitem
  | token _ _ _ ih =>
      rcases List.mem_cons.mp hitem with rfl | hitem
      · exact ⟨_, rfl⟩
      · apply ih hitem
  | endOfInput =>
      cases List.mem_singleton.mp hitem
      exact ⟨_, rfl⟩
  | error hfaulty => cases hfault _ _ hfaulty

/-- The text of a token of a whole text that is cut is the piece it covers. -/
theorem IsCut.exists_text_of_mem {text : String}
    (h : IsCut Gap Lexeme Fault n [] text.toList items) {t : Token} (ht : .ok t ∈ items) :
  t = .endOfInput (.ofText text.toList)
    ∨ ∃ front piece back kind value, text.toList = front ++ (piece ++ back)
      ∧ t = .covering kind front piece value ∧ t.textIn text = String.ofList piece
      ∧ Lexeme front piece back kind value
  := by
  apply (h.exists_piece_of_mem ht).imp_right
  rintro ⟨front, piece, back, kind, value, htext, rfl, hlexeme⟩
  exact ⟨front, piece, back, kind, value, htext, rfl, Token.textIn_eq htext rfl rfl, hlexeme⟩

/-- Where no text is faulty and there are less items than were asked for, the last one is the end of
the input at the end of the text. -/
theorem IsCut.getLast?_eq (h : IsCut Gap Lexeme Fault n before rest items)
    (hfault : ∀ read rest, ¬ Fault read rest) (hlength : items.length < n) :
  items.getLast? = some (.ok (.endOfInput (.ofText (before ++ rest))))
  := by
  induction h with
  | nil => cases hlength
  | @token n before gap piece rest kind value items _ _ _ ih =>
      have hlast := ih (Nat.lt_of_succ_lt_succ hlength)
      rw [List.getLast?_cons_of_ne_nil (by rintro rfl; cases hlast), hlast, List.append_assoc,
        List.append_assoc]
  | endOfInput => rfl
  | error hfaulty => cases hfault _ _ hfaulty

/-- A stream is cut for every number of items if it is for every positive one. -/
theorem IsCut.of_succ {s : TokenStream}
    (h : ∀ n, IsCut Gap Lexeme Fault (n + 1) before rest (s.take (n + 1))) (n : Nat) :
  IsCut Gap Lexeme Fault n before rest (s.take n)
  := by
  cases n with
  | zero => exact .nil
  | succ n => apply h

end Cut

/-! ### Streams of a cursor -/

/-- A stream that has nothing to yield. -/
theorem TokenStream.take_nil (n : Nat) :
  nil.take n = []
  := by
  cases n <;> rfl

/-- What the stream of a cursor yields next, given what stands before the cursor: the end of the
input behind a last gap, the token of a piece behind a gap, or an error where a fault shows. A piece
without characters is read again. -/
inductive YieldsNext (Gap : (gap rest : List Char) → Prop)
    (Lexeme : (before piece rest : List Char) → Terminal → TokenValue → Prop)
    (Fault : (read rest : List Char) → Prop) (stream : Cursor → TokenStream) (before : List Char)
    (c : Cursor) : Prop
  | endOfInput (hgap : Gap c.rest [])
      (hnext : (stream c).next = some (.ok (.endOfInput (.ofText (before ++ c.rest))), .nil)) :
      YieldsNext Gap Lexeme Fault stream before c
  | token {gap piece rest : List Char} {kind : Terminal} {value : TokenValue} {c' : Cursor}
      (hrest : c.rest = gap ++ (piece ++ rest)) (hgap : Gap gap (piece ++ rest))
      (hlexeme : Lexeme (before ++ gap) piece rest kind value)
      (hbehind : c'.Behind (before ++ gap ++ piece)) (hrest' : c'.rest = rest)
      (hnext : (stream c).next
        = some (.ok (.covering kind (before ++ gap) piece value), stream c'))
      (hagain : piece = [] → (stream c').next = (stream c).next) :
      YieldsNext Gap Lexeme Fault stream before c
  | error {read rest : List Char} (hrest : c.rest = read ++ rest) (hfault : Fault read rest)
      (hnext : (stream c).next = some (.error ⟨.ofText (before ++ read)⟩, .nil)) :
      YieldsNext Gap Lexeme Fault stream before c

/-- What a cursor still has to read is cut by the rules that its stream follows at every step. -/
theorem isCut_of_yieldsNext {Gap Fault : List Char → List Char → Prop}
    {Lexeme : (before piece rest : List Char) → Terminal → TokenValue → Prop}
    {stream : Cursor → TokenStream}
    (hyields : ∀ before c, c.Behind before → YieldsNext Gap Lexeme Fault stream before c)
    {before : List Char} {c : Cursor} (h : c.Behind before) (n : Nat) :
  IsCut Gap Lexeme Fault n before c.rest ((stream c).take n)
  := by
  induction n generalizing before c with
  | zero => exact .nil
  | succ n ih =>
      rw [TokenStream.take]
      cases hyields before c h with
      | endOfInput hgap hnext =>
          simp only [hnext, TokenStream.take_nil]
          exact .endOfInput hgap
      | token hrest hgap hlexeme hbehind hrest' hnext =>
          simp only [hnext]
          rw [hrest]
          subst hrest'
          exact .token hgap hlexeme (ih hbehind)
      | error hrest hfault hnext =>
          simp only [hnext, TokenStream.take_nil]
          rw [hrest]
          exact .error hfault

end CaptureLR

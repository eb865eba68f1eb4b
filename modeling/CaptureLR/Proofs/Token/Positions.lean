import CaptureLR.Proofs.Token.Keywords
import CaptureLR.Proofs.Token.Words

/-!
# Where tokens and errors stand

Every tokenizer that reads a text gives exact positions: those counted from scratch over what stands
before a place. The one exception is that a line break read as a character ends one column further
on its own line. Tokens follow each other without overlap, so the text of a token is always what its
positions enclose, and lines and columns of a text of less than `2 ^ 32` characters stay below
`2 ^ 32`.
-/

namespace CaptureLR

/-! ### Lines and columns -/

/-- Line and column of a position can be stored in 32 bits. -/
def Position.IsStorable (p : Position) : Prop := p.line < UInt32.size ∧ p.column < UInt32.size

/-- There are at most as many lines before a place as characters. -/
theorem Position.line_ofText_le (cs : List Char) :
  (ofText cs).line ≤ cs.length
  := List.count_le_length

/-- There are at most as many characters since the last line break as before a place. -/
theorem Position.column_ofText_le (cs : List Char) :
  (ofText cs).column ≤ cs.length
  := by
  have hle := (List.takeWhile_prefix (· ≠ '\n') (l := cs.reverse)).length_le
  rw [List.length_reverse] at hle
  apply hle

theorem Position.isStorable_ofText {cs : List Char} (h : cs.length < UInt32.size) :
  (ofText cs).IsStorable
  := ⟨Nat.lt_of_le_of_lt (line_ofText_le cs) h, Nat.lt_of_le_of_lt (column_ofText_le cs) h⟩

/-! ### Items in their places -/

/-- A tokenizer that reads a text. -/
inductive Tokenizer.Reads : Tokenizer → Prop
  | characters : Reads .characters
  | words (operators : List String) : Reads (.words (.ofList operators))
  | keywords (words : List String) : Reads (.keywords (.ofList words))

/-- Where the token of a piece ends, given what stands before the piece: at the position behind it,
but the character tokenizer ends a line break one column further on the same line. -/
def Tokenizer.endOf : Tokenizer → (before piece : List Char) → Position
  | characters, before, ['\n'] => (Position.ofText before).after '\n'
  | _, before, piece => .ofText (before ++ piece)

theorem Tokenizer.endOf_of_ne {t : Tokenizer} (before : List Char) {piece : List Char}
    (h : t = .characters → piece ≠ ['\n']) :
  t.endOf before piece = .ofText (before ++ piece)
  := by
  unfold endOf
  split
  · cases h rfl rfl
  · rfl

/-- The character tokenizer ends every token one column behind its start. -/
theorem Tokenizer.endOf_characters (before : List Char) (x : Char) :
  Tokenizer.characters.endOf before [x] = (Position.ofText before).after x
  := by
  by_cases hbreak : x = '\n'
  · subst hbreak
    rfl
  · rw [endOf_of_ne before (fun _ h => hbreak (List.singleton_inj.mp h)), Position.ofText_append]
    exact if_neg hbreak

/-- The end of a token is as many bytes from the beginning as the end of its piece. -/
theorem Tokenizer.offset_endOf (t : Tokenizer) (before piece : List Char) :
  (t.endOf before piece).offset = (Position.ofText (before ++ piece)).offset
  := by
  unfold endOf
  split
  · rw [Position.offset_ofText_append]
    rfl
  · rfl

theorem Tokenizer.isStorable_endOf (t : Tokenizer) {before piece : List Char}
    (h : (before ++ piece).length < UInt32.size) :
  (t.endOf before piece).IsStorable
  := by
  unfold endOf
  split
  · rw [List.length_append, List.length_singleton] at h
    have hline := Position.line_ofText_le before
    have hcolumn := Position.column_ofText_le before
    constructor
    · simp only [Position.after]
      omega
    · simp only [Position.after]
      omega
  · apply Position.isStorable_ofText h

/-- Items in the order of the rest of a text, given what stands before it. Each token covers a piece
of the rest, from the position counted from scratch up to where the tokenizer ends it, and an error
is at a position counted from scratch. -/
inductive ArePlaced (t : Tokenizer) : (before rest : List Char) → List TokenItem → Prop
  | nil {before rest : List Char} : ArePlaced t before rest []
  | token {before gap piece rest : List Char} {a : Token} {items : List TokenItem}
      (hstart : a.start = .ofText (before ++ gap)) (hstop : a.stop = t.endOf (before ++ gap) piece)
      (h : ArePlaced t (before ++ gap ++ piece) rest items) :
      ArePlaced t before (gap ++ (piece ++ rest)) (.ok a :: items)
  | error {before read rest : List Char} {e : TokenizeError}
      (hposition : e.position = .ofText (before ++ read)) :
      ArePlaced t before (read ++ rest) [.error e]

section Placed

variable {t : Tokenizer} {before rest : List Char} {items : List TokenItem}

/-- The end of the input at the end of a text. -/
theorem ArePlaced.endOfInput (before rest : List Char) :
  ArePlaced t before rest [.ok (.endOfInput (.ofText (before ++ rest)))]
  := by
  have hstop : (Token.endOfInput (.ofText (before ++ rest))).stop = t.endOf (before ++ rest) [] := by
    rw [Tokenizer.endOf_of_ne _ (fun _ h => by cases h), List.append_nil]
    rfl
  have hend : ArePlaced t before (rest ++ ([] ++ []))
      [.ok (.endOfInput (.ofText (before ++ rest)))] := .token rfl hstop .nil
  rw [List.append_nil, List.append_nil] at hend
  exact hend

/-- Where a tokenizer ends each token behind its piece, the items that a text is cut into are in
their places. -/
theorem IsCut.arePlaced {Gap Fault : List Char → List Char → Prop}
    {Lexeme : (before piece rest : List Char) → Terminal → TokenValue → Prop} {n : Nat}
    (hend : ∀ before piece, t.endOf before piece = .ofText (before ++ piece))
    (h : IsCut Gap Lexeme Fault n before rest items) :
  ArePlaced t before rest items
  := by
  induction h with
  | nil => exact .nil
  | token _ _ _ ih => exact .token rfl (hend _ _).symm ih
  | endOfInput => apply ArePlaced.endOfInput
  | error => exact .error rfl

/-- The characters of a text and its end are in their places. -/
theorem arePlaced_characters {c : Cursor} (h : c.Behind before) (n : Nat) :
  ArePlaced .characters before c.rest ((TokenStream.characters c).take n)
  := by
  induction n generalizing before c with
  | zero => exact .nil
  | succ n ih =>
      rw [TokenStream.take, TokenStream.next]
      cases hrest : c.rest with
      | nil =>
          have hend := ArePlaced.endOfInput (t := .characters) before []
          rw [List.append_nil] at hend
          simp only [TokenStream.take_nil, h.position]
          exact hend
      | cons x xs =>
          obtain ⟨hbehind, hskip⟩ := h.skip_length (show c.rest = [x] ++ xs from hrest)
          have hitems := ih hbehind
          rw [hskip, ← List.append_nil before] at hitems
          have hstop : c.position.after x = Tokenizer.characters.endOf (before ++ []) [x] := by
            rw [Tokenizer.endOf_characters, List.append_nil, h.position]
          have hplaced : ArePlaced .characters before ([] ++ ([x] ++ xs)) _ := .token
            (a := ⟨some (String.singleton x), c.position, c.position.after x, .none⟩)
            (by rw [h.position, List.append_nil]) hstop hitems
          exact hplaced

/-- Every stream of a tokenizer that reads a text has its items in their places. -/
theorem Tokenizer.Reads.arePlaced (ht : t.Reads) (text : String) (n : Nat) :
  ArePlaced t [] text.toList ((t.stream text).take n)
  := by
  have hbehind := Cursor.behind_ofText text
  cases ht with
  | characters => apply arePlaced_characters hbehind
  | words operators => apply (isCut_words operators hbehind n).arePlaced (fun _ _ => rfl)
  | keywords words => apply (isCut_keywords words hbehind n).arePlaced (fun _ _ => rfl)

/-- Every token covers a piece of the rest of the text. -/
theorem ArePlaced.exists_piece (h : ArePlaced t before rest items) {a : Token}
    (ha : .ok a ∈ items) :
  ∃ front piece back, rest = front ++ (piece ++ back) ∧ a.start = .ofText (before ++ front)
    ∧ a.stop = t.endOf (before ++ front) piece
  := by
  induction h with
  | nil => cases ha
  | @token before gap piece rest b items hstart hstop h ih =>
      rcases List.mem_cons.mp ha with heq | ha
      · cases heq
        exact ⟨gap, piece, rest, rfl, hstart, hstop⟩
      · obtain ⟨front, piece', back, rfl, hstart', hstop'⟩ := ih ha
        refine ⟨gap ++ piece ++ front, piece', back, ?_, ?_, ?_⟩
        · simp only [List.append_assoc]
        · simpa only [List.append_assoc] using hstart'
        · simpa only [List.append_assoc] using hstop'
  | error => cases List.mem_singleton.mp ha

/-- Every error is at a place in the rest of the text. -/
theorem ArePlaced.exists_read (h : ArePlaced t before rest items) {e : TokenizeError}
    (he : .error e ∈ items) :
  ∃ read back, rest = read ++ back ∧ e.position = .ofText (before ++ read)
  := by
  induction h with
  | nil => cases he
  | @token before gap piece rest b items hstart hstop h ih =>
      rcases List.mem_cons.mp he with heq | he
      · cases heq
      · obtain ⟨read, back, rfl, hposition⟩ := ih he
        refine ⟨gap ++ piece ++ read, back, ?_, ?_⟩
        · simp only [List.append_assoc]
        · simpa only [List.append_assoc] using hposition
  | @error before read rest e' hposition =>
      cases List.mem_singleton.mp he
      exact ⟨read, rest, rfl, hposition⟩

/-- A token ends where each later one begins, or before. -/
theorem ArePlaced.pairwise (h : ArePlaced t before rest items) :
  items.Pairwise (fun x y => ∀ a b, x = .ok a → y = .ok b → a.stop.offset ≤ b.start.offset)
  := by
  induction h with
  | nil => exact .nil
  | @token before gap piece rest a items hstart hstop h ih =>
      refine List.pairwise_cons.mpr ⟨?_, ih⟩
      rintro _ hmem _ b ⟨⟩ rfl
      obtain ⟨front, -, -, -, hstart', -⟩ := h.exists_piece hmem
      rw [hstop, hstart', t.offset_endOf, Position.offset_ofText_append _ front]
      apply Nat.le_add_right
  | error => exact List.pairwise_singleton _ _

end Placed

/-- In a text of less than `2 ^ 32` characters every token of a tokenizer that reads it covers a
piece: it starts at the position counted from scratch over what stands before the piece and ends
where the tokenizer ends the piece, at the byte behind it, and its text is the piece. Every error is
at the position counted from scratch over what was read. Tokens do not overlap, and all lines and
columns can be stored in 32 bits. -/
theorem Tokenizer.positions_exact {t : Tokenizer} (ht : t.Reads) {text : String}
    (hlength : text.length < UInt32.size) (n : Nat) :
  (∀ a, .ok a ∈ (t.stream text).take n → ∃ before piece rest,
      text.toList = before ++ (piece ++ rest) ∧ a.start = .ofText before
        ∧ a.stop = t.endOf before piece
        ∧ a.stop.offset = (Position.ofText (before ++ piece)).offset
        ∧ a.start.offset ≤ a.stop.offset ∧ a.textIn text = String.ofList piece
        ∧ a.start.IsStorable ∧ a.stop.IsStorable)
    ∧ (∀ e, .error e ∈ (t.stream text).take n → ∃ before rest,
      text.toList = before ++ rest ∧ e.position = .ofText before ∧ e.position.IsStorable)
    ∧ ((t.stream text).take n).Pairwise
      (fun x y => ∀ a b, x = .ok a → y = .ok b → a.stop.offset ≤ b.start.offset)
  := by
  have hplaced := ht.arePlaced text n
  rw [← String.length_toList] at hlength
  refine ⟨?_, ?_, hplaced.pairwise⟩
  · intro a ha
    obtain ⟨before, piece, rest, htext, hstart, hstop⟩ := hplaced.exists_piece ha
    rw [List.nil_append] at hstart hstop
    have hoffset : a.stop.offset = (Position.ofText (before ++ piece)).offset := by
      rw [hstop]
      apply t.offset_endOf
    rw [htext, ← List.append_assoc, List.length_append] at hlength
    have hpiece : (before ++ piece).length < UInt32.size := by omega
    have hbefore : before.length < UInt32.size := by
      rw [List.length_append] at hpiece
      omega
    refine ⟨before, piece, rest, htext, hstart, hstop, hoffset, ?_, ?_, ?_, ?_⟩
    · rw [hstart, hoffset, Position.offset_ofText_append]
      apply Nat.le_add_right
    · exact Token.textIn_eq htext (congrArg Position.offset hstart) hoffset
    · rw [hstart]
      apply Position.isStorable_ofText hbefore
    · rw [hstop]
      apply t.isStorable_endOf hpiece
  · intro e he
    obtain ⟨before, rest, htext, hposition⟩ := hplaced.exists_read he
    rw [List.nil_append] at hposition
    refine ⟨before, rest, htext, hposition, ?_⟩
    rw [hposition]
    apply Position.isStorable_ofText
    rw [htext, List.length_append] at hlength
    omega

/-- A line break read as a character, behind a character of two bytes. -/
theorem Tokenizer.positions_exact_lineBreak :
  Tokenizer.characters.Reads ∧ "é\nb".length < UInt32.size
    ∧ .ok ⟨some "\n", ⟨0, 1, 2⟩, ⟨0, 2, 3⟩, .none⟩ ∈ (Tokenizer.characters.stream "é\nb").take 9
    ∧ ∃ before piece rest, "é\nb".toList = before ++ (piece ++ rest)
      ∧ ⟨0, 1, 2⟩ = Position.ofText before ∧ ⟨0, 2, 3⟩ = Tokenizer.characters.endOf before piece
  := by
  have hlength : "é\nb".length < UInt32.size := by decide
  have hmem : .ok ⟨some "\n", ⟨0, 1, 2⟩, ⟨0, 2, 3⟩, .none⟩
      ∈ (Tokenizer.characters.stream "é\nb").take 9 := .tail _ (.head _)
  obtain ⟨hpieces, -⟩ := Tokenizer.positions_exact .characters hlength 9
  obtain ⟨before, piece, rest, htext, hstart, hstop, -⟩ := hpieces _ hmem
  exact ⟨.characters, hlength, hmem, before, piece, rest, htext, hstart, hstop⟩

end CaptureLR

import CaptureLR.Text.Blank
import CaptureLR.Token

/-!
# Reading a source text from left to right

A cursor stands between two characters of a text: it knows its position, the characters that
are still to be read and the last one that was read.
-/

namespace CaptureLR

/-- A place in a text that is being read. -/
structure Cursor where
  position : Position
  /-- The characters that are still to be read. -/
  rest : List Char
  /-- The character just read, if any. -/
  last : Option Char
deriving DecidableEq, Inhabited

namespace Cursor

/-- The cursor before the first character of a text. -/
def ofText (text : String) : Cursor := ⟨.start, text.toList, none⟩

/-- The cursor one character further, or the same one at the end of the text. -/
def bump (c : Cursor) : Cursor :=
  match c.rest with
  | [] => c
  | x :: xs => ⟨c.position.advance x, xs, some x⟩

/-- The cursor a number of characters further. -/
def skip : Nat → Cursor → Cursor
  | 0, c => c
  | n + 1, c => skip n c.bump

/-- The cursor behind the longest run of characters of a kind. -/
def skipWhile (p : Char → Bool) (c : Cursor) : Cursor :=
  c.skip (c.rest.takeWhile p).length

/-- The cursor before the next character that is not blank. -/
def skipBlanks (c : Cursor) : Cursor := c.skipWhile isBlank

/-- The token of some kind that covers the next characters. -/
def token (c : Cursor) (length : Nat) (kind : Terminal) (value : TokenValue) : Token :=
  ⟨some kind, c.position, (c.skip length).position, value⟩

/-- The text of the next characters. -/
def ahead (c : Cursor) (length : Nat) : String := String.ofList (c.rest.take length)

/-! ### Skipping -/

theorem rest_bump (c : Cursor) :
  c.bump.rest = c.rest.drop 1
  := by
  unfold bump
  cases h : c.rest <;> simp [h]

@[simp]
theorem rest_skip (n : Nat) (c : Cursor) :
  (c.skip n).rest = c.rest.drop n
  := by
  induction n generalizing c with
  | zero => rfl
  | succ n ih => rw [skip, ih, rest_bump, List.drop_drop, Nat.add_comm]

theorem rest_skipWhile (p : Char → Bool) (c : Cursor) :
  (c.skipWhile p).rest = c.rest.dropWhile p
  := by
  rw [skipWhile, rest_skip]
  induction c.rest with
  | nil => rfl
  | cons x xs ih =>
      by_cases h : p x = true
      · simp [h, ih]
      · simp [h]

/-- Skipping advances the position over the characters skipped. -/
theorem position_skip (n : Nat) (c : Cursor) :
  (c.skip n).position = c.position.advanceMany (c.rest.take n)
  := by
  induction n generalizing c with
  | zero => simp [skip, Position.advanceMany]
  | succ n ih =>
      rw [skip, ih]
      unfold bump
      cases h : c.rest with
      | nil => simp [h, Position.advanceMany]
      | cons x xs => simp [Position.advanceMany]

end Cursor

end CaptureLR

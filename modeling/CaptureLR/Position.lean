/-!
# Positions in a source text

A position counts lines and columns from zero, columns in characters, and knows its offset in
bytes of the encoded text.
-/

namespace CaptureLR

/-- A place between two characters of a source text. -/
@[ext]
structure Position where
  /-- The number of line breaks before it. -/
  line : Nat
  /-- The number of characters since the last line break. -/
  column : Nat
  /-- The number of bytes before it. -/
  offset : Nat
deriving DecidableEq, Inhabited, Repr

namespace Position

/-- The beginning of a text. -/
def start : Position := ⟨0, 0, 0⟩

/-- One column further on the same line, whatever the character. -/
def after (p : Position) (c : Char) : Position :=
  ⟨p.line, p.column + 1, p.offset + c.utf8Size⟩

/-- The position behind a character: a line break begins the next line. -/
def advance (p : Position) (c : Char) : Position :=
  if c = '\n' then ⟨p.line + 1, 0, p.offset + 1⟩ else p.after c

/-- The position behind a sequence of characters. -/
def advanceMany (p : Position) (cs : List Char) : Position := cs.foldl advance p

/-- Positions are compared by line, then column, then offset. -/
def compare (p q : Position) : Ordering :=
  (Ord.compare p.line q.line).then
    ((Ord.compare p.column q.column).then (Ord.compare p.offset q.offset))

/-- Line and column, as messages show them. -/
def display (p : Position) : String := s!"{p.line}:{p.column}"

/-- The position behind a whole text, counted from scratch: line breaks, characters behind
the last line break, and bytes. -/
def ofText (cs : List Char) : Position :=
  ⟨cs.count '\n', (cs.reverse.takeWhile (· ≠ '\n')).length,
    cs.foldl (fun n c => n + c.utf8Size) 0⟩

/-- Advancing over a text from its beginning arrives at the position counted from scratch. -/
theorem advanceMany_start (cs : List Char) :
  start.advanceMany cs = ofText cs
  := by
  suffices h : ∀ before : List Char, (ofText before).advanceMany cs = ofText (before ++ cs) by
    apply h []
  induction cs with
  | nil => simp [advanceMany]
  | cons c cs ih =>
      intro before
      have hstep : (ofText before).advance c = ofText (before ++ [c]) := by
        unfold advance ofText after
        by_cases h : c = '\n'
        · subst h
          simp [List.count_append]
          decide
        · simp [h, List.count_append]
      have hsplit : before ++ c :: cs = (before ++ [c]) ++ cs := by simp
      rw [hsplit, ← ih, ← hstep]
      rfl

end Position

end CaptureLR

/-!
# Words to be matched, longest first

A lexicon lists words by descending length, words of one length in the order in which they
were added, so the first word that begins a text is a longest one.
-/

namespace CaptureLR

/-- A list of words, longer words before shorter ones. -/
structure Lexicon where
  words : List String
  /-- No word stands before a longer one. -/
  descending : words.Pairwise (fun a b => b.length ≤ a.length)
deriving DecidableEq

/-- The list with a word added behind all words that are at least as long. -/
def addWord (w : String) : List String → List String
  | [] => [w]
  | x :: xs => if w.length ≤ x.length then x :: addWord w xs else w :: x :: xs

theorem mem_addWord {w y : String} {xs : List String} :
  y ∈ addWord w xs ↔ y = w ∨ y ∈ xs
  := by
  induction xs with
  | nil => simp [addWord]
  | cons x xs ih =>
      unfold addWord
      split
      · rw [List.mem_cons, ih, List.mem_cons]
        constructor
        · rintro (h | h | h)
          · right
            left
            apply h
          · left
            apply h
          · right
            right
            apply h
        · rintro (h | h | h)
          · right
            left
            apply h
          · left
            apply h
          · right
            right
            apply h
      · rw [List.mem_cons]

/-- Adding a word keeps longer words before shorter ones. -/
theorem descending_addWord (w : String) {xs : List String}
    (h : xs.Pairwise (fun a b => b.length ≤ a.length)) :
  (addWord w xs).Pairwise (fun a b => b.length ≤ a.length)
  := by
  induction xs with
  | nil => simp [addWord]
  | cons x xs ih =>
      rw [List.pairwise_cons] at h
      unfold addWord
      split
      · next hx =>
        rw [List.pairwise_cons]
        refine ⟨?_, ih h.2⟩
        intro y hy
        rcases mem_addWord.mp hy with rfl | hy'
        · apply hx
        · apply h.1 y hy'
      · next hx =>
        rw [List.pairwise_cons]
        refine ⟨?_, List.pairwise_cons.mpr h⟩
        intro y hy
        rcases List.mem_cons.mp hy with rfl | hy'
        · omega
        · have := h.1 y hy'
          omega

namespace Lexicon

/-- The lexicon without words. -/
def empty : Lexicon := ⟨[], List.Pairwise.nil⟩

instance : Inhabited Lexicon := ⟨empty⟩

/-- The lexicon with one more word. -/
def add (l : Lexicon) (w : String) : Lexicon := ⟨addWord w l.words, descending_addWord w l.descending⟩

/-- The lexicon of a list of words, added one after the other. -/
def ofList (ws : List String) : Lexicon := ws.foldl add empty

/-- The first listed word that a text begins with. -/
def match? (l : Lexicon) (text : List Char) : Option String :=
  l.words.find? (fun w => w.toList.isPrefixOf text)

end Lexicon

end CaptureLR

/-!
# Sets that remember the order of insertion

A set is the list of its elements in the order in which they first came in. Inserting an
element that is present changes nothing, so the list never repeats an element.
-/

universe u

namespace CaptureLR

/-- A finite set whose elements are listed in the order of their first insertion. -/
@[ext]
structure OrderedSet (α : Type u) where
  /-- The elements, oldest first. -/
  toList : List α
  /-- No element is listed twice. -/
  nodup : toList.Nodup
deriving DecidableEq

namespace OrderedSet

variable {α : Type u}

/-- The set without elements. -/
def empty : OrderedSet α := ⟨[], List.nodup_nil⟩

instance : EmptyCollection (OrderedSet α) := ⟨empty⟩

instance : Inhabited (OrderedSet α) := ⟨empty⟩

instance : Membership α (OrderedSet α) := ⟨fun s a => a ∈ s.toList⟩

instance [DecidableEq α] (a : α) (s : OrderedSet α) : Decidable (a ∈ s) :=
  inferInstanceAs (Decidable (a ∈ s.toList))

/-- The set of one element. -/
def singleton (a : α) : OrderedSet α := ⟨[a], by simp⟩

/-- The number of elements. -/
def size (s : OrderedSet α) : Nat := s.toList.length

/-- Whether there are no elements. -/
def isEmpty (s : OrderedSet α) : Bool := s.toList.isEmpty

/-- The elements a condition holds of, in their old order. -/
def filter (p : α → Bool) (s : OrderedSet α) : OrderedSet α :=
  ⟨s.toList.filter p, s.nodup.filter p⟩

theorem mem_toList {a : α} {s : OrderedSet α} :
  a ∈ s.toList ↔ a ∈ s
  := Iff.rfl

@[simp]
theorem toList_empty :
  (∅ : OrderedSet α).toList = []
  := rfl

@[simp]
theorem mem_filter {s : OrderedSet α} {p : α → Bool} {b : α} :
  b ∈ s.filter p ↔ b ∈ s ∧ p b = true
  := List.mem_filter

variable [DecidableEq α]

/-- The set with one more element, last unless it was there already. -/
def insert (s : OrderedSet α) (a : α) : OrderedSet α :=
  if h : a ∈ s.toList then s
  else ⟨s.toList ++ [a], List.nodup_append.mpr ⟨s.nodup, by simp, by
    intro x hx y hy
    rw [List.mem_singleton] at hy
    intro hxy
    subst hxy
    subst hy
    apply h hx⟩⟩

/-- The set with the elements of a list inserted one after the other. -/
def insertMany (s : OrderedSet α) (l : List α) : OrderedSet α := l.foldl insert s

/-- The set of the elements of a list, each at its first place. -/
def ofList (l : List α) : OrderedSet α := empty.insertMany l

/-- What is left of the second list when its elements are sought in the first one, each behind
the one before it, until one of them is not found. -/
def unmatched : List α → List α → List α
  | [], bs => bs
  | _, [] => []
  | a :: as, b :: bs => if a = b then unmatched as bs else unmatched as (b :: bs)

/-- Whatever is matched is in the first list. -/
theorem filter_unmatched (p : α → Bool) (as bs : List α) (h : ∀ a ∈ as, p a = false) :
  (unmatched as bs).filter p = bs.filter p
  := by
  induction as generalizing bs with
  | nil => rw [unmatched]
  | cons a as ih =>
      cases bs with
      | nil => rfl
      | cons b bs =>
          rw [unmatched]
          split
          · next hab =>
            subst hab
            rw [ih bs (fun x hx => h x (List.mem_cons_of_mem _ hx))]
            simp [h a]
          · apply ih (b :: bs) (fun x hx => h x (List.mem_cons_of_mem _ hx))

/-- The elements of the first set, followed by those of the second that are new. Elements that
both sets have in the same order are found in one pass. -/
def union (s t : OrderedSet α) : OrderedSet α where
  toList := s.toList ++ (unmatched s.toList t.toList).filter (fun a => decide (a ∉ s.toList))
  nodup := by
    rw [filter_unmatched _ _ _ (by simp)]
    apply List.nodup_append.mpr
    refine ⟨s.nodup, t.nodup.filter _, ?_⟩
    intro a ha b hb hab
    subst hab
    simp [ha] at hb

instance : Union (OrderedSet α) := ⟨union⟩

/-- Whether two sets share an element. Those of the smaller set are sought in the larger one. -/
def meets (s t : OrderedSet α) : Bool :=
  if s.size ≤ t.size then s.toList.any (fun a => decide (a ∈ t))
  else t.toList.any (fun a => decide (a ∈ s))

/-- Whether two sets have the same elements, in whatever order. -/
def sameElements (s t : OrderedSet α) : Bool :=
  s.toList.all (fun a => decide (a ∈ t)) && t.toList.all (fun a => decide (a ∈ s))

/-! ### The list of elements after each operation -/

theorem toList_insert (s : OrderedSet α) (a : α) :
  (s.insert a).toList = if a ∈ s then s.toList else s.toList ++ [a]
  := by
  unfold insert
  by_cases h : a ∈ s.toList
  · rw [dif_pos h, if_pos (mem_toList.mp h)]
  · rw [dif_neg h, if_neg (fun h' => h (mem_toList.mpr h'))]

@[simp]
theorem mem_insert {s : OrderedSet α} {a b : α} :
  b ∈ s.insert a ↔ b ∈ s ∨ b = a
  := by
  rw [← mem_toList, toList_insert]
  split
  · next h =>
    rw [mem_toList]
    constructor
    · exact Or.inl
    · rintro (h' | rfl)
      · apply h'
      · apply h
  · simp [mem_toList]

@[simp]
theorem mem_insertMany {s : OrderedSet α} {l : List α} {b : α} :
  b ∈ s.insertMany l ↔ b ∈ s ∨ b ∈ l
  := by
  induction l generalizing s with
  | nil => simp [insertMany]
  | cons a l ih =>
      have h : s.insertMany (a :: l) = (s.insert a).insertMany l := rfl
      rw [h, ih, mem_insert, List.mem_cons, or_assoc]

theorem toList_union (s t : OrderedSet α) :
  (s ∪ t).toList = s.toList ++ t.toList.filter (fun a => decide (a ∉ s))
  := by
  change s.toList ++ _ = _
  rw [filter_unmatched _ _ _ (by simp)]
  rfl

@[simp]
theorem mem_union {s t : OrderedSet α} {b : α} :
  b ∈ s ∪ t ↔ b ∈ s ∨ b ∈ t
  := by
  rw [← mem_toList, toList_union]
  by_cases h : b ∈ s <;> simp [h, mem_toList]

@[simp]
theorem meets_iff {s t : OrderedSet α} :
  s.meets t = true ↔ ∃ a, a ∈ s ∧ a ∈ t
  := by
  rw [meets]
  split
  · simp [mem_toList]
  · simp [mem_toList, and_comm]

end OrderedSet

end CaptureLR

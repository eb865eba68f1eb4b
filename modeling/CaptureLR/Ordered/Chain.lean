/-!
# Lists that are joined at either end

A chain is a list that is joined to another one by moving the elements of the shorter of the
two. It is held in two parts, the second one backwards; how the elements are divided between
them makes no difference, since a chain is determined by the list of its elements.
-/

namespace CaptureLR

universe u

/-- A list in two parts. -/
structure Parted (α : Type u) where
  /-- The first elements. -/
  front : List α
  /-- The other elements, the last one first. -/
  back : List α
  /-- The number of elements, by which the shorter of two lists is found. -/
  size : Nat

namespace Parted

variable {α : Type u}

/-- The list that is held. -/
def toList (p : Parted α) : List α := p.front ++ p.back.reverse

/-- Two lists joined: the shorter one is added at an end of the longer one. -/
def append (p q : Parted α) : Parted α :=
  if q.size ≤ p.size then ⟨p.front, q.toList.reverseAux p.back, p.size + q.size⟩
  else ⟨p.toList ++ q.front, q.back, p.size + q.size⟩

theorem toList_append (p q : Parted α) :
  (p.append q).toList = p.toList ++ q.toList
  := by
  rw [append]
  split
  · simp [toList, List.reverseAux_eq]
  · simp [toList]

/-- Two of them are the same if they hold the same list. -/
instance setoid (α : Type u) : Setoid (Parted α) where
  r p q := p.toList = q.toList
  iseqv := ⟨fun _ => rfl, fun h => h.symm, fun h h' => h.trans h'⟩

end Parted

/-- A list in two parts, however it is divided. -/
def Chain (α : Type u) : Type u := Quotient (Parted.setoid α)

namespace Chain

variable {α : Type u}

/-- The elements of a chain. -/
def toList : Chain α → List α := Quotient.lift Parted.toList (fun _ _ h => h)

/-- The chain of the elements of a list. -/
def ofList (l : List α) : Chain α := Quotient.mk _ ⟨l, [], l.length⟩

instance : EmptyCollection (Chain α) := ⟨ofList []⟩

instance : Inhabited (Chain α) := ⟨∅⟩

/-- A chain is determined by its elements. -/
theorem eq_of_toList_eq {c d : Chain α} (h : c.toList = d.toList) :
  c = d
  := by
  induction c using Quotient.inductionOn
  induction d using Quotient.inductionOn
  apply Quotient.sound h

/-- Two chains joined. -/
def append (c d : Chain α) : Chain α :=
  Quotient.lift₂ (fun p q => Quotient.mk (Parted.setoid α) (p.append q))
    (by
      intro p q p' q' hp hq
      apply Quotient.sound
      change (p.append q).toList = (p'.append q').toList
      rw [Parted.toList_append, Parted.toList_append]
      apply congr (congrArg _ hp) hq)
    c d

instance : Append (Chain α) := ⟨append⟩

@[simp]
theorem toList_ofList (l : List α) :
  (ofList l).toList = l
  := List.append_nil l

@[simp]
theorem toList_empty :
  (∅ : Chain α).toList = []
  := rfl

@[simp]
theorem toList_append (c d : Chain α) :
  (c ++ d).toList = c.toList ++ d.toList
  := by
  induction c using Quotient.inductionOn
  induction d using Quotient.inductionOn
  apply Parted.toList_append

end Chain

end CaptureLR

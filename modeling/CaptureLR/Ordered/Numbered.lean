/-!
# Maps from numbers, in ascending order

A map from natural numbers is the list of its entries in strictly ascending order of their
keys, so two maps with the same entries are equal.
-/

universe u

namespace CaptureLR

/-- A finite map from natural numbers whose entries are listed in ascending order. -/
@[ext]
structure NumberedMap (ν : Type u) where
  /-- The entries, smallest key first. -/
  toList : List (Nat × ν)
  /-- The keys ascend strictly. -/
  ascending : (toList.map Prod.fst).Pairwise (· < ·)
deriving DecidableEq

/-- The entries with a value stored under a number, at the place that keeps them ascending. -/
def putNumbered {ν : Type u} (k : Nat) (x : ν) : List (Nat × ν) → List (Nat × ν)
  | [] => [(k, x)]
  | e :: es =>
      if k < e.1 then (k, x) :: e :: es
      else if k = e.1 then (k, x) :: es
      else e :: putNumbered k x es

theorem mem_keys_putNumbered {ν : Type u} (k : Nat) (x : ν) (es : List (Nat × ν)) {l : Nat}
    (h : l ∈ (putNumbered k x es).map Prod.fst) :
  l = k ∨ l ∈ es.map Prod.fst
  := by
  induction es with
  | nil =>
      simp [putNumbered] at h
      left
      apply h
  | cons e es ih =>
      unfold putNumbered at h
      split at h
      · simpa using h
      · split at h
        · next hk =>
          simp only [List.map_cons, List.mem_cons] at h ⊢
          rcases h with h | h
          · left
            apply h
          · right
            right
            apply h
        · simp only [List.map_cons, List.mem_cons] at h ⊢
          rcases h with h | h
          · right
            left
            apply h
          · rcases ih h with h' | h'
            · left
              apply h'
            · right
              right
              apply h'

/-- Storing a value keeps the keys ascending. -/
theorem ascending_putNumbered {ν : Type u} (k : Nat) (x : ν) (es : List (Nat × ν))
    (h : (es.map Prod.fst).Pairwise (· < ·)) :
  ((putNumbered k x es).map Prod.fst).Pairwise (· < ·)
  := by
  induction es with
  | nil => simp [putNumbered]
  | cons e es ih =>
      rw [List.map_cons, List.pairwise_cons] at h
      unfold putNumbered
      split
      · next hk =>
        simp only [List.map_cons, List.pairwise_cons, List.mem_cons]
        refine ⟨?_, h.1, h.2⟩
        rintro a (rfl | ha)
        · apply hk
        · apply Nat.lt_trans hk (h.1 a ha)
      · split
        · next hk =>
          simp only [List.map_cons, List.pairwise_cons]
          subst hk
          apply h
        · next hlt hne =>
          simp only [List.map_cons, List.pairwise_cons]
          refine ⟨?_, ih h.2⟩
          intro a ha
          rcases mem_keys_putNumbered k x es ha with rfl | ha'
          · omega
          · apply h.1 a ha'

namespace NumberedMap

variable {ν : Type u}

/-- The map without entries. -/
def empty : NumberedMap ν := ⟨[], List.Pairwise.nil⟩

instance : EmptyCollection (NumberedMap ν) := ⟨empty⟩

instance : Inhabited (NumberedMap ν) := ⟨empty⟩

/-- The value stored under a number. -/
def get? (m : NumberedMap ν) (k : Nat) : Option ν := m.toList.lookup k

/-- Whether a value is stored under a number. -/
def contains (m : NumberedMap ν) (k : Nat) : Bool := (m.get? k).isSome

/-- The map with a value stored under a number, in place of an earlier one. -/
def insert (m : NumberedMap ν) (k : Nat) (x : ν) : NumberedMap ν :=
  ⟨putNumbered k x m.toList, ascending_putNumbered k x m.toList m.ascending⟩

/-- The map of a list of entries; of two entries with one number the later counts. -/
def ofList (es : List (Nat × ν)) : NumberedMap ν :=
  es.foldl (fun m e => m.insert e.1 e.2) empty

/-- The number of entries. -/
def size (m : NumberedMap ν) : Nat := m.toList.length

/-- The map with every value replaced by its image. -/
def map {μ : Type u} (f : ν → μ) (m : NumberedMap ν) : NumberedMap μ :=
  ⟨m.toList.map (fun e => (e.1, f e.2)), by
    have h : (m.toList.map (fun e => (e.1, f e.2))).map Prod.fst = m.toList.map Prod.fst := by
      rw [List.map_map]
      rfl
    rw [h]
    apply m.ascending⟩

/-- The map with every value replaced by its image, unless one of them has none; the failure is
that of the smallest key. -/
def mapExcept {ε μ : Type u} (f : ν → Except ε μ) (m : NumberedMap ν) :
    Except ε (NumberedMap μ) :=
  ofList <$> m.toList.mapM (fun e => (fun x => (e.1, x)) <$> f e.2)

theorem toList_insert (m : NumberedMap ν) (k : Nat) (x : ν) :
  (m.insert k x).toList = putNumbered k x m.toList
  := rfl

/-- Looking up in the entries after storing finds the stored value, and nothing else changes. -/
theorem lookup_putNumbered (k l : Nat) (x : ν) (es : List (Nat × ν)) :
  (putNumbered k x es).lookup l = if l = k then some x else es.lookup l
  := by
  have hne : ∀ {k l : Nat}, ¬ l = k → (l == k) = false := fun h => by simpa using h
  induction es with
  | nil =>
      by_cases h : l = k
      · simp [putNumbered, h]
      · simp [putNumbered, h]
  | cons e es ih =>
      obtain ⟨i, y⟩ := e
      unfold putNumbered
      split
      · by_cases h : l = k
        · simp [h]
        · simp [List.lookup_cons, h, hne h]
      · split
        · next hk =>
          obtain rfl : k = i := hk
          by_cases h : l = k
          · simp [h]
          · simp [List.lookup_cons, h, hne h]
        · next hk =>
          by_cases h : l = i
          · subst h
            have hl : ¬ l = k := fun he => hk he.symm
            simp [hl]
          · simp [List.lookup_cons, hne h, ih]

theorem get?_insert (m : NumberedMap ν) (k l : Nat) (x : ν) :
  (m.insert k x).get? l = if l = k then some x else m.get? l
  := lookup_putNumbered k l x m.toList

/-- The entries of a list stored under their indices are found there. -/
theorem get?_ofList_mapIdx {α : Type u} (f : Nat → α → ν) (xs : List α) (k : Nat) :
  (ofList (xs.mapIdx (fun i x => (i, f i x)))).get? k = xs[k]?.map (f k)
  := by
  suffices h : ∀ ys : List α, (ofList (ys.reverse.mapIdx (fun i x => (i, f i x)))).get? k
      = ys.reverse[k]?.map (f k) by
    rw [← xs.reverse_reverse]
    apply h
  intro ys
  induction ys with
  | nil => rfl
  | cons y ys ih =>
      rw [List.reverse_cons, List.mapIdx_concat, ofList, List.foldl_append, ← ofList]
      simp only [List.foldl_cons, List.foldl_nil, get?_insert]
      by_cases h : k = ys.reverse.length
      · simp [h]
      · rw [if_neg h, ih]
        rcases Nat.lt_or_gt_of_ne h with hlt | hgt
        · rw [List.getElem?_append_left hlt]
        · rw [List.getElem?_eq_none (Nat.le_of_lt hgt), List.getElem?_eq_none]
          rw [List.length_append]
          apply hgt

end NumberedMap

end CaptureLR

/-!
# Maps that remember the order of insertion

A map is the list of its entries in the order in which their keys first came in. Storing
under a present key replaces the value and keeps the place of the key.
-/

universe u v w

namespace CaptureLR

/-- A finite map whose entries are listed in the order of the first insertion of their keys. -/
@[ext]
structure OrderedMap (κ : Type u) (ν : Type v) where
  /-- The entries, oldest key first. -/
  toList : List (κ × ν)
  /-- No key is listed twice. -/
  nodupKeys : (toList.map Prod.fst).Nodup
deriving DecidableEq

/-- The entries with a value stored under a key: in place if the key is there, else last. -/
def putEntry {κ : Type u} {ν : Type v} [DecidableEq κ] (k : κ) (x : ν) :
    List (κ × ν) → List (κ × ν)
  | [] => [(k, x)]
  | e :: es => if e.1 = k then (k, x) :: es else e :: putEntry k x es

/-- Storing a value keeps the keys, or adds the new key at the end. -/
theorem keys_putEntry {κ : Type u} {ν : Type v} [DecidableEq κ] (k : κ) (x : ν)
    (es : List (κ × ν)) :
  (putEntry k x es).map Prod.fst
    = if k ∈ es.map Prod.fst then es.map Prod.fst else es.map Prod.fst ++ [k]
  := by
  induction es with
  | nil => simp [putEntry]
  | cons e es ih =>
      by_cases h : e.1 = k
      · simp [putEntry, h]
      · have h' : ¬ k = e.1 := fun hk => h hk.symm
        simp only [putEntry, if_neg h, List.map_cons, ih, List.mem_cons, h', false_or]
        split <;> rfl

namespace OrderedMap

variable {κ : Type u} {ν : Type v} {μ : Type w}

/-- The map without entries. -/
def empty : OrderedMap κ ν := ⟨[], List.nodup_nil⟩

instance : EmptyCollection (OrderedMap κ ν) := ⟨empty⟩

instance : Inhabited (OrderedMap κ ν) := ⟨empty⟩

/-- The keys, oldest first. -/
def keys (m : OrderedMap κ ν) : List κ := m.toList.map Prod.fst

/-- The values in the order of their keys. -/
def values (m : OrderedMap κ ν) : List ν := m.toList.map Prod.snd

/-- The number of entries. -/
def size (m : OrderedMap κ ν) : Nat := m.toList.length

/-- Whether there are no entries. -/
def isEmpty (m : OrderedMap κ ν) : Bool := m.toList.isEmpty

/-- The map with every value replaced by its image. -/
def map (f : ν → μ) (m : OrderedMap κ ν) : OrderedMap κ μ :=
  ⟨m.toList.map (fun e => (e.1, f e.2)), by
    have h : (m.toList.map (fun e => (e.1, f e.2))).map Prod.fst = m.toList.map Prod.fst := by
      rw [List.map_map]
      rfl
    rw [h]
    apply m.nodupKeys⟩

@[simp]
theorem toList_empty :
  (∅ : OrderedMap κ ν).toList = []
  := rfl

variable [DecidableEq κ]

/-- The value stored under a key. -/
def get? (m : OrderedMap κ ν) (k : κ) : Option ν := m.toList.lookup k

/-- Whether a value is stored under a key. -/
def contains (m : OrderedMap κ ν) (k : κ) : Bool := (m.get? k).isSome

/-- The map with a value stored under a key: a present key keeps its place, a new one comes
last. -/
def insert (m : OrderedMap κ ν) (k : κ) (x : ν) : OrderedMap κ ν :=
  ⟨putEntry k x m.toList, by
    rw [keys_putEntry]
    split
    · apply m.nodupKeys
    · next h =>
      rw [List.nodup_append]
      refine ⟨m.nodupKeys, by simp, ?_⟩
      intro a ha b hb
      rw [List.mem_singleton] at hb
      intro hab
      subst hab
      subst hb
      apply h ha⟩

/-- The map of a list of entries: every key at its first place with its last value. -/
def ofList (es : List (κ × ν)) : OrderedMap κ ν :=
  es.foldl (fun m e => m.insert e.1 e.2) empty

/-- Whether two maps have the same entries, in whatever order, comparing values by `same`. -/
def sameEntries (same : ν → ν → Bool) (m n : OrderedMap κ ν) : Bool :=
  m.size == n.size && m.toList.all (fun e => (n.get? e.1).any (same e.2))

/-! ### The keys after each operation -/

theorem toList_insert (m : OrderedMap κ ν) (k : κ) (x : ν) :
  (m.insert k x).toList = putEntry k x m.toList
  := rfl

theorem keys_insert (m : OrderedMap κ ν) (k : κ) (x : ν) :
  (m.insert k x).keys = if k ∈ m.keys then m.keys else m.keys ++ [k]
  := keys_putEntry k x m.toList

/-- Looking up in the entries after storing finds the stored value, and nothing else changes. -/
theorem lookup_putEntry (k l : κ) (x : ν) (es : List (κ × ν)) :
  (putEntry k x es).lookup l = if l = k then some x else es.lookup l
  := by
  induction es with
  | nil =>
      by_cases h : l = k
      · simp [putEntry, h]
      · have hb : (l == k) = false := by simpa using h
        simp [putEntry, List.lookup_cons, h, hb]
  | cons e es ih =>
      obtain ⟨a, y⟩ := e
      by_cases h : a = k
      · subst h
        by_cases hl : l = a
        · simp [putEntry, hl]
        · have hb : (l == a) = false := by simpa using hl
          simp [putEntry, List.lookup_cons, hl, hb]
      · by_cases hl : l = a
        · subst hl
          simp [putEntry, h]
        · have hb : (l == a) = false := by simpa using hl
          simp [putEntry, List.lookup_cons, h, hb, ih]

@[simp]
theorem get?_insert (m : OrderedMap κ ν) (k l : κ) (x : ν) :
  (m.insert k x).get? l = if l = k then some x else m.get? l
  := lookup_putEntry k l x m.toList

@[simp]
theorem get?_empty (k : κ) :
  (∅ : OrderedMap κ ν).get? k = none
  := rfl

@[simp]
theorem get?_map (f : ν → μ) (m : OrderedMap κ ν) (k : κ) :
  (m.map f).get? k = (m.get? k).map f
  := by
  obtain ⟨es, hes⟩ := m
  simp only [get?, map]
  clear hes
  induction es with
  | nil => rfl
  | cons e es ih =>
      obtain ⟨l, x⟩ := e
      simp only [List.map_cons, List.lookup_cons, ih]
      cases k == l <;> rfl

/-- The entries are the keys with the values stored under them. -/
theorem mem_toList_iff {m : OrderedMap κ ν} {k : κ} {x : ν} :
  (k, x) ∈ m.toList ↔ m.get? k = some x
  := by
  obtain ⟨es, hes⟩ := m
  simp only [get?]
  induction es with
  | nil => simp
  | cons e es ih =>
      obtain ⟨l, y⟩ := e
      rw [List.map_cons, List.nodup_cons] at hes
      by_cases h : k = l
      · subst h
        have hk : ∀ x, (k, x) ∉ es := fun x hx => hes.1 (List.mem_map.mpr ⟨(k, x), hx, rfl⟩)
        simp [hk, eq_comm]
      · have hb : (k == l) = false := by simpa using h
        simp [List.lookup_cons, hb, h, ih hes.2]

theorem mem_keys_iff {m : OrderedMap κ ν} {k : κ} :
  k ∈ m.keys ↔ ∃ x, m.get? k = some x
  := by
  rw [keys, List.mem_map]
  constructor
  · rintro ⟨⟨l, x⟩, h, rfl⟩
    exact ⟨x, mem_toList_iff.mp h⟩
  · rintro ⟨x, h⟩
    exact ⟨(k, x), mem_toList_iff.mpr h, rfl⟩

theorem contains_iff {m : OrderedMap κ ν} {k : κ} :
  m.contains k = true ↔ k ∈ m.keys
  := by
  rw [mem_keys_iff, contains, Option.isSome_iff_exists]

end OrderedMap

end CaptureLR

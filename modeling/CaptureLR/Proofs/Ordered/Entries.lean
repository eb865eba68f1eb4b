import CaptureLR.Ordered.Map
import CaptureLR.Ordered.Numbered
import Mathlib.Data.List.Forall2

/-!
# Maps and their entries

A map that is made of the entries of another one, in their order, is that map. Replacing the values
of a map where this can fail gives a map with the same keys.
-/

universe u v

namespace CaptureLR

/-- A list is mapped without failure if each of its members is. -/
theorem mapM_eq_ok_iff {ε : Type u} {α β : Type v} {f : α → Except ε β} {xs : List α}
    {ys : List β} :
  xs.mapM f = .ok ys ↔ List.Forall₂ (fun x y => f x = .ok y) xs ys
  := by
  induction xs generalizing ys with
  | nil =>
      rw [List.mapM_nil, List.forall₂_nil_left_iff]
      exact ⟨fun h => (Except.ok.inj h).symm, fun h => h ▸ rfl⟩
  | cons x xs ih =>
      rw [List.mapM_cons, List.forall₂_cons_left_iff]
      cases hx : f x with
      | error e =>
          constructor
          · intro h
            cases h
          · rintro ⟨y, ys', hy, -⟩
            cases hy
      | ok y =>
          cases hxs : xs.mapM f with
          | error e =>
              constructor
              · intro h
                cases h
              · rintro ⟨y, ys', -, hys, -⟩
                rw [← ih, hxs] at hys
                cases hys
          | ok ys' =>
              constructor
              · intro h
                cases h
                exact ⟨y, ys', rfl, ih.mp hxs, rfl⟩
              · rintro ⟨y', ys'', hy, hys, rfl⟩
                rw [← ih, hxs] at hys
                cases hy
                cases hys
                rfl

/-! ### Maps in the order of insertion -/

namespace OrderedMap

variable {κ : Type u} {ν : Type v} [DecidableEq κ]

/-- A value stored under a new key comes last. -/
theorem putEntry_of_not_mem {k : κ} {es : List (κ × ν)} (h : k ∉ es.map Prod.fst) (x : ν) :
  putEntry k x es = es ++ [(k, x)]
  := by
  induction es with
  | nil => rfl
  | cons e es ih =>
      rw [List.map_cons, List.mem_cons, not_or] at h
      rw [putEntry, if_neg (Ne.symm h.1), ih h.2]
      rfl

/-- Entries with new keys are added in their order. -/
theorem toList_foldl_insert {m : OrderedMap κ ν} {es : List (κ × ν)}
    (h : (m.keys ++ es.map Prod.fst).Nodup) :
  (es.foldl (fun m e => m.insert e.1 e.2) m).toList = m.toList ++ es
  := by
  induction es generalizing m with
  | nil => exact (List.append_nil _).symm
  | cons e es ih =>
      have hnew : e.1 ∉ m.keys := by
        intro hmem
        rw [List.nodup_append] at h
        apply h.2.2 e.1 hmem e.1 List.mem_cons_self rfl
      have hinsert : (m.insert e.1 e.2).toList = m.toList ++ [e] := putEntry_of_not_mem hnew e.2
      rw [List.foldl_cons, ih, hinsert, List.append_assoc, List.singleton_append]
      rw [keys, hinsert, List.map_append, List.append_assoc]
      apply h

theorem toList_ofList {es : List (κ × ν)} (h : (es.map Prod.fst).Nodup) :
  (ofList es).toList = es
  := toList_foldl_insert h

/-- What is stored in a map was stored before, or it is one of the entries added. -/
theorem get?_foldl_insert {m : OrderedMap κ ν} {es : List (κ × ν)} {k : κ} {x : ν}
    (h : (es.foldl (fun m e => m.insert e.1 e.2) m).get? k = some x) :
  m.get? k = some x ∨ (k, x) ∈ es
  := by
  induction es generalizing m with
  | nil =>
      left
      apply h
  | cons e es ih =>
      rcases ih h with hinsert | hmem
      · rw [get?_insert] at hinsert
        split at hinsert
        · next hk =>
          right
          cases hk
          cases hinsert
          apply List.mem_cons_self
        · left
          apply hinsert
      · right
        apply List.mem_cons_of_mem _ hmem

theorem mem_of_get?_ofList {es : List (κ × ν)} {k : κ} {x : ν}
    (h : (ofList es).get? k = some x) :
  (k, x) ∈ es
  := by
  apply (get?_foldl_insert h).resolve_left
  intro h
  cases h

/-- The map of its own entries is the map. -/
theorem ofList_toList (m : OrderedMap κ ν) :
  ofList m.toList = m
  := OrderedMap.ext (toList_ofList m.nodupKeys)

/-- The entries are the keys with what is stored under them. -/
theorem toList_eq_filterMap (m : OrderedMap κ ν) :
  m.toList = m.keys.filterMap (fun k => (m.get? k).map (Prod.mk k))
  := by
  rw [keys, List.filterMap_map]
  symm
  calc m.toList.filterMap ((fun k => (m.get? k).map (Prod.mk k)) ∘ Prod.fst)
      = m.toList.filterMap some := by
        apply List.filterMap_congr
        rintro ⟨k, x⟩ he
        rw [Function.comp_apply, mem_toList_iff.mp he, Option.map_some]
    _ = m.toList := List.filterMap_some

/-- A map is determined by its keys and by what is stored under them. -/
theorem eq_of_get?_eq {m m' : OrderedMap κ ν} (hkeys : m.keys = m'.keys)
    (h : ∀ k, m.get? k = m'.get? k) :
  m = m'
  := by
  apply OrderedMap.ext
  rw [toList_eq_filterMap, toList_eq_filterMap, hkeys]
  simp only [h]

end OrderedMap

/-! ### Maps from numbers -/

namespace NumberedMap

variable {ν μ : Type u}

/-- A value stored under a number above all others comes last. -/
theorem putNumbered_of_forall_lt {k : Nat} {es : List (Nat × ν)} (h : ∀ l ∈ es.map Prod.fst, l < k)
    (x : ν) :
  putNumbered k x es = es ++ [(k, x)]
  := by
  induction es with
  | nil => rfl
  | cons e es ih =>
      rw [List.map_cons, List.forall_mem_cons] at h
      rw [putNumbered, if_neg (Nat.lt_asymm h.1), if_neg (Nat.ne_of_gt h.1), ih h.2]
      rfl

theorem toList_foldl_insert {m : NumberedMap ν} {es : List (Nat × ν)}
    (h : ((m.toList ++ es).map Prod.fst).Pairwise (· < ·)) :
  (es.foldl (fun m e => m.insert e.1 e.2) m).toList = m.toList ++ es
  := by
  induction es generalizing m with
  | nil => exact (List.append_nil _).symm
  | cons e es ih =>
      have hlast : ∀ l ∈ m.toList.map Prod.fst, l < e.1 := by
        intro l hl
        rw [List.map_append, List.pairwise_append] at h
        apply h.2.2 l hl e.1 List.mem_cons_self
      have hinsert : (m.insert e.1 e.2).toList = m.toList ++ [e] :=
        putNumbered_of_forall_lt hlast e.2
      rw [List.foldl_cons, ih, hinsert, List.append_assoc, List.singleton_append]
      rw [hinsert, List.append_assoc]
      apply h

theorem toList_ofList {es : List (Nat × ν)} (h : (es.map Prod.fst).Pairwise (· < ·)) :
  (ofList es).toList = es
  := toList_foldl_insert h

/-- The map of its own entries is the map. -/
theorem ofList_toList (m : NumberedMap ν) :
  ofList m.toList = m
  := NumberedMap.ext (toList_ofList m.ascending)

theorem mem_putNumbered {k : Nat} {x : ν} {e : Nat × ν} {es : List (Nat × ν)}
    (h : e ∈ putNumbered k x es) :
  e = (k, x) ∨ e ∈ es
  := by
  induction es with
  | nil =>
      left
      apply List.mem_singleton.mp h
  | cons e' es ih =>
      unfold putNumbered at h
      split at h
      · apply List.mem_cons.mp h
      · split at h
        · rcases List.mem_cons.mp h with h | h
          · left
            apply h
          · right
            apply List.mem_cons_of_mem _ h
        · rcases List.mem_cons.mp h with h | h
          · right
            rw [h]
            apply List.mem_cons_self
          · apply (ih h).imp_right (List.mem_cons_of_mem _)

/-- The map of a list of entries has no other entries. -/
theorem mem_of_mem_ofList {e : Nat × ν} {es : List (Nat × ν)} (h : e ∈ (ofList es).toList) :
  e ∈ es
  := by
  suffices hfold : ∀ m : NumberedMap ν, e ∈ (es.foldl (fun m e => m.insert e.1 e.2) m).toList →
      e ∈ m.toList ∨ e ∈ es by
    apply (hfold empty h).resolve_left List.not_mem_nil
  clear h
  induction es with
  | nil =>
      intro m h
      left
      apply h
  | cons e' es ih =>
      intro m h
      rcases ih _ h with h | h
      · rcases mem_putNumbered h with rfl | h
        · right
          apply List.mem_cons_self
        · left
          apply h
      · right
        apply List.mem_cons_of_mem _ h

/-- The entries are the numbers with the values stored under them. -/
theorem mem_toList_iff {m : NumberedMap ν} {k : Nat} {x : ν} :
  (k, x) ∈ m.toList ↔ m.get? k = some x
  := by
  obtain ⟨es, hes⟩ := m
  simp only [get?]
  induction es with
  | nil => simp
  | cons e es ih =>
      obtain ⟨l, y⟩ := e
      rw [List.map_cons, List.pairwise_cons] at hes
      by_cases h : k = l
      · subst h
        have hk : ∀ x, (k, x) ∉ es :=
          fun x hx => Nat.lt_irrefl k (hes.1 k (List.mem_map.mpr ⟨(k, x), hx, rfl⟩))
        simp [hk, eq_comm]
      · have hb : (k == l) = false := by simpa using h
        simp [List.lookup_cons, hb, h, ih hes.2]

theorem contains_iff {m : NumberedMap ν} {k : Nat} :
  m.contains k = true ↔ ∃ x, (k, x) ∈ m.toList
  := by
  rw [contains, Option.isSome_iff_exists]
  simp only [mem_toList_iff]

theorem get?_map (f : ν → μ) (m : NumberedMap ν) (k : Nat) :
  (m.map f).get? k = (m.get? k).map f
  := by
  obtain ⟨es, hes⟩ := m
  simp only [map, get?]
  clear hes
  induction es with
  | nil => rfl
  | cons e es ih =>
      rw [List.map_cons, List.lookup_cons, List.lookup_cons, ih]
      split <;> rfl

/-- Replacing all values keeps the keys. -/
theorem contains_map (f : ν → μ) (m : NumberedMap ν) (k : Nat) :
  (m.map f).contains k = m.contains k
  := by
  rw [contains, contains, get?_map, Option.isSome_map]

/-- Values are replaced twice, the second time with or without failure, as they are at once. -/
theorem mapExcept_map {ε κ : Type u} (f : ν → μ) (g : μ → Except ε κ) (m : NumberedMap ν) :
  (m.map f).mapExcept g = m.mapExcept (fun x => g (f x))
  := by
  rw [mapExcept, mapExcept, map, List.mapM_map]
  rfl

section MapExcept

variable {ε : Type u} {f : ν → Except ε μ} {m : NumberedMap ν} {m' : NumberedMap μ}

/-- The values of a map are replaced without failure if each of them is, and the keys stay. -/
theorem mapExcept_eq_ok_iff :
  m.mapExcept f = .ok m'
    ↔ List.Forall₂ (fun e e' => e'.1 = e.1 ∧ f e.2 = .ok e'.2) m.toList m'.toList
  := by
  have hentry : ∀ (e : Nat × ν) (e' : Nat × μ), (fun x => (e.1, x)) <$> f e.2 = .ok e'
      ↔ e'.1 = e.1 ∧ f e.2 = .ok e'.2 := by
    intro e e'
    obtain ⟨k, y⟩ := e'
    cases f e.2 with
    | error err => simp [Functor.map, Except.map]
    | ok x => simp [Functor.map, Except.map, eq_comm]
  have hkeys : ∀ {ds : List (Nat × ν)} {es : List (Nat × μ)},
      List.Forall₂ (fun e e' => e'.1 = e.1 ∧ f e.2 = .ok e'.2) ds es →
        es.map Prod.fst = ds.map Prod.fst := by
    intro ds es h
    induction h with
    | nil => rfl
    | cons h _ ih => rw [List.map_cons, List.map_cons, h.1, ih]
  have hmapM : ∀ es : List (Nat × μ), m.toList.mapM (fun e => (fun x => (e.1, x)) <$> f e.2) = .ok es
      ↔ List.Forall₂ (fun e e' => e'.1 = e.1 ∧ f e.2 = .ok e'.2) m.toList es := by
    intro es
    rw [mapM_eq_ok_iff]
    simp only [hentry]
  rw [mapExcept]
  constructor
  · intro h
    cases hes : m.toList.mapM (fun e => (fun x => (e.1, x)) <$> f e.2) with
    | error e =>
        rw [hes] at h
        cases h
    | ok es =>
        rw [hes] at h
        cases h
        have hall := (hmapM es).mp hes
        rw [toList_ofList (hkeys hall ▸ m.ascending)]
        apply hall
  · intro h
    rw [(hmapM _).mpr h]
    exact congrArg Except.ok (ofList_toList m')

/-- A replaced value is found where its origin was. -/
theorem exists_of_mapExcept (h : m.mapExcept f = .ok m') {k : Nat} {y : μ}
    (hy : m'.get? k = some y) :
  ∃ x, m.get? k = some x ∧ f x = .ok y
  := by
  rw [mapExcept_eq_ok_iff] at h
  rw [← mem_toList_iff] at hy
  obtain ⟨i, hi, heq⟩ := List.getElem_of_mem hy
  have hi' : i < m.toList.length := h.length_eq ▸ hi
  obtain ⟨hk, hf⟩ := h.get hi' hi
  simp only [List.get_eq_getElem, heq] at hk hf
  refine ⟨m.toList[i].2, ?_, hf⟩
  rw [← mem_toList_iff, hk]
  apply List.getElem_mem

/-- A value is replaced where it was. -/
theorem get?_mapExcept (h : m.mapExcept f = .ok m') {k : Nat} {x : ν} (hx : m.get? k = some x) :
  ∃ y, m'.get? k = some y ∧ f x = .ok y
  := by
  rw [mapExcept_eq_ok_iff] at h
  rw [← mem_toList_iff] at hx
  obtain ⟨i, hi, heq⟩ := List.getElem_of_mem hx
  have hi' : i < m'.toList.length := h.length_eq ▸ hi
  obtain ⟨hk, hf⟩ := h.get hi hi'
  simp only [List.get_eq_getElem, heq] at hk hf
  refine ⟨m'.toList[i].2, ?_, hf⟩
  rw [← mem_toList_iff, ← hk]
  apply List.getElem_mem

/-- Nothing fails if no value does. -/
theorem exists_mapExcept (h : ∀ k x, m.get? k = some x → ∃ y, f x = .ok y) :
  ∃ m', m.mapExcept f = .ok m'
  := by
  obtain ⟨es, hes⟩ : ∃ es, m.toList.mapM (fun e => (fun x => (e.1, x)) <$> f e.2) = .ok es := by
    have hall : ∀ e ∈ m.toList, ∃ y, f e.2 = .ok y :=
      fun e he => h e.1 e.2 (mem_toList_iff.mp he)
    generalize m.toList = es at hall
    induction es with
    | nil => exact ⟨[], rfl⟩
    | cons e es ih =>
        rw [List.forall_mem_cons] at hall
        obtain ⟨y, hy⟩ := hall.1
        obtain ⟨es', hes'⟩ := ih hall.2
        rw [List.mapM_cons, hy, hes']
        exact ⟨_, rfl⟩
  rw [mapExcept, hes]
  exact ⟨_, rfl⟩

/-- Replaced values can be put back if each of them can. -/
theorem mapExcept_inverse {g : μ → Except ε ν} (h : m.mapExcept f = .ok m')
    (hg : ∀ k x y, m.get? k = some x → f x = .ok y → g y = .ok x) :
  m'.mapExcept g = .ok m
  := by
  rw [mapExcept_eq_ok_iff] at h ⊢
  rw [List.forall₂_iff_get] at h ⊢
  obtain ⟨hlength, hall⟩ := h
  refine ⟨hlength.symm, ?_⟩
  intro i hi' hi
  obtain ⟨hk, hf⟩ := hall i hi hi'
  refine ⟨hk.symm, hg (m.toList.get ⟨i, hi⟩).1 _ _ ?_ hf⟩
  rw [← mem_toList_iff]
  apply List.get_mem

end MapExcept

end NumberedMap

end CaptureLR

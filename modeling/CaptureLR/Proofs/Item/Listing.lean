import CaptureLR.State
import Mathlib.Data.List.Basic
import Mathlib.Data.List.Induction
import Mathlib.Data.List.Nodup

/-!
# What a list of items grants

A list of items is known by its cores and by the lookaheads it grants to each of them. This
module says what the operations on lists of items do to these: adding an item, sorting,
making a kernel and merging two kernels. In a list without repeated cores the order of items
is strict, so a kernel is determined by its cores up to the contexts.
-/

namespace CaptureLR

/-- One of the items has the core, and the lookahead in its context. -/
def Grants (items : List Item) (c : Core) (l : Lookahead) : Prop :=
  ∃ i ∈ items, i.core = c ∧ l ∈ i.follow

theorem mem_coresOf {items : List Item} {c : Core} :
  c ∈ coresOf items ↔ ∃ i ∈ items, i.core = c
  := List.mem_map

theorem Grants.mem_coresOf {items : List Item} {c : Core} {l : Lookahead} (h : Grants items c l) :
  c ∈ coresOf items
  := by
  obtain ⟨i, hi, hc, -⟩ := h
  apply CaptureLR.mem_coresOf.mpr ⟨i, hi, hc⟩

theorem grants_nil {c : Core} {l : Lookahead} :
  ¬ Grants [] c l
  := by
  rintro ⟨i, hi, -⟩
  cases hi

theorem grants_cons {i : Item} {items : List Item} {c : Core} {l : Lookahead} :
  Grants (i :: items) c l ↔ (i.core = c ∧ l ∈ i.follow) ∨ Grants items c l
  := by
  constructor
  · rintro ⟨j, hj, hc, hl⟩
    rcases List.mem_cons.mp hj with rfl | hj
    · exact Or.inl ⟨hc, hl⟩
    · exact Or.inr ⟨j, hj, hc, hl⟩
  · rintro (⟨hc, hl⟩ | ⟨j, hj, hc, hl⟩)
    · exact ⟨i, List.mem_cons_self, hc, hl⟩
    · exact ⟨j, List.mem_cons_of_mem _ hj, hc, hl⟩

/-- In a list without repeated cores an item has all that is granted to its core. -/
theorem mem_follow_iff_grants {items : List Item} (h : (coresOf items).Nodup) {i : Item}
    (hi : i ∈ items) {l : Lookahead} :
  l ∈ i.follow ↔ Grants items i.core l
  := by
  constructor
  · intro hl
    exact ⟨i, hi, rfl, hl⟩
  · rintro ⟨j, hj, hc, hl⟩
    obtain rfl := List.inj_on_of_nodup_map h hj hi hc
    apply hl

/-! ### Adding an item -/

/-- Adding an item grants what the item has, and nothing else. -/
theorem grants_addItem {item : Item} {items : List Item} {c : Core} {l : Lookahead} :
  Grants (addItem item items) c l ↔ Grants items c l ∨ (item.core = c ∧ l ∈ item.follow)
  := by
  induction items with
  | nil =>
      rw [addItem, grants_cons]
      simp [grants_nil]
  | cons i is ih =>
      unfold addItem
      by_cases h : i.core = item.core
      · rw [if_pos h, grants_cons, grants_cons]
        simp only [OrderedSet.mem_union, h]
        tauto
      · rw [if_neg h, grants_cons, grants_cons, ih]
        tauto

/-- Adding an item repeats no core. -/
theorem nodup_coresOf_addItem {item : Item} {items : List Item} (h : (coresOf items).Nodup) :
  (coresOf (addItem item items)).Nodup
  := by
  induction items with
  | nil => simp [addItem, coresOf]
  | cons i is ih =>
      unfold addItem
      rw [coresOf, List.map_cons, List.nodup_cons] at h
      by_cases hc : i.core = item.core
      · rw [if_pos hc, coresOf, List.map_cons, List.nodup_cons]
        apply h
      · rw [if_neg hc, coresOf, List.map_cons, List.nodup_cons]
        constructor
        · intro hm
          rcases mem_cores_addItem.mp hm with hm | hm
          · apply h.1 hm
          · apply hc hm
        · apply ih h.2

/-! ### The order of items -/

theorem Core.le_total (a b : Core) :
  (a.le b || b.le a) = true
  := by
  simp only [Core.le, Bool.or_eq_true, Bool.and_eq_true, decide_eq_true_eq]
  omega

theorem Core.le_antisymm {a b : Core} (h : a.le b = true) (h' : b.le a = true) :
  a = b
  := by
  obtain ⟨r, d⟩ := a
  obtain ⟨r', d'⟩ := b
  simp only [Core.le, Bool.or_eq_true, Bool.and_eq_true, decide_eq_true_eq, Core.mk.injEq] at *
  omega

/-- One core comes strictly before another one: it has a smaller rule, or the same rule and a
later dot. -/
def Core.Before (a b : Core) : Prop := a.rule < b.rule ∨ (a.rule = b.rule ∧ b.dot < a.dot)

theorem Core.before_iff {a b : Core} :
  a.Before b ↔ a.le b = true ∧ a ≠ b
  := by
  obtain ⟨r, d⟩ := a
  obtain ⟨r', d'⟩ := b
  simp only [Core.Before, Core.le, Bool.or_eq_true, Bool.and_eq_true, decide_eq_true_eq, ne_eq,
    Core.mk.injEq]
  omega

theorem Core.Before.trans {a b c : Core} (h : a.Before b) (h' : b.Before c) :
  a.Before c
  := by
  simp only [Core.Before] at *
  omega

/-- The cores of the items follow each other strictly in the order of items. -/
def Ordered (items : List Item) : Prop := (coresOf items).Pairwise Core.Before

theorem Ordered.nodup {items : List Item} (h : Ordered items) :
  (coresOf items).Nodup
  := List.Pairwise.imp (fun h => (Core.before_iff.mp h).2) h

theorem placeItem_perm (item : Item) (items : List Item) :
  (placeItem item items).Perm (item :: items)
  := by
  induction items with
  | nil => apply List.Perm.refl
  | cons i is ih =>
      unfold placeItem
      split
      · apply List.Perm.refl
      · exact (ih.cons i).trans (List.Perm.swap item i is)

theorem sortItems_perm (items : List Item) :
  (sortItems items).Perm items
  := by
  induction items with
  | nil => apply List.Perm.refl
  | cons i is ih => exact (placeItem_perm i (sortItems is)).trans (ih.cons i)

theorem coresOf_sortItems_perm (items : List Item) :
  (coresOf (sortItems items)).Perm (coresOf items)
  := (sortItems_perm items).map _

theorem mem_sortItems {items : List Item} {i : Item} :
  i ∈ sortItems items ↔ i ∈ items
  := (sortItems_perm items).mem_iff

@[simp]
theorem mem_coresOf_sortItems {items : List Item} {c : Core} :
  c ∈ coresOf (sortItems items) ↔ c ∈ coresOf items
  := (coresOf_sortItems_perm items).mem_iff

@[simp]
theorem grants_sortItems {items : List Item} {c : Core} {l : Lookahead} :
  Grants (sortItems items) c l ↔ Grants items c l
  := by
  simp only [Grants, mem_sortItems]

/-- Placing an item whose core is new keeps the order strict. -/
theorem Ordered.placeItem {items : List Item} (h : Ordered items) {item : Item}
    (hitem : item.core ∉ coresOf items) :
  Ordered (placeItem item items)
  := by
  induction items with
  | nil => apply List.pairwise_singleton
  | cons i is ih =>
      obtain ⟨hi, his⟩ := List.pairwise_cons.mp h
      have hne : item.core ≠ i.core := List.ne_of_not_mem_cons hitem
      have hnot : item.core ∉ coresOf is := List.not_mem_of_not_mem_cons hitem
      rw [CaptureLR.placeItem]
      split
      · next hle =>
        have hb : item.core.Before i.core := Core.before_iff.mpr ⟨hle, hne⟩
        apply List.pairwise_cons.mpr
        refine ⟨?_, h⟩
        intro c hc
        rcases List.mem_cons.mp hc with rfl | hc
        · apply hb
        · apply hb.trans (hi c hc)
      · next hle =>
        have hb : i.core.Before item.core := by
          apply Core.before_iff.mpr
          refine ⟨?_, fun h => hne h.symm⟩
          have := Core.le_total item.core i.core
          simpa [hle] using this
        apply List.pairwise_cons.mpr
        refine ⟨?_, ih his hnot⟩
        intro c hc
        rcases List.mem_cons.mp (((placeItem_perm item is).map Item.core).mem_iff.mp hc) with rfl | hc
        · apply hb
        · apply hi c hc

/-- Sorting items without repeated cores puts them in strict order. -/
theorem ordered_sortItems {items : List Item} (h : (coresOf items).Nodup) :
  Ordered (sortItems items)
  := by
  induction items with
  | nil => apply List.Pairwise.nil
  | cons i is ih =>
      obtain ⟨hi, his⟩ := List.nodup_cons.mp h
      apply (ih his).placeItem
      rw [mem_coresOf_sortItems]
      apply hi

/-- Cores in strict order are determined by their set. -/
theorem Ordered.coresOf_eq {as bs : List Item} (ha : Ordered as) (hb : Ordered bs)
    (h : ∀ c, c ∈ coresOf as ↔ c ∈ coresOf bs) :
  coresOf as = coresOf bs
  := by
  have hp : (coresOf as).Perm (coresOf bs) := (List.perm_ext_iff_of_nodup ha.nodup hb.nodup).mpr h
  apply List.Perm.eq_of_pairwise _ ha hb hp
  intro a b _ _ hab hba
  apply Core.le_antisymm (Core.before_iff.mp hab).1 (Core.before_iff.mp hba).1

/-! ### Kernels -/

theorem kernelOf_concat (items : List Item) (item : Item) :
  kernelOf (items ++ [item]) = insertItem item (kernelOf items)
  := by
  simp [kernelOf]

/-- A kernel has its items in strict order. -/
theorem ordered_kernelOf (items : List Item) :
  Ordered (kernelOf items)
  := by
  induction items using List.reverseRecOn with
  | nil => apply List.Pairwise.nil
  | append_singleton items item ih =>
      rw [kernelOf_concat]
      apply ordered_sortItems (nodup_coresOf_addItem ih.nodup)

/-- A kernel has the cores of the items it is made of. -/
@[simp]
theorem mem_coresOf_kernelOf {items : List Item} {c : Core} :
  c ∈ coresOf (kernelOf items) ↔ c ∈ coresOf items
  := by
  induction items using List.reverseRecOn with
  | nil => apply Iff.rfl
  | append_singleton items item ih =>
      rw [kernelOf_concat, insertItem, mem_coresOf_sortItems, mem_cores_addItem, ih, coresOf,
        coresOf, List.map_append, List.mem_append]
      simp

/-- A kernel grants what the items it is made of grant. -/
@[simp]
theorem grants_kernelOf {items : List Item} {c : Core} {l : Lookahead} :
  Grants (kernelOf items) c l ↔ Grants items c l
  := by
  induction items using List.reverseRecOn with
  | nil => apply Iff.rfl
  | append_singleton items item ih =>
      rw [kernelOf_concat, insertItem, grants_sortItems, grants_addItem, ih]
      simp only [Grants, List.mem_append, List.mem_singleton]
      constructor
      · rintro (⟨i, hi, h⟩ | h)
        · exact ⟨i, Or.inl hi, h⟩
        · exact ⟨item, Or.inr rfl, h⟩
      · rintro ⟨i, hi | rfl, h⟩
        · exact Or.inl ⟨i, hi, h⟩
        · right
          apply h

end CaptureLR

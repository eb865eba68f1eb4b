import CaptureLR.Ordered.Set
import Mathlib.Data.List.Basic
import Mathlib.Data.List.Perm.Subperm

/-!
# First occurrences

The set of a list has the elements of the list in the order in which they first occur there. What
occurs again adds nothing, so a list can be replaced by its first occurrences before its elements
are replaced by lists of their own.
-/

universe u v

namespace CaptureLR

namespace OrderedSet

variable {α : Type u} [DecidableEq α] {β : Type v} [DecidableEq β] {s : OrderedSet α}

theorem insert_of_mem {a : α} (h : a ∈ s) :
  s.insert a = s
  := by
  apply OrderedSet.ext
  rw [toList_insert, if_pos h]

theorem insertMany_append (s : OrderedSet α) (as bs : List α) :
  s.insertMany (as ++ bs) = (s.insertMany as).insertMany bs
  := List.foldl_append

/-- What is there already adds nothing. -/
theorem insertMany_of_forall_mem {as : List α} (h : ∀ a ∈ as, a ∈ s) :
  s.insertMany as = s
  := by
  induction as with
  | nil => rfl
  | cons a as ih =>
      rw [List.forall_mem_cons] at h
      rw [insertMany, List.foldl_cons, insert_of_mem h.1]
      apply ih h.2

/-- What is inserted comes behind what was there. -/
theorem prefix_insertMany (s : OrderedSet α) (as : List α) :
  s.toList <+: (s.insertMany as).toList
  := by
  induction as generalizing s with
  | nil => apply List.prefix_rfl
  | cons a as ih =>
      apply List.IsPrefix.trans _ (ih (s.insert a))
      rw [toList_insert]
      split
      · apply List.prefix_rfl
      · apply List.prefix_append

theorem mem_ofList {as : List α} {a : α} :
  a ∈ (ofList as).toList ↔ a ∈ as
  := by
  rw [mem_toList, ofList, mem_insertMany, or_iff_right]
  exact List.not_mem_nil

/-- The last element of a list comes last if it occurs nowhere before. -/
theorem toList_ofList_concat (as : List α) (a : α) :
  (ofList (as ++ [a])).toList
    = if a ∈ (ofList as).toList then (ofList as).toList else (ofList as).toList ++ [a]
  := by
  rw [ofList, insertMany_append]
  apply toList_insert

/-- The first occurrences in a beginning of a list are a beginning of those in the list. -/
theorem prefix_ofList {as bs : List α} (h : as <+: bs) :
  (ofList as).toList <+: (ofList bs).toList
  := by
  obtain ⟨cs, rfl⟩ := h
  rw [ofList, ofList, insertMany_append]
  apply prefix_insertMany

/-- What the elements of a list are replaced by does not depend on their further occurrences. -/
theorem insertMany_flatMap_ofList (s : OrderedSet β) (f : α → List β) (as : List α) :
  s.insertMany ((ofList as).toList.flatMap f) = s.insertMany (as.flatMap f)
  := by
  have hinsert : ∀ (t : OrderedSet α) (a : α), s.insertMany ((t.insert a).toList.flatMap f)
      = (s.insertMany (t.toList.flatMap f)).insertMany (f a) := by
    intro t a
    rw [toList_insert]
    split
    · next hmem =>
      symm
      apply insertMany_of_forall_mem
      intro b hb
      apply mem_insertMany.mpr
      right
      exact List.mem_flatMap.mpr ⟨a, hmem, hb⟩
    · rw [List.flatMap_append, List.flatMap_singleton, insertMany_append]
  have hmany : ∀ t : OrderedSet α, s.insertMany ((t.insertMany as).toList.flatMap f)
      = (s.insertMany (t.toList.flatMap f)).insertMany (as.flatMap f) := by
    induction as with
    | nil => exact fun _ => rfl
    | cons a as ih =>
        intro t
        rw [List.flatMap_cons, insertMany_append, ← hinsert]
        apply ih (t.insert a)
  apply hmany empty

/-- Elements are inserted only where they first occur. -/
theorem insertMany_toList_ofList (s : OrderedSet α) (as : List α) :
  s.insertMany (ofList as).toList = s.insertMany as
  := by
  have h := insertMany_flatMap_ofList s (fun a => [a]) as
  rwa [List.flatMap_singleton', List.flatMap_singleton'] at h

/-- The first occurrences in the parts of a list suffice to find those in the list. -/
theorem insertMany_flatMap_toList_ofList {γ : Type v} (s : OrderedSet α) (f : γ → List α)
    (cs : List γ) :
  s.insertMany (cs.flatMap fun c => (ofList (f c)).toList) = s.insertMany (cs.flatMap f)
  := by
  induction cs generalizing s with
  | nil => rfl
  | cons c cs ih =>
      rw [List.flatMap_cons, List.flatMap_cons, insertMany_append, insertMany_append, ih,
        insertMany_toList_ofList]

/-- Where nothing occurs twice, all occurrences are first ones. -/
theorem toList_insertMany_of_nodup {as : List α} (h : (s.toList ++ as).Nodup) :
  (s.insertMany as).toList = s.toList ++ as
  := by
  induction as generalizing s with
  | nil => exact (List.append_nil _).symm
  | cons a as ih =>
      have hinsert : (s.insert a).toList = s.toList ++ [a] := by
        rw [toList_insert, if_neg]
        intro ha
        obtain ⟨-, -, hne⟩ := List.nodup_append.mp h
        apply hne a ha a List.mem_cons_self rfl
      rw [insertMany, List.foldl_cons, ← insertMany, ih, hinsert, List.append_assoc]
      · rfl
      · rw [hinsert, List.append_assoc]
        apply h

theorem toList_ofList_of_nodup {as : List α} (h : as.Nodup) :
  (ofList as).toList = as
  := toList_insertMany_of_nodup (s := empty) h

end OrderedSet

end CaptureLR

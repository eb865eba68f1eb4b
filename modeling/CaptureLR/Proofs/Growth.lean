import CaptureLR.Ordered.Set
import Mathlib.Algebra.Order.BigOperators.Group.List
import Mathlib.Algebra.Order.Ring.Nat
import Mathlib.Data.List.Perm.Subperm

/-!
# Values that grow until they cannot

First sets, closures and automata are computed by steps that leave a value alone or make it
heavier. If the weight of a value is bounded, such steps come to a rest, and a sequence of
steps that changes nothing as a whole changes nothing at any of its steps.
-/

universe u v

namespace CaptureLR

variable {α : Type u} {β : Type v}

/-- The second value is the first one, or it weighs more. -/
def GrowsTo (weight : α → Nat) (x y : α) : Prop := y = x ∨ weight x < weight y

namespace GrowsTo

variable {weight : α → Nat} {x y z : α}

theorem refl (weight : α → Nat) (x : α) :
  GrowsTo weight x x
  := Or.inl rfl

theorem weight_le (h : GrowsTo weight x y) :
  weight x ≤ weight y
  := by
  obtain rfl | h := h
  · apply Nat.le_refl
  · apply Nat.le_of_lt h

theorem trans (h : GrowsTo weight x y) (h' : GrowsTo weight y z) :
  GrowsTo weight x z
  := by
  obtain rfl | h := h
  · apply h'
  · right
    apply Nat.lt_of_lt_of_le h h'.weight_le

/-- What grows and comes back did not change on the way. -/
theorem eq_of_return (h : GrowsTo weight x y) (h' : GrowsTo weight y z) (hz : z = x) :
  y = x
  := by
  obtain rfl | h := h
  · rfl
  · subst hz
    exact absurd h'.weight_le (Nat.not_le_of_lt h)

/-- Growing steps taken one after the other make a growing step. -/
theorem foldl {f : α → β → α} (hf : ∀ x b, GrowsTo weight x (f x b)) (bs : List β) (x : α) :
  GrowsTo weight x (bs.foldl f x)
  := by
  induction bs generalizing x with
  | nil => apply refl weight x
  | cons b bs ih => exact (hf x b).trans (ih (f x b))

/-- If growing steps change nothing as a whole, none of them changes anything. -/
theorem eq_of_foldl_eq {f : α → β → α} (hf : ∀ x b, GrowsTo weight x (f x b)) {bs : List β}
    {x : α} (h : bs.foldl f x = x) {b : β} (hb : b ∈ bs) :
  f x b = x
  := by
  induction bs with
  | nil => cases hb
  | cons a bs ih =>
      rw [List.foldl_cons] at h
      have ha : f x a = x := (hf x a).eq_of_return (foldl hf bs (f x a)) h
      rcases List.mem_cons.mp hb with rfl | hb
      · apply ha
      · rw [ha] at h
        apply ih h hb

end GrowsTo

/-- Passes over a value that are repeated until one changes nothing come to a rest if more of
them are allowed than the weight of the value can grow. -/
theorem pass_passes_eq [DecidableEq α] {weight : α → Nat} {pass : α → α} {passes : Nat → α → α}
    (hsucc : ∀ n x, passes (n + 1) x = if pass x = x then x else passes n (pass x))
    (hgrow : ∀ x, GrowsTo weight x (pass x)) {P : α → Prop} (hP : ∀ x, P x → P (pass x))
    {bound : Nat} (hbound : ∀ x, P x → weight x ≤ bound) (n : Nat) {x : α} (hx : P x)
    (hn : bound < weight x + n) :
  pass (passes n x) = passes n x
  := by
  induction n generalizing x with
  | zero =>
      have := hbound x hx
      omega
  | succ n ih =>
      rw [hsucc]
      by_cases h : pass x = x
      · rw [if_pos h, h]
      · rw [if_neg h]
        apply ih (hP x hx)
        have := (hgrow x).resolve_left h
        omega

/-- Passes keep what each of them keeps. -/
theorem passes_induction [DecidableEq α] {pass : α → α} {passes : Nat → α → α}
    (hzero : ∀ x, passes 0 x = x)
    (hsucc : ∀ n x, passes (n + 1) x = if pass x = x then x else passes n (pass x))
    {P : α → Prop} (hP : ∀ x, P x → P (pass x)) (n : Nat) {x : α} (hx : P x) :
  P (passes n x)
  := by
  induction n generalizing x with
  | zero =>
      rw [hzero]
      apply hx
  | succ n ih =>
      rw [hsucc]
      split
      · apply hx
      · apply ih (hP x hx)

/-- Passes leave a value at rest as it is. -/
theorem passes_eq_of_rest [DecidableEq α] {pass : α → α} {passes : Nat → α → α}
    (hzero : ∀ x, passes 0 x = x)
    (hsucc : ∀ n x, passes (n + 1) x = if pass x = x then x else passes n (pass x)) {x : α}
    (h : pass x = x) (n : Nat) :
  passes n x = x
  := by
  cases n with
  | zero => apply hzero
  | succ n => rw [hsucc, if_pos h]

/-- Passes that are repeated until one changes nothing are as many as are taken, and each of them
but the last one changes something. -/
theorem exists_passes_eq_iterate [DecidableEq α] {pass : α → α} {passes : Nat → α → α}
    (hzero : ∀ x, passes 0 x = x)
    (hsucc : ∀ n x, passes (n + 1) x = if pass x = x then x else passes n (pass x)) (n : Nat)
    (x : α) :
  ∃ k, passes n x = pass^[k] x ∧ ∀ j < k, pass^[j + 1] x ≠ pass^[j] x
  := by
  induction n generalizing x with
  | zero => exact ⟨0, hzero x, nofun⟩
  | succ n ih =>
      rw [hsucc]
      by_cases h : pass x = x
      · rw [if_pos h]
        exact ⟨0, rfl, nofun⟩
      · rw [if_neg h]
        obtain ⟨k, hk, hchanges⟩ := ih (pass x)
        refine ⟨k + 1, hk, ?_⟩
        rintro (_ | j) hj
        · apply h
        · apply hchanges j (Nat.lt_of_succ_lt_succ hj)

/-- Weights are added up as sums. -/
theorem foldr_add_eq_sum (weight : α → Nat) (l : List α) :
  l.foldr (fun x n => weight x + n) 0 = (l.map weight).sum
  := by
  rw [List.sum, List.foldr_map]

/-- Bounded weights add up to no more than the bound for each member. -/
theorem sum_map_le {weight : α → Nat} {l : List α} {bound : Nat} (h : ∀ x ∈ l, weight x ≤ bound) :
  (l.map weight).sum ≤ l.length * bound
  := by
  rw [← List.length_map weight]
  apply List.sum_le_card_nsmul
  intro n hn
  obtain ⟨x, hx, rfl⟩ := List.mem_map.mp hn
  apply h x hx

/-- A change of one member of a list that leaves the member alone or makes it heavier does the
same to the list. -/
theorem growsTo_modify {weight : α → Nat} {f : α → α} (hf : ∀ x, GrowsTo weight x (f x))
    (l : List α) (i : Nat) :
  GrowsTo (fun l => (l.map weight).sum) l (l.modify i f)
  := by
  induction l generalizing i with
  | nil =>
      rw [List.modify_nil]
      apply GrowsTo.refl
  | cons x xs ih =>
      cases i with
      | zero =>
          rw [List.modify_zero_cons]
          obtain h | h := hf x
          · exact Or.inl (by rw [h])
          · exact Or.inr (by simpa using h)
      | succ i =>
          rw [List.modify_succ_cons]
          obtain h | h := ih i
          · exact Or.inl (by rw [h])
          · exact Or.inr (by simpa using h)

/-! ### Ordered sets -/

namespace OrderedSet

/-- A set has no more elements than a list that has them all. -/
theorem size_le_of_subset {s : OrderedSet α} {l : List α} (h : ∀ a ∈ s, a ∈ l) :
  s.size ≤ l.length
  := (s.nodup.subperm h).length_le

variable [DecidableEq α]

/-- Nothing is gained from a set whose elements are all there. -/
theorem union_eq_left {s t : OrderedSet α} (h : ∀ a ∈ t, a ∈ s) :
  s ∪ t = s
  := by
  apply OrderedSet.ext
  rw [toList_union, List.filter_eq_nil_iff.mpr, List.append_nil]
  intro a ha
  simpa using h a (mem_toList.mp ha)

/-- A union leaves the first set alone or makes it larger. -/
theorem growsTo_union (s t : OrderedSet α) :
  GrowsTo size s (s ∪ t)
  := by
  by_cases h : ∀ a ∈ t, a ∈ s
  · left
    apply union_eq_left h
  · push Not at h
    obtain ⟨a, ha, hs⟩ := h
    right
    rw [size, size, toList_union, List.length_append]
    have hmem : a ∈ t.toList.filter (fun a => decide (a ∉ s)) := by
      apply List.mem_filter.mpr
      exact ⟨ha, by simpa using hs⟩
    have := List.length_pos_of_mem hmem
    omega

end OrderedSet

end CaptureLR

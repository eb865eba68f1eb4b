import CaptureLR.Proofs.Automaton.Indexing
import CaptureLR.Proofs.Automaton.Reaching

/-!
# What is left when states are dropped

The states that are left are those that shifts lead to from the initial state, in their old order,
and the numbering of what is left is an isomorphism: a state has the kernel and the lane that it
had, accepts if it did, and its actions stand under the same columns in the same order, with the
targets of its shifts under their new numbers.
-/

open Relation (ReflTransGen)

namespace CaptureLR

namespace Builder

variable {startRule : Nat} {states states' : Array State} {b : Builder} {kept : List Nat} {i : Nat}

/-! ### Builders with states -/

/-- In the middle of a construction there is an initial state. -/
theorem Arises.size_pos (h : Arises startRule b) :
  0 < b.states.size
  := by
  induction h with
  | initial => exact Nat.zero_lt_one
  | @insert b _ items lane ih =>
      simp only [Builder.insert]
      split
      · rw [size_merge]
        apply ih
      · rw [states_push, Array.size_push]
        apply Nat.succ_pos
  | @alter b _ i f ih =>
      rw [Builder.alter, Array.size_modify]
      apply ih
  | pop _ hp ih =>
      rw [states_pop hp]
      apply ih

/-- In the middle of a construction, states carry the numbers of their places. -/
theorem Arises.numbered (h : Arises startRule b) :
  Numbered b.states
  := by
  induction h with
  | initial =>
      apply Numbered.insert
      intro i s hs
      cases hs
  | insert _ items lane ih => apply ih.insert
  | alter _ i f ih => apply ih.alter
  | pop _ hp ih =>
      rw [states_pop hp]
      apply ih

/-! ### The states that are kept -/

/-- Every shift leads to a state that is there. -/
def ShiftsStay (states : Array State) : Prop :=
  ∀ i t, Leads states i t → t < states.size

theorem shiftsStay_iff :
  ShiftsStay states ↔ ∀ i < states.size, ∀ t ∈ targets states i, t < states.size
  := by
  constructor
  · intro h i _ t ht
    apply h i t (leads_iff.mpr ht)
  · rintro h i t ⟨s, col, hs, ha⟩
    obtain ⟨hi, -⟩ := Array.getElem?_eq_some_iff.mp hs
    apply h i hi t (leads_iff.mp ⟨s, col, hs, ha⟩)

instance : Decidable (ShiftsStay states) := decidable_of_iff _ shiftsStay_iff.symm

section Stay

variable (h : 0 < states.size) (hstay : ShiftsStay states)

include hstay in
theorem ShiftsStay.targets_lt :
  ∀ i, ∀ t ∈ targets states i, t < states.size
  := fun i t ht => hstay i t (leads_iff.mpr ht)

include h hstay in
/-- The states that are kept are those that shifts lead to from the initial state. -/
theorem mem_keptNumbers_iff :
  i ∈ keptNumbers states ↔ ReflTransGen (Leads states) 0 i
  := by
  obtain ⟨hzero, hfrontier⟩ := frontier_reachable h hstay.targets_lt
  rw [(keeps_keptNumbers h hstay.targets_lt).mem]
  constructor
  · apply leads_of_mem_reachable
  · intro hpath
    induction hpath with
    | refl => apply hzero
    | tail _ hstep ih => apply hfrontier.mem_of_mem_targets ih (leads_iff.mp hstep)

end Stay

theorem keptNumbers_lt (hi : i ∈ keptNumbers states) :
  i < states.size
  := List.mem_range.mp (List.mem_filter.mp hi).1

theorem size_keepStates (hkept : ∀ i ∈ kept, i < states.size) :
  (keepStates states kept).size = kept.length
  := by
  rw [keepStates, Array.size_mapIdx, List.size_toArray, List.filterMap_length_eq_length]
  intro i hi
  rw [Array.getElem?_eq_getElem (hkept i hi)]
  rfl

/-! ### New numbers -/

/-- An action with the target of a shift under its new number; the list has the old numbers. -/
inductive RenumbersAction (kept : List Nat) : Action → Action → Prop
  | reduce (r : Nat) : RenumbersAction kept (.reduce r) (.reduce r)
  | shift {t t' : Nat} (h : kept[t']? = some t) : RenumbersAction kept (.shift t) (.shift t')

/-- Actions under the same columns in the same order, with the targets of shifts under their new
numbers. -/
def RenumbersActions (kept : List Nat) (as as' : Actions) : Prop :=
  List.Forall₂ (fun e e' => e'.1 = e.1 ∧ RenumbersAction kept e.2 e'.2) as.toList as'.toList

/-- A state that is left, but for its own number. -/
structure RenumbersState (kept : List Nat) (s s' : State) : Prop where
  kernel : s'.kernel = s.kernel
  accepting : s'.accepting = s.accepting
  lane : s'.lane = s.lane
  actions : RenumbersActions kept s.actions s'.actions

/-- The states that shifts lead to from the initial state, in their old order, under new numbers.
The list has their old numbers. -/
structure Condenses (states : Array State) (kept : List Nat) (states' : Array State) : Prop where
  ascending : kept.Pairwise (· < ·)
  mem : ∀ i, i ∈ kept ↔ ReflTransGen (Leads states) 0 i
  first : kept[0]? = some 0
  size : states'.size = kept.length
  state : ∀ j i : Nat, kept[j]? = some i → ∃ s s' : State, states[i]? = some s
    ∧ states'[j]? = some s' ∧ RenumbersState kept s s'

section Actions

variable {as : Actions}

/-- Actions stay as they are if the targets of their shifts keep their numbers. -/
theorem renumbersActions_self (h : ∀ col t, as.get? col = some (.shift t) → kept[t]? = some t) :
  RenumbersActions kept as as
  := by
  apply List.forall₂_same.mpr
  rintro ⟨col, a⟩ he
  use rfl
  cases a with
  | reduce r => apply RenumbersAction.reduce
  | shift t => apply RenumbersAction.shift (h col t (OrderedMap.mem_toList_iff.mp he))

/-- Actions are renumbered if the targets of their shifts are kept. -/
theorem renumbersActions_map (h : ∀ col t, as.get? col = some (.shift t) → t ∈ kept) :
  RenumbersActions kept as (as.map (renumberAction kept))
  := by
  rw [RenumbersActions, OrderedMap.map, List.forall₂_map_right_iff, List.forall₂_same]
  rintro ⟨col, a⟩ he
  use rfl
  cases a with
  | reduce r => apply RenumbersAction.reduce
  | shift t =>
      apply RenumbersAction.shift (getElem?_of_idxOf? (h col t (OrderedMap.mem_toList_iff.mp he)))

end Actions

/-- What is left when states are dropped is the part that shifts lead to, under new numbers. -/
theorem condenses_dropUnreachable (h : 0 < states.size) (hstay : ShiftsStay states) :
  Condenses states (keptNumbers states) (dropUnreachable states)
  := by
  have hmem : ∀ i, i ∈ keptNumbers states ↔ ReflTransGen (Leads states) 0 i :=
    fun i => mem_keptNumbers_iff h hstay
  have hlt : ∀ i ∈ keptNumbers states, i < states.size := fun i => keptNumbers_lt
  have hascending : (keptNumbers states).Pairwise (· < ·) := List.pairwise_lt_range.filter _
  have hfirst := (keeps_keptNumbers h hstay.targets_lt).first
  -- a shift of a kept state leads to a kept state
  have hshift : ∀ {i t : Nat} {s : State} {col : Column}, i ∈ keptNumbers states →
      states[i]? = some s → s.actions.get? col = some (.shift t) → t ∈ keptNumbers states := by
    intro i t s col hi hs ha
    rw [hmem] at hi ⊢
    apply hi.tail ⟨s, col, hs, ha⟩
  rw [dropUnreachable_eq]
  split
  · next hlength =>
    -- nothing is dropped, and all numbers stay as they are
    have hrange := keptNumbers_eq_range hlength
    have hsame : ∀ {i}, i ∈ keptNumbers states → (keptNumbers states)[i]? = some i := by
      intro i hi
      rw [hrange, List.getElem?_range (hlt i hi)]
    refine ⟨hascending, hmem, hfirst, hlength.symm, ?_⟩
    intro j i hj
    have hi := List.mem_of_getElem? hj
    obtain rfl : i = j := by
      rw [hrange] at hj
      obtain ⟨hj, rfl⟩ := List.getElem?_eq_some_iff.mp hj
      apply List.getElem_range
    have hs := Array.getElem?_eq_getElem (hlt i hi)
    refine ⟨_, _, hs, hs, rfl, rfl, rfl, ?_⟩
    apply renumbersActions_self
    intro col t ha
    apply hsame (hshift hi hs ha)
  · refine ⟨hascending, hmem, hfirst, size_keepStates hlt, ?_⟩
    intro j i hj
    have hi := List.mem_of_getElem? hj
    have hs := Array.getElem?_eq_getElem (hlt i hi)
    have hget := getElem?_keepStates hlt j
    rw [hj, Option.bind_some, hs, Option.map_some] at hget
    refine ⟨_, _, hs, hget, rfl, rfl, rfl, ?_⟩
    apply renumbersActions_map
    intro col t ha
    apply hshift hi hs ha

end Builder

end CaptureLR

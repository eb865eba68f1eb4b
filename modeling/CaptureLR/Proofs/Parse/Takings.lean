import CaptureLR.Parse.Evaluation
import Mathlib.Data.List.Basic

/-!
# What is taken for a property

In a span, values are stored for a property one after the other, some into its array and some on
their own. A value on its own takes the place of all that was there; so the slot of the property
has all elements exactly if no value was stored on its own. Values that were taken into a node
further down are not counted again.
-/

namespace CaptureLR

/-! ### Slots stored one after the other -/

namespace Slot

/-- Whether something was stored for an array. -/
def isMany : Slot → Bool
  | single _ => false
  | many _ => true

/-- What was stored: a value on its own, or the elements for an array. -/
def elements : Slot → List Value
  | single v => [v]
  | many vs => vs.toList

/-- All that was stored in several slots. -/
def elementsOf (ss : List Slot) : List Value := ss.flatMap elements

/-- The number of values stored on their own. -/
def singleCount (ss : List Slot) : Nat := ss.countP (fun s => !s.isMany)

/-- Nothing was stored on its own. -/
def AreMany (ss : List Slot) : Prop := ∀ s ∈ ss, s.isMany = true

variable {ss ss' : List Slot} {s s' : Option Slot}

theorem singleCount_le (ss : List Slot) :
  singleCount ss ≤ (elementsOf ss).length
  := by
  induction ss with
  | nil => apply Nat.zero_le
  | cons s ss ih =>
      rw [singleCount, List.countP_cons, elementsOf, List.flatMap_cons, List.length_append]
      rw [singleCount, elementsOf] at ih
      cases s with
      | single v =>
          have hlength : (single v).elements.length = 1 := rfl
          rw [hlength, isMany, Bool.not_false, if_pos rfl]
          omega
      | many vs =>
          rw [isMany, Bool.not_true, if_neg Bool.false_ne_true]
          omega

theorem areMany_iff :
  AreMany ss ↔ singleCount ss = 0
  := by
  rw [singleCount, List.countP_eq_zero]
  simp [AreMany]

/-- A property holds what was stored for it: a value that was stored on its own, or elements, namely
all of them if nothing was stored on its own, and else some of them only. -/
inductive Represents (ss : List Slot) : Option Slot → Prop
  | none (h : ss = []) : Represents ss none
  | single {v : Value} (h : .single v ∈ ss) : Represents ss (some (.single v))
  | many {vs : Chain Value} (hall : AreMany ss → vs.toList = elementsOf ss)
      (hcount : vs.toList.length + singleCount ss ≤ (elementsOf ss).length) :
      Represents ss (some (.many vs))

/-- What is stored first and what is stored later is represented by the joined slots. -/
theorem Represents.joined (h : Represents ss s) (h' : Represents ss' s') :
  Represents (ss ++ ss') (Slots.joined s s')
  := by
  have hcounts : singleCount (ss ++ ss') = singleCount ss + singleCount ss' := List.countP_append
  have helements : elementsOf (ss ++ ss') = elementsOf ss ++ elementsOf ss' := List.flatMap_append
  cases h with
  | none h =>
      subst h
      apply h'
  | single hmem =>
      cases h' with
      | none h =>
          subst h
          rw [List.append_nil]
          exact .single hmem
      | single h => exact .single (List.mem_append_right _ h)
      | many hall hcount =>
          apply many
          · intro hmany
            cases hmany _ (List.mem_append_left _ hmem)
          · have hle := singleCount_le ss
            rw [hcounts, helements, List.length_append]
            omega
  | many hall hcount =>
      cases h' with
      | none h =>
          subst h
          rw [List.append_nil]
          exact .many hall hcount
      | single h => exact .single (List.mem_append_right _ h)
      | many hall' hcount' =>
          apply many
          · intro hmany
            rw [Chain.toList_append, helements, hall fun s hs => hmany s (List.mem_append_left _ hs),
              hall' fun s hs => hmany s (List.mem_append_right _ hs)]
          · rw [Chain.toList_append, hcounts, helements, List.length_append, List.length_append]
            omega

/-- A slot represents itself. -/
theorem represents_singleton (s : Slot) :
  Represents [s] (some s)
  := by
  have helements : elementsOf [s] = s.elements := List.flatMap_singleton ..
  cases s with
  | single v => exact .single (List.mem_singleton_self _)
  | many vs =>
      apply Represents.many
      · rw [helements]
        exact fun _ => rfl
      · rw [helements]
        apply Nat.le_refl

end Slot

/-! ### Stored values -/

/-- What storing a value for a capture stores. -/
def Capture.slot (c : Capture) (v : Value) (splice : Bool) : Slot :=
  if c.isArray then .many (.ofList (Slots.elements splice v)) else .single v

/-- What storing a value for a capture stores for a property. -/
def Capture.takings (c : Capture) (prop : String) (v : Value) (splice : Bool) : List Slot :=
  if c.prop = prop then [c.slot v splice] else []

theorem Capture.mem_takings {c : Capture} {prop : String} {v : Value} {splice : Bool} {s : Slot}
    (h : s ∈ c.takings prop v splice) :
  c.prop = prop ∧ s.isMany = c.isArray
  := by
  unfold takings at h
  split at h
  · next heq =>
    refine ⟨heq, ?_⟩
    rw [List.mem_singleton.mp h, slot]
    cases c.isArray <;> rfl
  · cases h

/-- Storing a value joins what it stores. -/
theorem Slots.get?_store (slots : Slots) (c : Capture) (v : Value) (splice : Bool) (prop : String) :
  (slots.store c v splice).get? prop
    = if c.prop = prop then joined (slots.get? prop) (some (c.slot v splice)) else slots.get? prop
  := by
  unfold store Capture.slot
  cases c.isArray with
  | false =>
      simp only [Bool.false_eq_true, if_false, OrderedMap.get?_insert, eq_comm (a := prop)]
      split
      · next heq =>
        cases slots.get? prop with
        | none => rfl
        | some s => cases s <;> rfl
      · rfl
  | true =>
      simp only [if_true, OrderedMap.get?_insert, eq_comm (a := prop)]
      split
      · next heq =>
        have hnil : ∀ vs : Chain Value, ∅ ++ vs = vs := by
          intro vs
          apply Chain.eq_of_toList_eq
          rw [Chain.toList_append, Chain.toList_empty, List.nil_append]
        subst heq
        cases slots.get? c.prop with
        | none => simp only [hnil, joined]
        | some s =>
            cases s with
            | single w => simp only [hnil, joined, Slot.join]
            | many ws => rfl
      · rfl

/-- A relation between what was stored for a property and what the property holds is kept when
something is stored and when slots are joined. -/
structure Slot.IsKept (P : List Slot → Option Slot → Prop) : Prop where
  nothing : P [] none
  stored (s : Slot) : P [s] (some s)
  joined {ss ss' : List Slot} {s s' : Option Slot} : P ss s → P ss' s' →
    P (ss ++ ss') (Slots.joined s s')

theorem Slot.isKept_represents :
  IsKept Represents
  := ⟨.none rfl, represents_singleton, Represents.joined⟩

theorem Slot.IsKept.store {P : List Slot → Option Slot → Prop} (hP : IsKept P) {ss : List Slot}
    {slots : Slots} {prop : String} (h : P ss (slots.get? prop)) (c : Capture) (v : Value)
    (splice : Bool) :
  P (ss ++ c.takings prop v splice) ((slots.store c v splice).get? prop)
  := by
  rw [Slots.get?_store, Capture.takings]
  split
  · apply hP.joined h (hP.stored _)
  · rw [List.append_nil]
    apply h

/-! ### Trees -/

namespace DerivationTree

mutual

/-- What is taken for a property in a tree that is followed by a position, outside of the nodes
captured there. -/
def takings (g : Grammar) (classes : ClassTable) (prop : String) (behind : Position) :
    DerivationTree → List Slot
  | leaf _ => []
  | node r children =>
      let inside := takingsOf g classes prop behind children
      match g.capture? (g.head r) with
      | none => inside
      | some c =>
          match c.kind with
          | .node id =>
              match classes.get? id with
              | some n =>
                  c.takings prop (n.value (slotsOf g classes behind ∅ children).captures)
                    n.standsForArray
              | none => inside
          | .token =>
              inside
                ++ c.takings prop (.token ((tokensOf children).head?.getD (.endOfInput behind))) false
          | .span => inside ++ c.takings prop (.array ((tokensOf children).map Value.token)) false

/-- What is taken for a property in several trees that are followed by a position, from left to
right. -/
def takingsOf (g : Grammar) (classes : ClassTable) (prop : String) (behind : Position) :
    List DerivationTree → List Slot
  | [] => []
  | c :: cs =>
      takings g classes prop (startOf (tokensOf cs) behind) c ++ takingsOf g classes prop behind cs

end

/-- What is taken in a tree is what its rule captures, or it is taken in the trees below and not
into a node. -/
theorem mem_takings_node {g : Grammar} {classes : ClassTable} {prop : String} {behind : Position}
    {r : Nat} {children : List DerivationTree} {s : Slot}
    (h : s ∈ (node r children).takings g classes prop behind) :
  (∃ c, g.capture? (g.head r) = some c ∧ c.prop = prop ∧ s.isMany = c.isArray)
    ∨ s ∈ takingsOf g classes prop behind children
      ∧ ∀ c id, g.capture? (g.head r) = some c → c.kind = .node id → classes.get? id = none
  := by
  rw [takings] at h
  cases hc : g.capture? (g.head r) with
  | none =>
      rw [hc] at h
      exact Or.inr ⟨h, nofun⟩
  | some c =>
      simp only [hc] at h
      have hown : ∀ {v splice}, s ∈ c.takings prop v splice →
          ∃ c', some c = some c' ∧ c'.prop = prop ∧ s.isMany = c'.isArray :=
        fun hs => ⟨c, rfl, Capture.mem_takings hs⟩
      cases hk : c.kind with
      | token =>
          simp only [hk] at h
          apply (List.mem_append.mp h).symm.imp hown
          intro hs
          refine ⟨hs, ?_⟩
          rintro _ id ⟨⟩ hid
          cases hk.symm.trans hid
      | span =>
          simp only [hk] at h
          apply (List.mem_append.mp h).symm.imp hown
          intro hs
          refine ⟨hs, ?_⟩
          rintro _ id ⟨⟩ hid
          cases hk.symm.trans hid
      | node id =>
          cases hn : classes.get? id with
          | some n =>
              simp only [hk, hn] at h
              exact Or.inl (hown h)
          | none =>
              simp only [hk, hn] at h
              refine Or.inr ⟨h, ?_⟩
              rintro _ id' ⟨⟩ hid
              cases hk.symm.trans hid
              apply hn

variable (g : Grammar) (classes : ClassTable) (prop : String)

section Kept

variable {P : List Slot → Option Slot → Prop} (hP : Slot.IsKept P)

include hP

mutual

/-- What is kept holds of what is taken in a tree and its slots. -/
theorem kept_slots (behind : Position) : ∀ t : DerivationTree,
    P (t.takings g classes prop behind) ((t.slots g classes behind).get? prop)
  | leaf _ => hP.nothing
  | node r children => by
      have hinside : P (takingsOf g classes prop behind children)
          ((slotsOf g classes behind ∅ children).get? prop) :=
        kept_slotsOf behind ∅ children hP.nothing
      rw [slots, takings]
      cases g.capture? (g.head r) with
      | none => apply hinside
      | some c =>
          simp only [Slots.captured]
          cases c.kind with
          | token => apply hP.store hinside
          | span => apply hP.store hinside
          | node id =>
              simp only
              cases classes.get? id with
              | none => apply hinside
              | some n =>
                  have hempty : P [] ((∅ : Slots).get? prop) := hP.nothing
                  have hstore := hP.store hempty c
                    (n.value (slotsOf g classes behind ∅ children).captures) n.standsForArray
                  rw [List.nil_append] at hstore
                  apply hstore

/-- What is kept holds of what was taken before several trees and in them, and their slots. -/
theorem kept_slotsOf {ss : List Slot} (behind : Position) (before : Slots) :
    ∀ cs : List DerivationTree, P ss (before.get? prop) →
      P (ss ++ takingsOf g classes prop behind cs) ((slotsOf g classes behind before cs).get? prop)
  | [], h => by
      rw [takingsOf, List.append_nil, slotsOf]
      apply h
  | c :: cs, h => by
      have hc := kept_slots (startOf (tokensOf cs) behind) c
      rw [takingsOf, ← List.append_assoc, slotsOf]
      apply kept_slotsOf behind _ cs
      rw [Slots.get?_join]
      apply hP.joined h hc

end

end Kept

/-- The slots of several trees represent what was taken before them and in them. -/
theorem represents_slotsOf {ss : List Slot} (behind : Position) (before : Slots)
    (cs : List DerivationTree) (h : Slot.Represents ss (before.get? prop)) :
  Slot.Represents (ss ++ takingsOf g classes prop behind cs)
    ((slotsOf g classes behind before cs).get? prop)
  := kept_slotsOf g classes prop Slot.isKept_represents behind before cs h

end DerivationTree

end CaptureLR

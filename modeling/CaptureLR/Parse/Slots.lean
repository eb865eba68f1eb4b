import CaptureLR.Ordered.Chain
import CaptureLR.Tree

/-!
# Captures in the making

While a text is parsed, every span that was recognised holds the values captured in it by
property. When spans are joined, arrays of one property are concatenated and any other value
gives way to the later one.
-/

namespace CaptureLR

/-- What a property holds while a span grows. -/
inductive Slot where
  /-- A value of its own. -/
  | single (v : Value)
  /-- The elements of an array so far. -/
  | many (vs : Chain Value)
deriving Inhabited

/-- The slots of a span, in the order in which their properties were first captured. -/
abbrev Slots := OrderedMap String Slot

namespace Slot

/-- The value of a slot. -/
def value : Slot → Value
  | single v => v
  | many vs => .array vs.toList

/-- A slot followed by a later one of the same property. -/
def join : Slot → Slot → Slot
  | many vs, many ws => many (vs ++ ws)
  | _, later => later

end Slot

namespace Slots

/-- The slots with one more behind them. -/
def joinSlot (slots : Slots) (e : String × Slot) : Slots :=
  match slots.get? e.1 with
  | none => slots.insert e.1 e.2
  | some s => slots.insert e.1 (s.join e.2)

/-- The slots of two neighbouring spans joined. -/
def join (slots later : Slots) : Slots := later.toList.foldl joinSlot slots

/-- The slots of neighbouring spans joined from left to right. -/
def joinAll (spans : List Slots) : Slots := spans.foldl join ∅

/-- The values of the slots. -/
def captures (slots : Slots) : Captures := slots.map Slot.value

/-- The elements a value adds to an array: itself, or its own elements if it is spliced. -/
def elements (splice : Bool) : Value → List Value
  | .array vs => if splice then vs else [.array vs]
  | v => [v]

/-- The slots with a value stored for a capture: in place of what the property held, or behind
the elements of its array. -/
def store (slots : Slots) (c : Capture) (v : Value) (splice : Bool) : Slots :=
  if c.isArray then
    let before := match slots.get? c.prop with
      | some (.many vs) => vs
      | _ => ∅
    slots.insert c.prop (.many (before ++ .ofList (elements splice v)))
  else slots.insert c.prop (.single v)

/-- What a property holds in one span or in the later one, or joined from both. -/
def joined : Option Slot → Option Slot → Option Slot
  | none, later => later
  | some s, none => some s
  | some s, some later => some (s.join later)

theorem get?_joinSlot (slots : Slots) (e : String × Slot) (prop : String) :
  (slots.joinSlot e).get? prop
    = if prop = e.1 then joined (slots.get? prop) (some e.2) else slots.get? prop
  := by
  unfold joinSlot
  by_cases h : prop = e.1
  · subst h
    cases hs : slots.get? e.1 <;> simp [joined]
  · cases slots.get? e.1 <;> simp [h]

theorem get?_foldl_joinSlot (slots : Slots) (es : List (String × Slot)) (prop : String)
    (hes : (es.map Prod.fst).Nodup) :
  (es.foldl joinSlot slots).get? prop = joined (slots.get? prop) (es.lookup prop)
  := by
  induction es generalizing slots with
  | nil =>
      rw [List.foldl_nil, List.lookup_nil]
      cases slots.get? prop <;> rfl
  | cons e es ih =>
      obtain ⟨k, s⟩ := e
      rw [List.map_cons, List.nodup_cons] at hes
      rw [List.foldl_cons, ih _ hes.2, get?_joinSlot, List.lookup_cons]
      by_cases h : prop = k
      · subst h
        have hnone : es.lookup prop = none := by
          apply List.lookup_eq_none_iff.mpr
          intro e he
          apply bne_iff_ne.mpr
          rintro rfl
          apply hes.1 (List.mem_map.mpr ⟨e, he, rfl⟩)
        rw [hnone]
        cases slots.get? prop <;> simp [joined]
      · have hb : (prop == k) = false := by simpa using h
        simp [h, hb]

/-- Joining spans joins what each property holds. -/
theorem get?_join (slots later : Slots) (prop : String) :
  (slots.join later).get? prop = joined (slots.get? prop) (later.get? prop)
  := get?_foldl_joinSlot slots later.toList prop later.nodupKeys

end Slots

end CaptureLR

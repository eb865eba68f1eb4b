import CaptureLR.Proofs.Ordered.Entries
import CaptureLR.Proofs.Ordered.Occurrences
import CaptureLR.Proofs.Parse.Takings
import Mathlib.Data.List.Induction

/-!
# The order of joined slots

Joined slots hold their properties in the order in which these first occur. What a property holds
depends on its slots alone: arrays are appended to each other, and otherwise the later slot counts.

The order of joins can matter only where a value on its own stands between two arrays of its
property. So where every property is an array throughout or nowhere, it makes no difference how the
spans that are joined were grouped by reductions, and where a property is an array throughout, its
elements stay in their order however the spans were grouped.
-/

namespace CaptureLR

/-! ### Plain slots -/

/-- A slot with the elements of an array in a plain list. -/
inductive PlainSlot where
  | single (v : Value)
  | many (vs : List Value)

namespace PlainSlot

/-- Two arrays are appended, and any other slot gives way to the later one. -/
def join : PlainSlot → PlainSlot → PlainSlot
  | many vs, many ws => many (vs ++ ws)
  | _, later => later

/-- Several slots joined from left to right. -/
def joinAll : List PlainSlot → Option PlainSlot
  | [] => none
  | s :: ss => some (ss.foldl join s)

end PlainSlot

namespace Slot

/-- The slot with its elements in a plain list. -/
def plain : Slot → PlainSlot
  | single v => .single v
  | many vs => .many vs.toList

theorem plain_join (s later : Slot) :
  (s.join later).plain = s.plain.join later.plain
  := by
  cases s with
  | single v => rfl
  | many vs =>
      cases later with
      | single w => rfl
      | many ws => exact congrArg PlainSlot.many (Chain.toList_append vs ws)

theorem joined_none (s : Option Slot) :
  Slots.joined s none = s
  := by
  cases s <;> rfl

/-! ### What a property comes to hold -/

/-- Several slots of a property joined from left to right. -/
def joinAll (ss : List Slot) : Option Slot :=
  ss.foldl (fun joined later => Slots.joined joined (some later)) none

theorem joinAll_concat (ss : List Slot) (s : Slot) :
  joinAll (ss ++ [s]) = Slots.joined (joinAll ss) (some s)
  := by
  rw [joinAll, List.foldl_concat]
  rfl

/-- Joined slots are the same as joined plain slots. -/
theorem map_plain_joinAll (ss : List Slot) :
  (joinAll ss).map plain = PlainSlot.joinAll (ss.map plain)
  := by
  have hsome : ∀ (ss : List Slot) (s : Slot),
      (ss.foldl (fun joined later => Slots.joined joined (some later)) (some s)).map plain
        = some ((ss.map plain).foldl PlainSlot.join s.plain) := by
    intro ss
    induction ss with
    | nil => exact fun _ => rfl
    | cons later ss ih =>
        intro s
        rw [List.foldl_cons, Slots.joined, ih, plain_join]
        rfl
  cases ss with
  | nil => rfl
  | cons s ss => apply hsome

/-- A value on its own stands between two arrays, the first of which has elements. -/
def Interrupts : Slot → Slot → Slot → Prop
  | many vs, single _, many _ => vs.toList ≠ []
  | _, _, _ => False

/-- Joining slots is associative exactly where no value on its own interrupts an array. -/
theorem join_assoc_iff {s t u : Slot} :
  (s.join t).join u = s.join (t.join u) ↔ ¬ Interrupts s t u
  := by
  cases s with
  | single v =>
      -- the first slot gives way to the later ones
      refine iff_of_true ?_ id
      cases t with
      | single w => cases u <;> rfl
      | many ws => cases u <;> rfl
  | many vs =>
      cases t with
      | single w =>
          cases u with
          | single x => exact iff_of_true rfl id
          | many xs =>
              change many xs = many (vs ++ xs) ↔ ¬ vs.toList ≠ []
              rw [many.injEq, not_not]
              constructor
              · intro h
                have happend : xs.toList = vs.toList ++ xs.toList := by
                  rw [← Chain.toList_append, ← h]
                apply List.self_eq_append_left.mp happend
              · intro h
                apply Chain.eq_of_toList_eq
                rw [Chain.toList_append, h, List.nil_append]
      | many ws =>
          refine iff_of_true ?_ id
          cases u with
          | single x => rfl
          | many xs =>
              apply congrArg many
              apply Chain.eq_of_toList_eq
              simp only [Chain.toList_append, List.append_assoc]

theorem joined_assoc {s t u : Option Slot}
    (h : ∀ a b c, s = some a → t = some b → u = some c → ¬ Interrupts a b c) :
  Slots.joined (Slots.joined s t) u = Slots.joined s (Slots.joined t u)
  := by
  cases s with
  | none => rfl
  | some a =>
      cases t with
      | none => rfl
      | some b =>
          cases u with
          | none => rfl
          | some c => exact congrArg some (join_assoc_iff.mpr (h a b c rfl rfl rfl))

/-- Slots that are arrays throughout or nowhere do not interrupt each other. -/
theorem not_interrupts {isArray : Bool} {s t u : Slot} (hs : s.isMany = isArray)
    (ht : t.isMany = isArray) :
  ¬ Interrupts s t u
  := by
  subst hs
  cases s with
  | single v => exact id
  | many vs =>
      cases t with
      | single w => cases ht
      | many ws => exact id

theorem isMany_join {isArray : Bool} {s t : Slot} (hs : s.isMany = isArray)
    (ht : t.isMany = isArray) :
  (s.join t).isMany = isArray
  := by
  subst hs
  cases s with
  | single v => apply ht
  | many vs =>
      cases t with
      | single w => apply ht
      | many ws => rfl

section Throughout

variable {isArray : Bool} {ss ss' : List Slot}

theorem isMany_joinAll (h : ∀ t ∈ ss, t.isMany = isArray) {s : Slot} (hs : joinAll ss = some s) :
  s.isMany = isArray
  := by
  induction ss using List.reverseRecOn generalizing s with
  | nil => cases hs
  | append_singleton ss t ih =>
      rw [List.forall_mem_append, List.forall_mem_singleton] at h
      rw [joinAll_concat] at hs
      cases hjoined : joinAll ss with
      | none =>
          rw [hjoined] at hs
          cases hs
          apply h.2
      | some r =>
          rw [hjoined] at hs
          cases hs
          apply isMany_join (ih h.1 hjoined) h.2

/-- Slots that are arrays throughout or nowhere can be joined in two parts. -/
theorem joinAll_append (h : ∀ t ∈ ss ++ ss', t.isMany = isArray) :
  joinAll (ss ++ ss') = Slots.joined (joinAll ss) (joinAll ss')
  := by
  induction ss' using List.reverseRecOn with
  | nil =>
      rw [List.append_nil]
      exact (joined_none _).symm
  | append_singleton ss' t ih =>
      rw [← List.append_assoc] at h ⊢
      rw [List.forall_mem_append, List.forall_mem_singleton] at h
      obtain ⟨hss, hss'⟩ := List.forall_mem_append.mp h.1
      rw [joinAll_concat, joinAll_concat, ih h.1]
      apply joined_assoc
      intro a b c ha hb _
      apply not_interrupts (isMany_joinAll hss ha) (isMany_joinAll hss' hb)

end Throughout

/-- A property that is an array throughout or nowhere holds what its slots come to when they are
joined from left to right. -/
theorem isKept_joinAll (isArray : Bool) :
  IsKept (fun ss s => (∀ t ∈ ss, t.isMany = isArray) → s = joinAll ss)
  where
  nothing _ := rfl
  stored _ _ := rfl
  joined h h' hmany := by
    obtain ⟨hss, hss'⟩ := List.forall_mem_append.mp hmany
    rw [joinAll_append hmany, h hss, h' hss']

end Slot

namespace Slots

variable {isArray : String → Bool} {a b c slots : Slots} {spans : List Slots} {prop : String}

/-! ### The order of properties -/

theorem keys_joinSlot (slots : Slots) (e : String × Slot) :
  (slots.joinSlot e).keys = if e.1 ∈ slots.keys then slots.keys else slots.keys ++ [e.1]
  := by
  unfold joinSlot
  split <;> apply OrderedMap.keys_insert

theorem keys_foldl_joinSlot {props : List String}
    (h : slots.keys = (OrderedSet.ofList props).toList) (es : List (String × Slot)) :
  (es.foldl joinSlot slots).keys = (OrderedSet.ofList (props ++ es.map Prod.fst)).toList
  := by
  induction es generalizing slots props with
  | nil =>
      rw [List.map_nil, List.append_nil]
      apply h
  | cons e es ih =>
      rw [List.foldl_cons, List.map_cons, List.append_cons]
      apply ih
      rw [keys_joinSlot, OrderedSet.toList_ofList_concat, h]

theorem keys_join {props : List String} (h : a.keys = (OrderedSet.ofList props).toList)
    (b : Slots) :
  (a.join b).keys = (OrderedSet.ofList (props ++ b.keys)).toList
  := keys_foldl_joinSlot h b.toList

/-- Joined slots have the properties of all of them, each where it occurs first. -/
theorem keys_joinAll (spans : List Slots) :
  (joinAll spans).keys = (OrderedSet.ofList (spans.flatMap OrderedMap.keys)).toList
  := by
  have hfold : ∀ (props : List String) (slots : Slots),
      slots.keys = (OrderedSet.ofList props).toList →
      (spans.foldl join slots).keys
        = (OrderedSet.ofList (props ++ spans.flatMap OrderedMap.keys)).toList := by
    induction spans with
    | nil =>
        intro props slots h
        rw [List.flatMap_nil, List.append_nil]
        apply h
    | cons s spans ih =>
        intro props slots h
        rw [List.foldl_cons, List.flatMap_cons, ← List.append_assoc]
        apply ih
        apply keys_join h
  apply hfold [] ∅ rfl

/-! ### What a property holds -/

/-- What a property holds in several spans, from left to right. -/
def held (spans : List Slots) (prop : String) : List Slot :=
  spans.filterMap (fun slots => slots.get? prop)

theorem held_append (spans spans' : List Slots) (prop : String) :
  held (spans ++ spans') prop = held spans prop ++ held spans' prop
  := List.filterMap_append

theorem held_singleton (slots : Slots) (prop : String) :
  held [slots] prop = (slots.get? prop).toList
  := by
  cases h : slots.get? prop with
  | none => exact List.filterMap_cons_none h
  | some s => exact List.filterMap_cons_some h

/-- A property comes to hold what it holds in the spans, joined from left to right. -/
theorem get?_joinAll (spans : List Slots) (prop : String) :
  (joinAll spans).get? prop = Slot.joinAll (held spans prop)
  := by
  induction spans using List.reverseRecOn with
  | nil => rfl
  | append_singleton spans s ih =>
      rw [joinAll, List.foldl_concat, ← joinAll, get?_join, ih, held_append, held_singleton]
      cases s.get? prop with
      | none => rw [Option.toList_none, List.append_nil, Slot.joined_none]
      | some t => rw [Option.toList_some, Slot.joinAll_concat]

/-! ### The order of joins -/

/-- Joining slots is associative exactly where no value on its own interrupts an array of its
property. -/
theorem join_assoc_iff :
  (a.join b).join c = a.join (b.join c)
    ↔ ∀ prop s t u, a.get? prop = some s → b.get? prop = some t → c.get? prop = some u →
      ¬ Slot.Interrupts s t u
  := by
  constructor
  · intro h prop s t u hs ht hu
    have hget := congrArg (OrderedMap.get? · prop) h
    simp only [get?_join, hs, ht, hu, joined, Option.some_inj] at hget
    apply Slot.join_assoc_iff.mp hget
  · intro h
    apply OrderedMap.eq_of_get?_eq
    · have ha : a.keys = (OrderedSet.ofList a.keys).toList :=
        (OrderedSet.toList_ofList_of_nodup a.nodupKeys).symm
      have hb : b.keys = (OrderedSet.ofList b.keys).toList :=
        (OrderedSet.toList_ofList_of_nodup b.nodupKeys).symm
      rw [keys_join (keys_join ha b), keys_join ha, keys_join hb, List.append_assoc]
      rw [OrderedSet.ofList, OrderedSet.ofList, OrderedSet.insertMany_append,
        OrderedSet.insertMany_append _ _ (OrderedSet.toList _), OrderedSet.insertMany_toList_ofList]
    · intro prop
      simp only [get?_join]
      apply Slot.joined_assoc (h prop)

/-- Every property is an array, or it is none, as a function says. -/
def Conforms (isArray : String → Bool) (slots : Slots) : Prop :=
  ∀ prop s, slots.get? prop = some s → s.isMany = isArray prop

theorem Conforms.join_assoc (ha : a.Conforms isArray) (hb : b.Conforms isArray) (c : Slots) :
  (a.join b).join c = a.join (b.join c)
  := by
  apply join_assoc_iff.mpr
  intro prop s t u hs ht _
  apply Slot.not_interrupts (ha prop s hs) (hb prop t ht)

theorem isMany_of_mem_held (h : ∀ slots ∈ spans, slots.Conforms isArray) {s : Slot}
    (hs : s ∈ held spans prop) :
  s.isMany = isArray prop
  := by
  obtain ⟨slots, hslots, hget⟩ := List.mem_filterMap.mp hs
  apply h slots hslots prop s hget

/-! ### Spans grouped by reductions -/

/-- Slots that some spans come to when reductions group them: a reduction joins what is below it,
and it may store a value, which stands for a span of its own. -/
inductive Groups : List Slots → Slots → Prop
  | span (slots : Slots) : Groups [slots] slots
  | reduce {parts : List (List Slots × Slots)} (h : ∀ part ∈ parts, Groups part.1 part.2) :
      Groups (parts.flatMap Prod.fst) (joinAll (parts.map Prod.snd))
  | store {spans : List Slots} {slots : Slots} (h : Groups spans slots) (c : Capture) (v : Value)
      (splice : Bool) : Groups (spans ++ [store ∅ c v splice]) (slots.store c v splice)

/-- A single reduction joins its spans from left to right. -/
theorem groups_joinAll (spans : List Slots) :
  Groups spans (joinAll spans)
  := by
  have h : ∀ part ∈ spans.map (fun slots => ([slots], slots)), Groups part.1 part.2 := by
    intro part hpart
    obtain ⟨slots, -, rfl⟩ := List.mem_map.mp hpart
    apply Groups.span
  have hreduce := Groups.reduce h
  rw [List.flatMap_map, List.map_map] at hreduce
  have hspans : spans.flatMap (fun slots => [slots]) = spans := List.flatMap_singleton' spans
  have hslots : spans.map (Prod.snd ∘ fun slots => ([slots], slots)) = spans := List.map_id' spans
  rwa [hspans, hslots] at hreduce

/-- The first of three spans beside a reduction of the others. -/
theorem groups_nested (a b c : Slots) :
  Groups [a, b, c] (joinAll [a, joinAll [b, c]])
  := by
  have h : ∀ part ∈ [([a], a), ([b, c], joinAll [b, c])], Groups part.1 part.2 := by
    rw [List.forall_mem_cons, List.forall_mem_singleton]
    exact ⟨.span a, groups_joinAll [b, c]⟩
  apply Groups.reduce h

theorem held_store (c : Capture) (v : Value) (splice : Bool) (prop : String) :
  held [store ∅ c v splice] prop = c.takings prop v splice
  := by
  rw [held_singleton, get?_store, OrderedMap.get?_empty, Capture.takings]
  split <;> rfl

theorem keys_store (slots : Slots) (c : Capture) (v : Value) (splice : Bool) :
  (slots.store c v splice).keys
    = if c.prop ∈ slots.keys then slots.keys else slots.keys ++ [c.prop]
  := by
  unfold store
  split <;> apply OrderedMap.keys_insert

/-- What is kept of parts is kept when these are joined behind other slots. -/
theorem kept_foldl_join {P : List Slot → Option Slot → Prop} (hP : Slot.IsKept P)
    {parts : List (List Slots × Slots)}
    (h : ∀ part ∈ parts, P (held part.1 prop) (part.2.get? prop)) {before : List Slot}
    (hbefore : P before (slots.get? prop)) :
  P (before ++ held (parts.flatMap Prod.fst) prop)
    (((parts.map Prod.snd).foldl join slots).get? prop)
  := by
  induction parts generalizing before slots with
  | nil =>
      rw [List.flatMap_nil, held, List.filterMap_nil, List.append_nil]
      apply hbefore
  | cons part parts ih =>
      obtain ⟨hpart, hparts⟩ := List.forall_mem_cons.mp h
      rw [List.flatMap_cons, held_append, ← List.append_assoc]
      apply ih hparts
      rw [get?_join]
      apply hP.joined hbefore hpart

namespace Groups

/-- What is kept holds of what a property holds in the spans and what it comes to hold, however the
spans are grouped. -/
theorem kept {P : List Slot → Option Slot → Prop} (hP : Slot.IsKept P) (h : Groups spans slots)
    (prop : String) :
  P (held spans prop) (slots.get? prop)
  := by
  induction h with
  | span slots =>
      rw [held_singleton]
      cases slots.get? prop with
      | none => apply hP.nothing
      | some s => apply hP.stored
  | reduce _ ih =>
      have hempty : P [] ((∅ : Slots).get? prop) := hP.nothing
      apply kept_foldl_join hP ih hempty
  | store _ c v splice ih =>
      rw [held_append, held_store]
      apply hP.store ih

/-- However spans are grouped, their properties stay in the order in which they first occur. -/
theorem keys_eq (h : Groups spans slots) :
  slots.keys = (OrderedSet.ofList (spans.flatMap OrderedMap.keys)).toList
  := by
  induction h with
  | span slots =>
      rw [List.flatMap_singleton]
      exact (OrderedSet.toList_ofList_of_nodup slots.nodupKeys).symm
  | @reduce parts _ ih =>
      have hparts : (parts.map Prod.snd).flatMap OrderedMap.keys = parts.flatMap fun part =>
          (OrderedSet.ofList (part.1.flatMap OrderedMap.keys)).toList := by
        rw [List.flatMap_map]
        apply List.flatMap_congr
        intro part hpart
        apply ih part hpart
      rw [keys_joinAll, hparts, OrderedSet.ofList, OrderedSet.insertMany_flatMap_toList_ofList,
        List.flatMap_assoc]
      rfl
  | @store spans slots _ c v splice ih =>
      have hstore : (Slots.store ∅ c v splice).keys = [c.prop] := keys_store ∅ c v splice
      rw [List.flatMap_append, List.flatMap_singleton, hstore, OrderedSet.toList_ofList_concat,
        ← ih, keys_store]

/-- If every property is an array throughout or nowhere, it makes no difference how spans are
grouped. -/
theorem eq_joinAll (h : Groups spans slots) (hspans : ∀ s ∈ spans, s.Conforms isArray) :
  slots = joinAll spans
  := by
  apply OrderedMap.eq_of_get?_eq
  · rw [h.keys_eq, keys_joinAll]
  · intro prop
    rw [get?_joinAll]
    apply h.kept (Slot.isKept_joinAll (isArray prop)) prop
    intro s hs
    apply isMany_of_mem_held hspans hs

/-- A property that is an array throughout holds all elements in their order, however spans are
grouped. -/
theorem elements_eq (h : Groups spans slots) (hne : held spans prop ≠ [])
    (hmany : Slot.AreMany (held spans prop)) :
  ∃ vs, slots.get? prop = some (.many vs) ∧ vs.toList = Slot.elementsOf (held spans prop)
  := by
  have hrepresents := h.kept Slot.isKept_represents prop
  generalize slots.get? prop = s at hrepresents ⊢
  cases hrepresents with
  | none h => exact absurd h hne
  | single h => cases hmany _ h
  | many hall _ => exact ⟨_, rfl, hall hmany⟩

end Groups

/-- Joined slots have their properties in the order of their first occurrence. A property that is an
array throughout has the elements of all arrays in their order, whichever of them are longer; any
property holds what its plain slots come to. Where every property is an array throughout or
nowhere, joining is associative, and it makes no difference how reductions group the spans; so if
the same is taken for a property in two trees, their slots hold the same. -/
theorem joinAll_keeps_order (spans : List Slots) :
  (joinAll spans).keys = (OrderedSet.ofList (spans.flatMap OrderedMap.keys)).toList
    ∧ (∀ prop, held spans prop ≠ [] → Slot.AreMany (held spans prop) →
      ∃ vs, (joinAll spans).get? prop = some (.many vs)
        ∧ vs.toList = Slot.elementsOf (held spans prop))
    ∧ (∀ prop, ((joinAll spans).get? prop).map Slot.plain
      = PlainSlot.joinAll ((held spans prop).map Slot.plain))
    ∧ (∀ isArray (a b c : Slots), a.Conforms isArray → b.Conforms isArray → c.Conforms isArray →
      (a.join b).join c = a.join (b.join c))
    ∧ (∀ isArray slots, (∀ s ∈ spans, s.Conforms isArray) → Groups spans slots →
      slots = joinAll spans)
    ∧ ∀ (g g' : Grammar) (classes : ClassTable) (prop : String) (behind : Position)
        (t t' : DerivationTree) (isArray : Bool),
        (∀ s ∈ t.takings g classes prop behind, s.isMany = isArray) →
        t'.takings g' classes prop behind = t.takings g classes prop behind →
        (t'.slots g' classes behind).get? prop = (t.slots g classes behind).get? prop
  := by
  refine ⟨keys_joinAll spans, ?_, ?_, ?_, ?_, ?_⟩
  · intro prop hne hmany
    apply (groups_joinAll spans).elements_eq hne hmany
  · intro prop
    rw [get?_joinAll, Slot.map_plain_joinAll]
  · intro isArray a b c ha hb _
    apply ha.join_assoc hb
  · intro isArray slots hspans hgroups
    apply hgroups.eq_joinAll hspans
  · intro g g' classes prop behind t t' isArray hmany hsame
    have hkept := Slot.isKept_joinAll isArray
    rw [DerivationTree.kept_slots g classes prop hkept behind t hmany,
      DerivationTree.kept_slots g' classes prop hkept behind t' (hsame ▸ hmany), hsame]

/-- A token as a value. -/
def worded (kind : String) : Value := .token ⟨some kind, .start, .start, .none⟩

/-- Tokens captured for an array, the first of them also on its own. -/
def listed (kinds : List String) : Slots :=
  .ofList [("list", .many (.ofList (kinds.map worded))),
    ("first", .single (worded (kinds.headD "")))]

theorem conforms_listed (kinds : List String) :
  (listed kinds).Conforms (· == "list")
  := by
  intro prop s hs
  rcases List.mem_cons.mp (OrderedMap.mem_toList_iff.mpr hs) with h | h
  · cases h
    rfl
  · cases List.mem_singleton.mp h
    rfl

/-- The theorem where an array is joined with a longer one and then with a shorter one. -/
theorem joinAll_keeps_order_listed :
  let spans := [["a"], ["b", "c", "d"], ["e", "f"]].map listed
  (joinAll spans).keys = ["list", "first"]
    ∧ (∃ vs, (joinAll spans).get? "list" = some (.many vs)
      ∧ vs.toList = ["a", "b", "c", "d", "e", "f"].map worded)
    ∧ ((joinAll spans).get? "first").map Slot.plain = some (.single (worded "e"))
    ∧ joinAll [listed ["a"], joinAll [listed ["b", "c", "d"], listed ["e", "f"]]] = joinAll spans
  := by
  intro spans
  have hspans : ∀ s ∈ spans, s.Conforms (· == "list") :=
    List.forall_mem_map.mpr fun kinds _ => conforms_listed kinds
  obtain ⟨hkeys, harrays, hplain, -, hgroups, -⟩ := joinAll_keeps_order spans
  refine ⟨hkeys.trans (by decide), ?_, hplain "first", ?_⟩
  · have hmany : Slot.AreMany (held spans "list") := fun _ hs => isMany_of_mem_held hspans hs
    apply harrays "list" (List.cons_ne_nil _ _) hmany
  · apply hgroups (· == "list") _ hspans
    apply groups_nested

end Slots

end CaptureLR

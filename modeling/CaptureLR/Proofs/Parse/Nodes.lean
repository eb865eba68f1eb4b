import CaptureLR.Proofs.Parse.Takings

/-!
# The nodes of a value

Every node in the value of a derivation tree was made where the capture of its class stands in the
tree, from the trees below. Such a node has all fields of its class, and a field that is an array
holds all elements taken for it exactly if nothing was taken for it on its own.
-/

namespace CaptureLR

/-! ### Nodes in values -/

/-- A node is somewhere in a value: it is the value, or it is in a field of the node or an item of
the array that the value is. -/
inductive Value.Contains : Value → Node → Prop
  | node (n : Node) : Contains (.node n) n
  | field {m n : Node} {v : Value} (hv : v ∈ m.values) (h : Contains v n) : Contains (.node m) n
  | item {items : List Value} {n : Node} {v : Value} (hv : v ∈ items) (h : Contains v n) :
      Contains (.array items) n

/-- Something holds of all nodes in a value. -/
def Value.Throughout (P : Node → Prop) (v : Value) : Prop := ∀ n, v.Contains n → P n

/-- Something holds of all nodes in the slots of a span. -/
def Slots.Throughout (P : Node → Prop) (slots : Slots) : Prop :=
  ∀ prop s, slots.get? prop = some s → s.value.Throughout P

section Throughout

variable {P : Node → Prop}

theorem Value.throughout_array_iff {items : List Value} :
  (Value.array items).Throughout P ↔ ∀ v ∈ items, v.Throughout P
  := by
  constructor
  · intro h v hv n hn
    apply h n (.item hv hn)
  · intro h n hn
    cases hn with
    | item hv hn => apply h _ hv n hn

theorem Value.throughout_missing (isArray : Bool) :
  (missing isArray).Throughout P
  := by
  cases isArray with
  | false =>
      intro n hn
      cases hn
  | true =>
      refine throughout_array_iff.mpr ?_
      intro v hv
      cases hv

/-- What holds in two slots holds in the joined one. -/
theorem Slot.throughout_joined {s s' t : Option Slot}
    (h : ∀ x, s = some x → x.value.Throughout P) (h' : ∀ x, s' = some x → x.value.Throughout P)
    (ht : Slots.joined s s' = t) :
  ∀ x, t = some x → x.value.Throughout P
  := by
  subst ht
  cases s with
  | none => apply h'
  | some a =>
      cases s' with
      | none => apply h
      | some b =>
          intro x hx
          cases hx
          cases a with
          | single v => apply h' b rfl
          | many vs =>
              cases b with
              | single w => apply h' _ rfl
              | many ws =>
                  have hvs := Value.throughout_array_iff.mp (h _ rfl)
                  have hws := Value.throughout_array_iff.mp (h' _ rfl)
                  refine Value.throughout_array_iff.mpr ?_
                  rw [Chain.toList_append]
                  exact List.forall_mem_append.mpr ⟨hvs, hws⟩

theorem Slots.throughout_empty :
  (∅ : Slots).Throughout P
  := by
  intro prop s hs
  cases hs

theorem Slots.Throughout.join {slots later : Slots} (h : slots.Throughout P)
    (h' : later.Throughout P) :
  (slots.join later).Throughout P
  := fun prop => Slot.throughout_joined (h prop) (h' prop) (get?_join slots later prop).symm

theorem Capture.throughout_slot (c : Capture) {v : Value} (hv : v.Throughout P) (splice : Bool) :
  (c.slot v splice).value.Throughout P
  := by
  have helements : ∀ w ∈ Slots.elements splice v, w.Throughout P := by
    unfold Slots.elements
    split
    · split
      · apply Value.throughout_array_iff.mp hv
      · apply List.forall_mem_singleton.mpr hv
    · apply List.forall_mem_singleton.mpr hv
  unfold slot
  split
  · refine Value.throughout_array_iff.mpr ?_
    rw [Chain.toList_ofList]
    apply helements
  · apply hv

theorem Slots.Throughout.store {slots : Slots} (h : slots.Throughout P) (c : Capture) {v : Value}
    (hv : v.Throughout P) (splice : Bool) :
  (slots.store c v splice).Throughout P
  := by
  intro prop
  have hget := get?_store slots c v splice prop
  split at hget
  · apply Slot.throughout_joined (h prop) _ hget.symm
    intro x hx
    cases hx
    apply c.throughout_slot hv
  · rw [hget]
    apply h prop

end Throughout

/-! ### The fields of a node -/

/-- A field holds what was captured for it, or what a missing field holds. -/
theorem get?_fillFields (fields : Fields) (captures : Captures) (prop : String) :
  (fillFields fields captures).get? prop
    = (captures.get? prop).or ((fields.get? prop).map Value.missing)
  := by
  have hlookup : fields.get? prop = fields.toList.lookup prop := rfl
  rw [fillFields, hlookup]
  generalize fields.toList = es
  induction es generalizing captures with
  | nil => simp
  | cons e es ih =>
      obtain ⟨k, b⟩ := e
      rw [List.foldl_cons, ih, List.lookup_cons]
      by_cases heq : prop = k
      · subst heq
        rw [OrderedMap.contains]
        cases hget : captures.get? prop <;> simp [hget]
      · have hne : (prop == k) = false := beq_false_of_ne heq
        rw [hne]
        split
        · rfl
        · rw [OrderedMap.get?_insert, if_neg heq]

theorem Node.get?_ofCaptures (c : NodeClass) (captures : Captures) (prop : String) :
  (Node.ofCaptures c captures).get? prop
    = (captures.get? prop).or ((c.fields.get? prop).map Value.missing)
  := get?_fillFields c.fields captures prop

/-- An array does not have itself for an item. -/
theorem Value.ne_of_mem {items : List Value} {v : Value} (h : v ∈ items) :
  v ≠ .array items
  := by
  rintro rfl
  have hlt := List.sizeOf_lt_of_mem h
  rw [array.sizeOf_spec] at hlt
  omega

section Fields

variable {c : NodeClass} {slots : Slots} {prop : String}

/-- A node has all fields of its class. -/
theorem Node.isSome_get?_ofCaptures {b : Bool} (hb : c.fields.get? prop = some b)
    (captures : Captures) :
  ((Node.ofCaptures c captures).get? prop).isSome
  := by
  rw [get?_ofCaptures, hb]
  cases captures.get? prop <;> rfl

/-- A field that is an array holds all elements that were stored for it exactly if nothing was
stored on its own. -/
theorem Node.get?_eq_array_iff {ss : List Slot} (h : Slot.Represents ss (slots.get? prop))
    (hc : c.fields.get? prop = some true) :
  (Node.ofCaptures c slots.captures).get? prop = some (.array (Slot.elementsOf ss))
    ↔ Slot.AreMany ss
  := by
  rw [get?_ofCaptures, hc, Slots.captures, OrderedMap.get?_map]
  generalize slots.get? prop = s at h
  cases h with
  | none h =>
      subst h
      exact ⟨fun _ => nofun, fun _ => rfl⟩
  | @single v hmem =>
      constructor
      · intro heq
        have helement : v ∈ Slot.elementsOf ss :=
          List.mem_flatMap.mpr ⟨_, hmem, List.mem_singleton_self v⟩
        cases Value.ne_of_mem helement (Option.some.inj heq)
      · intro hmany
        cases hmany _ hmem
  | @many vs hall hcount =>
      have hvalue : ((some (Slot.many vs)).map Slot.value).or
          ((some true).map Value.missing) = some (.array vs.toList) := rfl
      rw [hvalue, Option.some.injEq, Value.array.injEq]
      constructor
      · intro heq
        rw [heq] at hcount
        apply Slot.areMany_iff.mpr
        omega
      · apply hall

end Fields

/-- The nodes in what becomes of a class are those in its captures, and the node of the class. -/
theorem NodeClass.throughout_value {P : Node → Prop} {c : NodeClass} {slots : Slots}
    (h : slots.Throughout P)
    (hnode : c.hidden = false → P (Node.ofCaptures c slots.captures)) :
  (c.value slots.captures).Throughout P
  := by
  have hcaptured : ∀ prop v, slots.captures.get? prop = some v → v.Throughout P := by
    intro prop v hv
    rw [Slots.captures, OrderedMap.get?_map, Option.map_eq_some_iff] at hv
    obtain ⟨s, hs, rfl⟩ := hv
    apply h prop s hs
  unfold value
  split
  · cases hv : slots.captures.get? "value" with
    | none => apply Value.throughout_missing
    | some v => apply hcaptured _ v hv
  · next hhidden =>
    intro n hn
    cases hn with
    | node => apply hnode (eq_false_of_ne_true hhidden)
    | @field _ _ v hv hn =>
        obtain ⟨⟨prop, w⟩, hmem, rfl⟩ := List.mem_map.mp hv
        have hget := get?_fillFields c.fields slots.captures prop
        rw [OrderedMap.mem_toList_iff.mp hmem] at hget
        cases hprop : slots.captures.get? prop with
        | some w' =>
            rw [hprop] at hget
            cases hget
            apply hcaptured prop w hprop n hn
        | none =>
            rw [hprop, Option.none_or] at hget
            obtain ⟨b, -, rfl⟩ := Option.map_eq_some_iff.mp hget.symm
            apply Value.throughout_missing b n hn

/-! ### Where nodes are made -/

namespace DerivationTree

mutual

/-- Somewhere in a tree that is followed by a position, a class is captured: it takes what is
captured in some trees that are followed by a position. -/
inductive Makes (g : Grammar) (classes : ClassTable) : Position → DerivationTree → NodeClass →
    Position → List DerivationTree → Prop
  | here {behind : Position} {r : Nat} {children : List DerivationTree} {c : Capture} {id : ClassId}
      {n : NodeClass} (hc : g.capture? (g.head r) = some c) (hk : c.kind = .node id)
      (hn : classes.get? id = some n) :
      Makes g classes behind (node r children) n behind children
  | inside {behind behind' : Position} {r : Nat} {children cs : List DerivationTree} {n : NodeClass}
      (h : MakesIn g classes behind children n behind' cs) :
      Makes g classes behind (node r children) n behind' cs

/-- Somewhere in several trees that are followed by a position, a class is captured. -/
inductive MakesIn (g : Grammar) (classes : ClassTable) : Position → List DerivationTree →
    NodeClass → Position → List DerivationTree → Prop
  | head {behind behind' : Position} {t : DerivationTree} {ts cs : List DerivationTree}
      {n : NodeClass} (h : Makes g classes (startOf (tokensOf ts) behind) t n behind' cs) :
      MakesIn g classes behind (t :: ts) n behind' cs
  | tail {behind behind' : Position} {t : DerivationTree} {ts cs : List DerivationTree}
      {n : NodeClass} (h : MakesIn g classes behind ts n behind' cs) :
      MakesIn g classes behind (t :: ts) n behind' cs

end

variable {g : Grammar} {classes : ClassTable}

/-- What a class takes from some trees is a node of the class, if the class is not hidden. -/
def IsNode (g : Grammar) (classes : ClassTable) (n : NodeClass) (behind : Position)
    (cs : List DerivationTree) (N : Node) : Prop :=
  n.hidden = false ∧ N = Node.ofCaptures n (slotsOf g classes behind ∅ cs).captures

mutual

/-- What holds of all nodes made in a tree holds of all nodes in its slots. -/
theorem throughout_slots {P : Node → Prop} : ∀ {behind : Position} {t : DerivationTree},
    (∀ n behind' cs N, Makes g classes behind t n behind' cs → IsNode g classes n behind' cs N →
      P N) →
    (t.slots g classes behind).Throughout P
  | _, leaf _, _ => Slots.throughout_empty
  | behind, node r children, h => by
      have hinside : (slotsOf g classes behind ∅ children).Throughout P :=
        throughout_slotsOf Slots.throughout_empty
          (fun n behind' cs N hm => h n behind' cs N (.inside hm))
      have htokens : ∀ ts : List Token, (Value.array (ts.map Value.token)).Throughout P := by
        intro ts
        refine Value.throughout_array_iff.mpr ?_
        intro v hv N hN
        obtain ⟨t, -, rfl⟩ := List.mem_map.mp hv
        cases hN
      rw [slots]
      cases hc : g.capture? (g.head r) with
      | none => apply hinside
      | some c =>
          simp only [Slots.captured]
          cases hk : c.kind with
          | token =>
              apply hinside.store
              intro N hN
              cases hN
          | span =>
              apply hinside.store
              apply htokens
          | node id =>
              simp only
              cases hn : classes.get? id with
              | none => apply hinside
              | some n =>
                  have hvalue := NodeClass.throughout_value hinside
                    (fun hhidden => h n behind children _ (.here hc hk hn) ⟨hhidden, rfl⟩)
                  apply Slots.throughout_empty.store c hvalue

/-- What holds of all nodes captured before some trees and made in them holds of all nodes in their
slots. -/
theorem throughout_slotsOf {P : Node → Prop} : ∀ {behind : Position} {before : Slots}
    {ts : List DerivationTree}, before.Throughout P →
    (∀ n behind' cs N, MakesIn g classes behind ts n behind' cs → IsNode g classes n behind' cs N →
      P N) →
    (slotsOf g classes behind before ts).Throughout P
  | _, _, [], hbefore, _ => hbefore
  | behind, before, t :: ts, hbefore, h => by
      rw [slotsOf]
      apply throughout_slotsOf
      · apply hbefore.join
        apply throughout_slots
        intro n behind' cs N hm
        apply h n behind' cs N (.head hm)
      · intro n behind' cs N hm
        apply h n behind' cs N (.tail hm)

end

/-- Every node in the value of a tree was made in the tree. -/
theorem exists_makes_of_contains {behind : Position} {t : DerivationTree} {N : Node}
    (h : (t.rootValue g classes behind).Contains N) :
  ∃ n behind' cs, Makes g classes behind t n behind' cs ∧ IsNode g classes n behind' cs N
  := by
  have hslots : (t.slots g classes behind).Throughout (fun N => ∃ n behind' cs,
      Makes g classes behind t n behind' cs ∧ IsNode g classes n behind' cs N) :=
    throughout_slots (fun n behind' cs N hm hN => ⟨n, behind', cs, hm, hN⟩)
  unfold rootValue at h
  cases hs : (t.slots g classes behind).get? "root" with
  | none =>
      rw [hs] at h
      cases h
  | some s =>
      rw [hs] at h
      apply hslots _ s hs N h

mutual

/-- Where a class is captured in a tree that is derived, a rule of a nonterminal that captures the
class derives the trees. -/
theorem Makes.exists_rule : ∀ {behind behind' : Position} {t : DerivationTree}
    {cs : List DerivationTree} {n : NodeClass} {s : Symbol},
    Makes g classes behind t n behind' cs → t.DerivesFrom g s →
    ∃ m r c id, r ∈ g.rulesFor m ∧ DeriveFrom g (g.expansion r) cs
      ∧ g.capture? (g.head r) = some c ∧ c.kind = .node id ∧ classes.get? id = some n
  | _, _, _, _, _, .nonterminal m, .here hc hk hn, ht => by
      rw [DerivesFrom] at ht
      exact ⟨m, _, _, _, ht.1, ht.2, hc, hk, hn⟩
  | _, _, _, _, _, .nonterminal m, .inside h, ht => by
      rw [DerivesFrom] at ht
      apply h.exists_rule ht.2
  | _, _, _, _, _, .terminal _, .here _ _ _, ht => by simp [DerivesFrom] at ht
  | _, _, _, _, _, .terminal _, .inside _, ht => by simp [DerivesFrom] at ht

theorem MakesIn.exists_rule : ∀ {behind behind' : Position} {ts cs : List DerivationTree}
    {n : NodeClass} {ss : List Symbol},
    MakesIn g classes behind ts n behind' cs → DeriveFrom g ss ts →
    ∃ m r c id, r ∈ g.rulesFor m ∧ DeriveFrom g (g.expansion r) cs
      ∧ g.capture? (g.head r) = some c ∧ c.kind = .node id ∧ classes.get? id = some n
  | _, _, _, _, _, s :: ss, .head h, hts => by
      rw [DeriveFrom] at hts
      apply h.exists_rule hts.1
  | _, _, _, _, _, s :: ss, .tail h, hts => by
      rw [DeriveFrom] at hts
      apply h.exists_rule hts.2
  | _, _, _, _, _, [], .head _, hts => by simp [DeriveFrom] at hts
  | _, _, _, _, _, [], .tail _, hts => by simp [DeriveFrom] at hts

end

end DerivationTree

end CaptureLR

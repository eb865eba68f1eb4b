import CaptureLR.Proofs.Parse.Arrays

/-!
# Where the fields of nodes come from

What a node holds was captured in the trees it was made from, outside of the nodes further down:
each capture there stands in the class of the node or in one whose captures flow into it, so no
other property gets into the node, and what a nested node has captured stays in it. A field for
which there is no capture holds what a missing field holds.
-/

namespace CaptureLR

open Grammar DerivationTree

/-! ### What slots are drawn from -/

/-- A property holds something exactly if something was stored for it, and nothing but what was
stored. -/
structure Slot.DrawnFrom (ss : List Slot) (s : Option Slot) : Prop where
  isSome : s.isSome = true ↔ ss ≠ []
  elements : ∀ held, s = some held → ∀ v ∈ held.elements, v ∈ elementsOf ss

/-- What is joined is drawn from what was stored first and later. -/
theorem Slot.DrawnFrom.joined {ss ss' : List Slot} {s s' : Option Slot} (h : DrawnFrom ss s)
    (h' : DrawnFrom ss' s') :
  DrawnFrom (ss ++ ss') (Slots.joined s s')
  := by
  have helements : elementsOf (ss ++ ss') = elementsOf ss ++ elementsOf ss' := List.flatMap_append
  have hne : (ss ++ ss' ≠ []) ↔ s.isSome = true ∨ s'.isSome = true := by
    rw [h.isSome, h'.isSome, ne_eq, List.append_eq_nil_iff, Decidable.not_and_iff_not_or_not]
  constructor
  · rw [hne]
    cases s with
    | none => simp [Slots.joined]
    | some held => cases s' <;> simp [Slots.joined]
  · intro held hheld w hw
    rw [helements, List.mem_append]
    cases s with
    | none => exact Or.inr (h'.elements held hheld w hw)
    | some a =>
        cases s' with
        | none => exact Or.inl (h.elements held hheld w hw)
        | some b =>
            cases hheld
            cases a with
            | single v => exact Or.inr (h'.elements b rfl w hw)
            | many vs =>
                cases b with
                | single v => exact Or.inr (h'.elements _ rfl w hw)
                | many ws =>
                    have hjoined : ((many vs).join (many ws)).elements
                        = (many vs).elements ++ (many ws).elements := Chain.toList_append _ _
                    rw [hjoined, List.mem_append] at hw
                    exact hw.imp (h.elements _ rfl w) (h'.elements _ rfl w)

theorem Slot.isKept_drawnFrom :
  IsKept DrawnFrom
  where
  nothing := ⟨by simp, nofun⟩
  stored s := by
    refine ⟨by simp, ?_⟩
    rintro _ ⟨⟩
    rw [elementsOf, List.flatMap_singleton]
    exact fun _ => id
  joined := DrawnFrom.joined

/-! ### Captures outside of nodes -/

/-- All classes that are captured are in a table. -/
def ClassTable.Knows (classes : ClassTable) (g : Grammar) : Prop :=
  ∀ n c id, g.capture? n = some c → c.kind = .node id → (classes.get? id).isSome

namespace DerivationTree

mutual

/-- In a tree something is stored for a capture outside of the nodes captured there: by the rule of
the tree, or further down if the rule does not capture a node. -/
inductive Stores (g : Grammar) : DerivationTree → Capture → Prop
  | here {r : Nat} {children : List DerivationTree} {c : Capture}
      (hc : g.capture? (g.head r) = some c) :
      Stores g (node r children) c
  | inside {r : Nat} {children : List DerivationTree} {c : Capture}
      (hout : ∀ c' id, g.capture? (g.head r) = some c' → c'.kind ≠ .node id)
      (h : StoresIn g children c) :
      Stores g (node r children) c

/-- In several trees something is stored for a capture outside of the nodes captured there. -/
inductive StoresIn (g : Grammar) : List DerivationTree → Capture → Prop
  | head {t : DerivationTree} {ts : List DerivationTree} {c : Capture} (h : Stores g t c) :
      StoresIn g (t :: ts) c
  | tail {t : DerivationTree} {ts : List DerivationTree} {c : Capture} (h : StoresIn g ts c) :
      StoresIn g (t :: ts) c

end

variable {g : Grammar} {classes : ClassTable}

mutual

/-- What is taken in a tree is stored there for a capture. -/
theorem exists_stores_of_mem_takings (hknown : classes.Knows g) {prop : String} :
    ∀ {behind : Position} {t : DerivationTree} {s : Slot},
    s ∈ t.takings g classes prop behind →
    ∃ c, t.Stores g c ∧ c.prop = prop ∧ s.isMany = c.isArray
  | _, leaf _, _, hs => by
      rw [takings] at hs
      cases hs
  | _, node r children, _, hs => by
      rcases mem_takings_node hs with ⟨c, hc, hprop, hmany⟩ | ⟨hs, hnone⟩
      · exact ⟨c, .here hc, hprop, hmany⟩
      · obtain ⟨c, hstores, hprop, hmany⟩ := exists_storesIn_of_mem_takingsOf hknown hs
        refine ⟨c, .inside ?_ hstores, hprop, hmany⟩
        intro c' id hc' hk
        have hsome := hknown _ c' id hc' hk
        rw [hnone c' id hc' hk] at hsome
        cases hsome

/-- What is taken in several trees is stored there for a capture. -/
theorem exists_storesIn_of_mem_takingsOf (hknown : classes.Knows g) {prop : String} :
    ∀ {behind : Position} {cs : List DerivationTree} {s : Slot},
    s ∈ takingsOf g classes prop behind cs →
    ∃ c, StoresIn g cs c ∧ c.prop = prop ∧ s.isMany = c.isArray
  | _, [], _, hs => by
      rw [takingsOf] at hs
      cases hs
  | _, t :: cs, _, hs => by
      rw [takingsOf, List.mem_append] at hs
      rcases hs with hs | hs
      · obtain ⟨c, hstores, hc⟩ := exists_stores_of_mem_takings hknown hs
        exact ⟨c, .head hstores, hc⟩
      · obtain ⟨c, hstores, hc⟩ := exists_storesIn_of_mem_takingsOf hknown hs
        exact ⟨c, .tail hstores, hc⟩

end

mutual

/-- What is stored in a tree for a capture is taken there. -/
theorem Stores.exists_mem_takings (hknown : classes.Knows g) : ∀ {t : DerivationTree}
    {c : Capture} (_ : t.Stores g c) (behind : Position),
    ∃ s ∈ t.takings g classes c.prop behind, s.isMany = c.isArray
  | node r children, c, .here hc, behind => by
      have hstored : ∀ (inside : List Slot) (v : Value) (splice : Bool),
          ∃ s ∈ inside ++ c.takings c.prop v splice, s.isMany = c.isArray := by
        intro inside v splice
        have hmem : c.slot v splice ∈ c.takings c.prop v splice := by
          rw [Capture.takings, if_pos rfl]
          apply List.mem_singleton_self
        exact ⟨_, List.mem_append_right _ hmem, (Capture.mem_takings hmem).2⟩
      rw [takings]
      simp only [hc]
      cases hk : c.kind with
      | token => apply hstored
      | span => apply hstored
      | node id =>
          obtain ⟨n, hn⟩ := Option.isSome_iff_exists.mp (hknown _ c id hc hk)
          simp only [hn]
          apply hstored []
  | node r children, c, .inside hout h, behind => by
      obtain ⟨s, hs, hmany⟩ := h.exists_mem_takingsOf hknown behind
      rw [takings]
      cases hc : g.capture? (g.head r) with
      | none => exact ⟨s, hs, hmany⟩
      | some c' =>
          cases hk : c'.kind with
          | token =>
              simp only [hk]
              exact ⟨s, List.mem_append_left _ hs, hmany⟩
          | span =>
              simp only [hk]
              exact ⟨s, List.mem_append_left _ hs, hmany⟩
          | node id => cases hout c' id hc hk

/-- What is stored in several trees for a capture is taken there. -/
theorem StoresIn.exists_mem_takingsOf (hknown : classes.Knows g) :
    ∀ {cs : List DerivationTree} {c : Capture} (_ : StoresIn g cs c) (behind : Position),
    ∃ s ∈ takingsOf g classes c.prop behind cs, s.isMany = c.isArray
  | t :: cs, c, .head h, behind => by
      obtain ⟨s, hs, hmany⟩ := h.exists_mem_takings hknown (startOf (tokensOf cs) behind)
      rw [takingsOf]
      exact ⟨s, List.mem_append_left _ hs, hmany⟩
  | t :: cs, c, .tail h, behind => by
      obtain ⟨s, hs, hmany⟩ := h.exists_mem_takingsOf hknown behind
      rw [takingsOf]
      exact ⟨s, List.mem_append_right _ hs, hmany⟩

end

end DerivationTree

/-! ### What nodes are drawn from -/

/-- A node is drawn from what was captured in some trees that are followed by a position, outside of
the nodes captured there. All that was captured so stands in the class of the node or in one whose
captures flow into it, each field is one of such a class and holds only what was captured for it,
and a field of the class for which nothing was captured holds what a missing field holds. -/
structure Node.DrawnFrom (l : Language) (g : Grammar) (classes : ClassTable) (behind : Position)
    (cs : List DerivationTree) (c : NodeClass) (n : Node) : Prop where
  nodeClass : classes.get? n.nodeClass = some c
  taken : IsNode g classes c behind cs n
  gathered : ∀ cap, StoresIn g cs cap → l.Gathers n.nodeClass cap.prop cap.isArray
  declared : ∀ e ∈ n.fields, (c.fields.get? e.1).isSome
    ∨ ∃ d c', l.Flows n.nodeClass d ∧ classes.get? d = some c' ∧ (c'.fields.get? e.1).isSome
  drawn : ∀ e ∈ n.fields, ∀ cap, StoresIn g cs cap → cap.prop = e.1 →
    ∃ s : Slot, s.value = e.2
      ∧ ∀ v ∈ s.elements, v ∈ Slot.elementsOf (takingsOf g classes e.1 behind cs)
  missing : ∀ prop b, c.fields.get? prop = some b → (∀ cap, StoresIn g cs cap → cap.prop ≠ prop) →
    n.get? prop = some (.missing b)

/-- A field of a node holds what was captured for it, or what a missing field holds. -/
theorem Node.or_eq_of_mem_fields {c : NodeClass} {slots : Slots} {e : String × Value}
    (h : e ∈ (Node.ofCaptures c slots.captures).fields) :
  ((slots.get? e.1).map Slot.value).or ((c.fields.get? e.1).map Value.missing) = some e.2
  := by
  have hget := OrderedMap.mem_toList_iff.mp (show (e.1, e.2) ∈ _ from h)
  rw [get?_fillFields, Slots.captures, OrderedMap.get?_map] at hget
  exact hget

section Drawn

variable {l : Language} {root : ClassId} {classes : ClassTable} {lg : LanguageGrammar}
  (hc : ClassTable.collect l root = .ok classes)
  (hgrammar : Source.grammar ⟨l, classes⟩ root = .ok lg)

include hc hgrammar

/-- A node made where a class is captured in some trees is drawn from what was captured below. -/
theorem DerivationTree.MakesIn.drawnFrom {behind behind' : Position} {ts cs : List DerivationTree}
    {ss : List Symbol} {c : NodeClass} {n : Node} (hts : DeriveFrom lg.grammar ss ts)
    (hm : MakesIn lg.grammar classes behind ts c behind' cs)
    (hn : IsNode lg.grammar classes c behind' cs n) :
  n.DrawnFrom l lg.grammar classes behind' cs c
  := by
  obtain ⟨hid, hgathers⟩ := hm.gathers hc hgrammar hts
  have hknown : classes.Knows lg.grammar := (Source.compiled_of_grammar hgrammar).known
  have hslots : ∀ prop, Slot.DrawnFrom (takingsOf lg.grammar classes prop behind' cs)
      ((slotsOf lg.grammar classes behind' ∅ cs).get? prop) :=
    fun prop => kept_slotsOf lg.grammar classes prop Slot.isKept_drawnFrom behind' ∅ cs
      Slot.isKept_drawnFrom.nothing
  have hnode : n.nodeClass = c.id := by rw [hn.2, Node.ofCaptures]
  constructor
  · rw [hnode, hid]
  · apply hn
  · intro cap hstores
    obtain ⟨s, hs, hmany⟩ := hstores.exists_mem_takingsOf hknown behind'
    rw [hnode, ← hmany]
    apply hgathers cap.prop s hs
  · intro e he
    rw [hn.2] at he
    have hfield := Node.or_eq_of_mem_fields he
    cases hheld : (slotsOf lg.grammar classes behind' ∅ cs).get? e.1 with
    | none =>
        left
        rw [hheld, Option.map_none, Option.none_or] at hfield
        obtain ⟨b, hb, -⟩ := Option.map_eq_some_iff.mp hfield
        rw [hb]
        rfl
    | some held =>
        right
        have hne := (hslots e.1).isSome.mp (by rw [hheld]; rfl)
        obtain ⟨s, hs⟩ := List.exists_mem_of_ne_nil _ hne
        obtain ⟨d, c', hf, hc', hb⟩ :=
          ClassTable.exists_field_of_gathers hc hid (hgathers e.1 s hs)
        refine ⟨d, c', hnode ▸ hf, hc', ?_⟩
        rw [hb]
        rfl
  · intro e he cap hstores hcap
    rw [hn.2] at he
    have hfield := Node.or_eq_of_mem_fields he
    obtain ⟨s, hs, -⟩ := hstores.exists_mem_takingsOf hknown behind'
    rw [hcap] at hs
    have hsome := (hslots e.1).isSome.mpr (List.ne_nil_of_mem hs)
    obtain ⟨held, hheld⟩ := Option.isSome_iff_exists.mp hsome
    rw [hheld, Option.map_some, Option.some_or] at hfield
    exact ⟨held, Option.some.inj hfield, (hslots e.1).elements held hheld⟩
  · intro prop b hb hnone
    have hnil : takingsOf lg.grammar classes prop behind' cs = [] := by
      apply List.eq_nil_iff_forall_not_mem.mpr
      intro s hs
      obtain ⟨cap, hstores, hcap, -⟩ := exists_storesIn_of_mem_takingsOf hknown hs
      apply hnone cap hstores hcap
    have hempty : (slotsOf lg.grammar classes behind' ∅ cs).get? prop = none := by
      apply Option.not_isSome_iff_eq_none.mp
      rw [(hslots prop).isSome]
      apply not_not_intro hnil
    rw [hn.2, Node.get?_ofCaptures, Slots.captures, OrderedMap.get?_map, hempty, hb]
    rfl

end Drawn

/-- Every node in the value of a parse was made where its class is captured in the tree of the
parse, and it is drawn from what was captured below, outside of the nodes there. -/
theorem Parser.exists_drawnFrom_of_parse {l : Language} {root : ClassId} {config : ParserConfig}
    {p : Parser} (hbuild : (Parser.build l root config).2 = .ok p) (hp : p.generated = true)
    {σ : Type} {next : σ → Option (TokenItem × σ)} {source : σ} {fuel : Nat} {v : Value}
    (hparse : p.machine.parse next fuel source = some (.ok v)) :
  ∃ lg t behind, Source.grammar ⟨l, p.classes⟩ root = .ok lg
    ∧ DeriveFrom lg.grammar (lg.grammar.expansion lg.startRule) [t]
    ∧ Reads next .start source (tokensOf [t]) behind
    ∧ v = rootValue lg.grammar p.classes behind (.node lg.startRule [t])
    ∧ ∀ n, v.Contains n → ∃ c behind' cs, MakesIn lg.grammar p.classes behind [t] c behind' cs
      ∧ n.DrawnFrom l lg.grammar p.classes behind' cs c
  := by
  obtain ⟨lg, t, behind, hgrammar, ht, hreads, rfl⟩ := exists_root_of_parse hbuild hp hparse
  refine ⟨lg, t, behind, hgrammar, ht, hreads, rfl, ?_⟩
  intro n hn
  have hc := Parser.collect_of_build hbuild
  have hg := Source.compiled_of_grammar hgrammar
  obtain ⟨c, behind', cs, hm, hnode⟩ := exists_makes_of_contains hn
  cases hm with
  | here hcap =>
      -- the start rule captures nothing
      rw [Grammar.head, hg.rooted.rule] at hcap
      cases hg.plain.symm.trans hcap
  | inside hm => exact ⟨c, behind', cs, hm, hm.drawnFrom hc hgrammar ht hnode⟩

/-- The theorem at a whole that takes what is captured in its part. -/
theorem Parser.exists_drawnFrom_of_parse_parted :
  (Parser.build (.parted true) ⟨0⟩ {}).2 = .ok (.parted true)
    ∧ (Parser.parted true).generated = true
    ∧ (Parser.parted true).machine.parse nextOfList 10 Token.parted = some (.ok (.parted true))
    ∧ ∃ lg t behind, Source.grammar ⟨.parted true, (Parser.parted true).classes⟩ ⟨0⟩ = .ok lg
      ∧ DeriveFrom lg.grammar (lg.grammar.expansion lg.startRule) [t]
      ∧ Reads nextOfList .start Token.parted (tokensOf [t]) behind
      ∧ Value.parted true
        = rootValue lg.grammar (Parser.parted true).classes behind (.node lg.startRule [t])
      ∧ ∀ n, (Value.parted true).Contains n → ∃ c behind' cs,
        MakesIn lg.grammar (Parser.parted true).classes behind [t] c behind' cs
          ∧ n.DrawnFrom (.parted true) lg.grammar (Parser.parted true).classes behind' cs c
  := by
  use Parser.build_parted true, rfl, Parser.parse_parted true
  apply Parser.exists_drawnFrom_of_parse (Parser.build_parted true) rfl (Parser.parse_parted true)

end CaptureLR

import CaptureLR.Proofs.Language.Fields
import CaptureLR.Proofs.Lowering.Labels
import CaptureLR.Proofs.Lowering.Readings

/-!
# The captures that reach a class

What is captured below a nonterminal of a class, but not below a node, is captured by a match that
stands in the class, or in another one whose captures flow into it. The nonterminals are followed
from the class on: each of them was made for such a class, for an instance that stands in one, or
for the loop of a repetition there.
-/

namespace CaptureLR

open Grammar

/-! ### The symbols of expansions -/

section Symbols

variable {l : Language} {instances : OrderedMap CombinatorId Nonterminal} {c : ClassId}
  {es ds ss : List Symbol} {ts : Option (List Symbol)} {x : Symbol} {n : Nat}

/-- The nonterminals in written patterns are those of instances that stand where the patterns do. -/
theorem Language.Writes.exists_instance {ps : List Pattern} (h : l.Writes instances ps ss)
    (hps : ∀ p ∈ ps, l.Inside c p) {m : Nonterminal} (hm : .nonterminal m ∈ ss) :
  ∃ id, l.Inside c (.combinator id) ∧ instances.get? id = some m
  := by
  induction h with
  | nil => cases hm
  | literal _ ih =>
      rw [List.forall_mem_cons] at hps
      rcases List.mem_cons.mp hm with heq | hm
      · cases heq
      · apply ih hps.2 hm
  | sequence _ _ ihi ih =>
      rw [List.forall_mem_cons] at hps
      rcases List.mem_append.mp hm with hm | hm
      · apply ihi (fun p hp => hps.1.item hp) hm
      · apply ih hps.2 hm
  | dangling _ _ ih =>
      rw [List.forall_mem_cons] at hps
      apply ih hps.2 hm
  | combinator hn _ ih =>
      rw [List.forall_mem_cons] at hps
      rcases List.mem_cons.mp hm with heq | hm
      · cases heq
        exact ⟨_, hps.1, hn⟩
      · apply ih hps.2 hm

/-- A symbol stands in one of the written parts of a repetition. -/
def OfParts (es ds : List Symbol) (ts : Option (List Symbol)) (x : Symbol) : Prop :=
  x ∈ es ∨ x ∈ ds ∨ ∃ t, ts = some t ∧ x ∈ t

theorem ofParts_of_mem_repeated (h : x ∈ repeated es ds n) :
  OfParts es ds ts x
  := by
  rcases List.mem_append.mp h with h | h
  · exact Or.inl h
  · obtain ⟨ss, hss, hx⟩ := List.mem_flatten.mp h
    rw [List.eq_of_mem_replicate hss] at hx
    rcases List.mem_append.mp hx with hx | hx
    · exact Or.inr (Or.inl hx)
    · exact Or.inl hx

theorem ofParts_of_mem_bounded {r : Repetition} {lower upper : Nat}
    (hss : ss ∈ r.noElements ++ boundedExpansions es ds ts lower upper) (hx : x ∈ ss) :
  OfParts es ds ts x
  := by
  rcases List.mem_append.mp hss with hss | hss
  · unfold Repetition.noElements at hss
    split at hss
    · cases List.mem_singleton.mp hss
      cases hx
    · cases hss
  · obtain ⟨k, -, rfl | ⟨t, rfl, rfl⟩⟩ := mem_boundedExpansions.mp hss
    · apply ofParts_of_mem_repeated hx
    · rcases List.mem_append.mp hx with hx | hx
      · apply ofParts_of_mem_repeated hx
      · exact Or.inr (Or.inr ⟨t, rfl, hx⟩)

theorem ofParts_of_mem_unbounded {r : Repetition} {loop : Nonterminal}
    (hss : ss ∈ r.noElements ++ [repeated es ds n ++ [.nonterminal loop]]) (hx : x ∈ ss) :
  OfParts es ds ts x ∨ x = .nonterminal loop
  := by
  rcases List.mem_append.mp hss with hss | hss
  · unfold Repetition.noElements at hss
    split at hss
    · cases List.mem_singleton.mp hss
      cases hx
    · cases hss
  · cases List.mem_singleton.mp hss
    rcases List.mem_append.mp hx with hx | hx
    · exact Or.inl (ofParts_of_mem_repeated hx)
    · exact Or.inr (List.mem_singleton.mp hx)

theorem ofParts_of_mem_loop {loop : Nonterminal} (hss : ss ∈ loopExpansions es ds ts loop)
    (hx : x ∈ ss) :
  OfParts es ds ts x ∨ x = .nonterminal loop
  := by
  rcases mem_loopExpansions.mp hss with rfl | rfl | rfl
  · cases hx
  · rcases List.mem_append.mp hx with hx | hx
    · left
      rcases List.mem_append.mp hx with hx | hx
      · exact Or.inr (Or.inl hx)
      · exact Or.inl hx
    · exact Or.inr (List.mem_singleton.mp hx)
  · exact Or.inl (Or.inr (Or.inr ⟨ss, rfl, hx⟩))

theorem mem_parts_repetition {name : Option String} {r : Repetition} {p : Pattern} :
  p ∈ Combinator.parts ⟨name, .repetition r⟩
    ↔ p = r.element ∨ p = r.delimiter ∨ r.trailing = .pattern p
  := by
  cases htrailing : r.trailing <;> simp [Combinator.parts, htrailing, eq_comm]

/-- The nonterminals in the written parts of a repetition are those of instances that stand where
the repetition does. -/
theorem Language.WritesParts.exists_instance {r : Repetition}
    (h : l.WritesParts instances r es ds ts) {id : CombinatorId} {name : Option String}
    (hin : l.Inside c (.combinator id)) (hid : l.combinator? id = some ⟨name, .repetition r⟩)
    {m : Nonterminal} (hm : OfParts es ds ts (.nonterminal m)) :
  ∃ id, l.Inside c (.combinator id) ∧ instances.get? id = some m
  := by
  have hpart : ∀ p, p = r.element ∨ p = r.delimiter ∨ r.trailing = .pattern p →
      ∀ q ∈ [p], l.Inside c q := by
    intro p hp
    rw [List.forall_mem_singleton]
    apply hin.part hid (mem_parts_repetition.mpr hp)
  rcases hm with hm | hm | ⟨t, rfl, hm⟩
  · apply h.element.exists_instance (hpart _ (Or.inl rfl)) hm
  · apply h.delimiter.exists_instance (hpart _ (Or.inr (Or.inl rfl))) hm
  · have ht := h.trailing
    generalize htrailing : r.trailing = trailing at ht
    cases ht with
    | delimiter => apply h.delimiter.exists_instance (hpart _ (Or.inr (Or.inl rfl))) hm
    | pattern hp => apply hp.exists_instance (hpart _ (Or.inr (Or.inr htrailing))) hm

end Symbols

/-! ### Lowered languages -/

/-- The draft of all rules for a root: all instances and classes are made, the captures are those of
the instances, and the root nonterminal leads to that of the root class. -/
structure Draft.Lowered (l : Language) (root : ClassId) (d : Draft) : Prop where
  settled : d.Settled l
  pending : d.pending = []
  labelled : d.Labelled l root
  inner : ∀ c n, d.classes.get? c = some n → n ≠ ⟨1⟩
  rootClass : d.classes.get? root = some ⟨2⟩
  rootRule : d.grammar.expansionsOf ⟨1⟩ = [[.nonterminal ⟨2⟩]]

/-- The grammar of a language is that of its draft, with first sets. -/
theorem Source.exists_lowered {s : Source} (hs : s.Identifies) {root : ClassId}
    {lg : LanguageGrammar} (h : s.grammar root = .ok lg) :
  ∃ d : Draft, d.Lowered s.language root ∧ lg.grammar = d.grammar.computeFirst
  := by
  unfold grammar at h
  split at h
  · cases h
  · next startRule d hrun =>
    cases h
    obtain ⟨hsettled, hpending, hclass, -, hroot⟩ := settled_of_lowerAll hs hrun
    obtain ⟨-, hproper⟩ := proper_of_lowerAll hrun
    refine ⟨d, ⟨hsettled, hpending, labelled_of_lowerAll hrun, ?_, hclass, hroot⟩, rfl⟩
    rintro c n hn rfl
    apply Nat.not_succ_le_self 1 (hproper.classes c _ hn).1

/-- A nonterminal was made for what stands in a class or in one whose captures flow into it: for the
class itself, for an instance, or for the loop of a repetition. -/
inductive Draft.Belongs (l : Language) (d : Draft) (c : ClassId) : Nonterminal → Prop
  | ofClass {c' : ClassId} {n : Nonterminal} (hf : l.Flows c c')
      (hn : d.classes.get? c' = some n) :
      Belongs l d c n
  | ofInstance {c' : ClassId} {id : CombinatorId} {n : Nonterminal} (hf : l.Flows c c')
      (hin : l.Inside c' (.combinator id)) (hn : d.instances.get? id = some n) :
      Belongs l d c n
  | ofLoop {c' : ClassId} {id : CombinatorId} {name : Option String} {r : Repetition}
      {es ds : List Symbol} {ts : Option (List Symbol)} {n : Nonterminal} (hf : l.Flows c c')
      (hin : l.Inside c' (.combinator id)) (hid : l.combinator? id = some ⟨name, .repetition r⟩)
      (hparts : l.WritesParts d.instances r es ds ts)
      (hn : d.grammar.expansionsOf n = loopExpansions es ds ts n) :
      Belongs l d c n

theorem Draft.Belongs.of_inside {l : Language} {d : Draft} {c c' : ClassId} {n : Nonterminal}
    (hf : l.Flows c c')
    (h : ∃ id, l.Inside c' (.combinator id) ∧ d.instances.get? id = some n) :
  d.Belongs l c n
  := by
  obtain ⟨id, hin, hn⟩ := h
  exact .ofInstance hf hin hn

namespace Draft.Lowered

variable {l : Language} {root : ClassId} {d : Draft} {n : Nonterminal} {cap : Capture}

/-- What an instance captures is what its match says. -/
theorem exists_match (h : d.Lowered l root) {id : CombinatorId} (hn : d.instances.get? id = some n)
    (hcap : d.grammar.capture? n = some cap) :
  ∃ name m target, l.combinator? id = some ⟨name, .capture m⟩ ∧ m.target = some target
    ∧ m.capture? target = some cap ∧ d.Defines l 0 n (.capture m)
  := by
  obtain ⟨comb, hid, hdef⟩ := (h.settled.instances id n hn).defined
  obtain ⟨comb', hid', hlabel⟩ := h.labelled.label id n hn
  cases hid.symm.trans hid'
  obtain ⟨name, shape⟩ := comb
  rw [hcap] at hlabel
  cases shape with
  | choice branches => cases hlabel
  | repetition r => cases hlabel
  | capture m =>
      obtain ⟨target, htarget, hm⟩ := Option.bind_eq_some_iff.mp hlabel.symm
      exact ⟨name, m, target, hid, htarget, hm, hdef⟩

/-- A nonterminal that captures something has one expansion only. -/
theorem length_expansionsOf (h : d.Lowered l root) (hcap : d.grammar.capture? n = some cap) :
  (d.grammar.expansionsOf n).length = 1
  := by
  rcases h.labelled.only n cap hcap with ⟨rfl, -⟩ | ⟨id, hn⟩
  · rw [h.rootRule]
    rfl
  · obtain ⟨-, m, -, -, -, -, hdef⟩ := h.exists_match hn hcap
    cases hdef with
    | toPattern _ _ he =>
        rw [he]
        rfl
    | toClass _ _ he =>
        rw [he]
        rfl

/-- A nonterminal that captures a node leads to the nonterminal of the class. -/
theorem exists_inner (h : d.Lowered l root) (hcap : d.grammar.capture? n = some cap) {c : ClassId}
    (hk : cap.kind = .node c) :
  ∃ inner, d.classes.get? c = some inner ∧ d.grammar.expansionsOf n = [[.nonterminal inner]]
  := by
  rcases h.labelled.only n cap hcap with ⟨rfl, hroot⟩ | ⟨id, hn⟩
  · cases hk.symm.trans hroot
    exact ⟨⟨2⟩, h.rootClass, h.rootRule⟩
  · obtain ⟨-, m, target, -, htarget, hm, hdef⟩ := h.exists_match hn hcap
    obtain ⟨prop, -, rfl⟩ := Option.map_eq_some_iff.mp hm
    cases hdef with
    | toPattern htarget' =>
        cases htarget.symm.trans htarget'
        next p _ _ _ => cases p <;> cases hk
    | toClass htarget' hinner he =>
        cases htarget.symm.trans htarget'
        cases hk
        exact ⟨_, hinner, he⟩

variable {c c' : ClassId} (h : d.Lowered l root)

include h

/-- What a nonterminal that belongs to a class captures is gathered by the class. -/
theorem gathers (hb : d.Belongs l c n) (hcap : d.grammar.capture? n = some cap) :
  l.Gathers c cap.prop cap.isArray
  := by
  cases hb with
  | ofClass hf hn =>
      rcases h.labelled.only n cap hcap with ⟨hroot, -⟩ | ⟨id, hid⟩
      · cases h.inner _ n hn hroot
      · cases (h.settled.instances id n hid).own.apart _ hn
  | ofInstance hf hin hn =>
      obtain ⟨name, m, target, hid, -, hm, -⟩ := h.exists_match hn hcap
      obtain ⟨prop, hprop, rfl⟩ := Option.map_eq_some_iff.mp hm
      exact ⟨_, m, hf, ⟨_, name, hin, hid⟩, hprop, rfl⟩
  | ofLoop hf hin hid hparts hn =>
      -- a loop has more than one expansion
      have hlength := h.length_expansionsOf hcap
      rw [hn, loopExpansions, List.length_append, List.length_cons, List.length_cons] at hlength
      omega

variable {e : List Symbol} {m : Nonterminal}
  (hvisible : ∀ cap id, d.grammar.capture? n = some cap → cap.kind ≠ .node id)
  (he : e ∈ d.grammar.expansionsOf n) (hm : .nonterminal m ∈ e)

include hvisible he hm

/-- The nonterminals in the expansions of an instance belong to the classes into which the captures
of the instance flow, unless what the instance captures goes into a node. -/
theorem belongs_of_mem_instance (hf : l.Flows c c') {id : CombinatorId}
    (hin : l.Inside c' (.combinator id)) (hn : d.instances.get? id = some n) :
  d.Belongs l c m
  := by
  obtain ⟨comb, hid, hdef⟩ := (h.settled.instances id n hn).defined
  obtain ⟨comb', hid', hlabel⟩ := h.labelled.label id n hn
  cases hid.symm.trans hid'
  obtain ⟨name, shape⟩ := comb
  have hpart : ∀ p ∈ Combinator.parts ⟨name, shape⟩, ∀ q ∈ [p], l.Inside c' q := by
    intro p hp
    rw [List.forall_mem_singleton]
    apply hin.part hid hp
  cases hdef with
  | choice hes hexp =>
      rw [hexp] at he
      obtain ⟨p, hp, hwrites⟩ := exists_of_forall₂ hes.flip he
      apply Belongs.of_inside hf (hwrites.exists_instance (hpart p hp) hm)
  | void _ hexp =>
      rw [hexp] at he
      cases he
  | bounded _ _ hparts hexp =>
      rw [hexp] at he
      apply Belongs.of_inside hf (hparts.exists_instance hin hid (ofParts_of_mem_bounded he hm))
  | unbounded _ hparts hexp _ hloop =>
      rw [hexp] at he
      rcases ofParts_of_mem_unbounded he hm with hm | hm
      · apply Belongs.of_inside hf (hparts.exists_instance hin hid hm)
      · cases hm
        exact .ofLoop hf hin hid hparts hloop
  | @toPattern match_ p _ htarget hwrites hexp =>
      rw [hexp] at he
      cases List.mem_singleton.mp he
      apply Belongs.of_inside hf (hwrites.exists_instance (hpart p _) hm)
      simp only [Combinator.parts, htarget, List.mem_singleton]
  | @toClass match_ target _ htarget hinner hexp =>
      rw [hexp] at he
      cases List.mem_singleton.mp he
      cases List.mem_singleton.mp hm
      cases hprop : match_.prop with
      | none =>
          -- the captures of the class flow on
          apply Belongs.ofClass (hf.tail _) hinner
          exact ⟨match_, ⟨id, name, hin, hid⟩, hprop, htarget⟩
      | some prop =>
          have hcap : d.grammar.capture? n = some ⟨match_.isArray, prop, .node target⟩ := by
            rw [hlabel]
            simp only [Combinator.capture?, htarget, Option.bind_some, Match.capture?, hprop,
              Option.map_some]
          cases hvisible _ target hcap rfl

/-- The nonterminals in the expansions of a nonterminal that belongs to a class belong to it, unless
what is captured there goes into a node. -/
theorem belongs_of_mem (hb : d.Belongs l c n) :
  d.Belongs l c m
  := by
  cases hb with
  | ofClass hf hn =>
      rcases h.settled.classes _ n hn with hmem | ⟨p, e', hp, he', hexp⟩
      · rw [h.pending] at hmem
        cases hmem
      · rw [hexp] at he
        cases List.mem_singleton.mp he
        apply Belongs.of_inside hf (he'.exists_instance _ hm)
        rw [List.forall_mem_singleton]
        exact .body hp
  | ofInstance hf hin hn => apply h.belongs_of_mem_instance hvisible he hm hf hin hn
  | ofLoop hf hin hid hparts hn =>
      rw [hn] at he
      rcases ofParts_of_mem_loop he hm with hm | hm
      · apply Belongs.of_inside hf (hparts.exists_instance hin hid hm)
      · cases hm
        exact .ofLoop hf hin hid hparts hn

end Draft.Lowered

end CaptureLR

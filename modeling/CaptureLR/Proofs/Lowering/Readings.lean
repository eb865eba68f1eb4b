import CaptureLR.Proofs.Language.Fields
import CaptureLR.Proofs.Lowering.Steps
import CaptureLR.Proofs.Parse.Soundness

/-!
# Lowering preserves meaning

The grammar of a language generates exactly what the root class reads. What a pattern reads is
generated by the symbols it is written as, by induction on the reading. The other way round, let a
nonterminal mean what all instances, classes and loops that it was made for read; then whatever its
expansions spell is something it means, so the grammar generates nothing else.
-/

namespace CaptureLR

open Grammar

/-! ### Readings -/

namespace Language

variable {l : Language} {r : Repetition} {p : Pattern} {w : List Terminal}

theorem reads_singleton_iff :
  l.Reads (.patterns [p]) w ↔ l.Reads (.pattern p) w
  := by
  constructor
  · intro h
    cases h with
    | cons hu hv =>
        cases hv
        rw [List.append_nil]
        apply hu
  · intro h
    rw [← List.append_nil w]
    apply Reads.cons h .nil

/-- Elements and more elements are elements. -/
theorem Reads.elements_append {m n : Nat} {u v : List Terminal} (hu : l.Reads (.elements r m) u)
    (hv : l.Reads (.elements r n) v) :
  l.Reads (.elements r (m + n)) (u ++ v)
  := by
  induction m generalizing u with
  | zero =>
      cases hu
      rw [Nat.zero_add]
      apply hv
  | succ m ih =>
      cases hu with
      | element hd hx hu =>
          rw [List.append_assoc, Nat.add_right_comm]
          apply Reads.element hd hx (ih hu)

/-- The first of several patterns and the others are written one after the other. -/
theorem Writes.exists_cons {instances : OrderedMap CombinatorId Nonterminal} {ps : List Pattern}
    {ss : List Symbol} (h : l.Writes instances (p :: ps) ss) :
  ∃ front back, ss = front ++ back ∧ l.Writes instances [p] front ∧ l.Writes instances ps back
  := by
  cases h with
  | literal h => exact ⟨[_], _, rfl, .literal .nil, h⟩
  | @sequence items _ ss ss' hi h =>
      refine ⟨ss, ss', rfl, ?_, h⟩
      rw [← List.append_nil ss]
      apply Writes.sequence hi .nil
  | dangling hid h => exact ⟨[], _, rfl, .dangling hid .nil, h⟩
  | combinator hn h => exact ⟨[_], _, rfl, .combinator hn .nil, h⟩

end Language

/-! ### Repetitions -/

/-- The numbers of elements that the rules of a bounded repetition are for. -/
theorem Repetition.allows_iff {r : Repetition} {upper n : Nat} (hu : r.upper = some upper) :
  r.Allows n ↔ n ∈ List.range' (max r.lower 1) (upper - max r.lower 1)
  := by
  rw [Allows, hu, List.mem_range'_1]
  constructor
  · rintro ⟨hone, hlower, hupper⟩
    have hlt := hupper upper rfl
    omega
  · rintro ⟨hle, hlt⟩
    refine ⟨by omega, by omega, ?_⟩
    intro upper' hupper'
    cases hupper'
    omega

/-- A repetition is void if it allows neither no element nor any number of them. -/
theorem Repetition.isVoid_iff {r : Repetition} :
  r.isVoid = true ↔ ¬ r.AllowsNone ∧ ∀ n, ¬ r.Allows n
  := by
  unfold isVoid AllowsNone Allows
  cases hu : r.upper with
  | none =>
      simp only [Bool.false_eq_true, false_iff, not_and, not_forall, not_not]
      intro _
      use r.lower + 1
      exact ⟨Nat.le_add_left 1 _, Nat.le_succ _, nofun⟩
  | some upper =>
      simp only [Bool.or_eq_true, decide_eq_true_eq, Option.some.injEq, ne_eq]
      constructor
      · intro h
        refine ⟨by omega, ?_⟩
        rintro n ⟨hone, hlower, hupper⟩
        have hlt := hupper upper rfl
        omega
      · rintro ⟨hnone, hall⟩
        have hmax := hall (max r.lower 1)
        by_contra hlt
        apply hmax
        refine ⟨by omega, by omega, ?_⟩
        rintro _ rfl
        omega

section Sequences

variable {g : Grammar} {es ds ss : List Symbol} {ts : Option (List Symbol)} {n : Nat}

/-- The element and the delimited elements of the expansions of a repetition. -/
theorem repeated_succ (es ds : List Symbol) (n : Nat) :
  repeated es ds (n + 1) = es ++ (List.replicate n (ds ++ es)).flatten
  := rfl

theorem mem_boundedExpansions {lower upper : Nat} :
  ss ∈ boundedExpansions es ds ts lower upper
    ↔ ∃ n ∈ List.range' (max lower 1) (upper - max lower 1),
      ss = repeated es ds n ∨ ∃ t, ts = some t ∧ ss = repeated es ds n ++ t
  := by
  rw [boundedExpansions, List.mem_flatMap]
  apply exists_congr
  intro n
  apply and_congr_right
  intro _
  cases ts <;> simp

theorem mem_loopExpansions {loop : Nonterminal} :
  ss ∈ loopExpansions es ds ts loop
    ↔ ss = [] ∨ ss = ds ++ es ++ [.nonterminal loop] ∨ ts = some ss
  := by
  rw [loopExpansions, List.mem_append, Option.mem_toList, List.mem_cons, List.mem_singleton,
    or_assoc]

end Sequences

/-! ### What is read is generated -/

/-- The symbols that something readable is written as generate a sequence of terminals. What may
follow the last element of a repetition need not be written at all. -/
def Draft.Yields (l : Language) (d : Draft) (g : Grammar) : Readable → List Terminal → Prop
  | .pattern p, w => ∀ ss, l.Writes d.instances [p] ss → g.Generates ss w
  | .patterns ps, w => ∀ ss, l.Writes d.instances ps ss → g.Generates ss w
  | .elements r n, w => ∀ es ds ts, l.WritesParts d.instances r es ds ts →
      g.Generates (List.replicate n (ds ++ es)).flatten w
  | .trailing r, w => ∀ es ds ts, l.WritesParts d.instances r es ds ts →
      w = [] ∨ ∃ ss, ts = some ss ∧ g.Generates ss w

section Yields

variable {l : Language} {d : Draft} {g : Grammar} {x : Readable} {w : List Terminal}

/-- The symbols of an instance are its nonterminal, which says what the instance is. -/
theorem Draft.Settled.exists_defines (hd : d.Settled l) {id : CombinatorId} {c : Combinator}
    (hc : l.combinator? id = some c) {ss : List Symbol}
    (h : l.Writes d.instances [.combinator id] ss) :
  ∃ n, ss = [.nonterminal n] ∧ d.Defines l 0 n c.shape
  := by
  cases h with
  | dangling hid h => cases hid.symm.trans hc
  | @combinator _ n _ _ hn h =>
      cases h
      obtain ⟨c', hc', hdef⟩ := (hd.instances id n hn).defined
      cases hc.symm.trans hc'
      exact ⟨n, rfl, hdef⟩

theorem exists_of_forall₂ {α β : Type} {R : α → β → Prop} {as : List α} {bs : List β}
    (h : List.Forall₂ R as bs) {a : α} (ha : a ∈ as) :
  ∃ b ∈ bs, R a b
  := by
  induction h with
  | nil => cases ha
  | cons hr _ ih =>
      rcases List.mem_cons.mp ha with rfl | ha
      · exact ⟨_, List.mem_cons_self, hr⟩
      · obtain ⟨b, hb, hr⟩ := ih ha
        exact ⟨b, List.mem_cons_of_mem _ hb, hr⟩

variable (hd : d.Settled l) (hp : d.pending = [])
  (hg : ∀ n, g.expansionsOf n = d.grammar.expansionsOf n)

include hg

/-- The loop of a repetition generates more elements and what may follow the last. -/
theorem generates_loop {es ds : List Symbol} {ts : Option (List Symbol)} {loop : Nonterminal}
    (hloop : d.grammar.expansionsOf loop = loopExpansions es ds ts loop) {n : Nat}
    {v : List Terminal} (hv : g.Generates (List.replicate n (ds ++ es)).flatten v)
    (hw : w = [] ∨ ∃ ss, ts = some ss ∧ g.Generates ss w) :
  g.Generates [.nonterminal loop] (v ++ w)
  := by
  induction n generalizing v with
  | zero =>
      cases hv
      apply generates_nonterminal_iff.mpr
      rw [hg, hloop]
      rcases hw with rfl | ⟨ss, hss, hw⟩
      · exact ⟨[], mem_loopExpansions.mpr (Or.inl rfl), .nil⟩
      · exact ⟨ss, mem_loopExpansions.mpr (Or.inr (Or.inr hss)), hw⟩
  | succ n ih =>
      rw [List.replicate_succ, List.flatten_cons] at hv
      obtain ⟨u, v, rfl, hu, hv⟩ := generates_append_iff.mp hv
      rw [List.append_assoc]
      apply generates_nonterminal_iff.mpr
      rw [hg, hloop]
      exact ⟨_, mem_loopExpansions.mpr (Or.inr (Or.inl rfl)), hu.append (ih hv)⟩

include hd hp

/-- What is read is generated by what it is written as. -/
theorem Language.Reads.yields (h : l.Reads x w) :
  d.Yields l g x w
  := by
  induction h with
  | literal t =>
      intro ss hss
      cases hss with
      | literal h =>
          cases h
          exact .terminal .nil
  | sequence _ ih =>
      intro ss hss
      cases hss with
      | sequence hi h =>
          cases h
          rw [List.append_nil]
          apply ih _ hi
  | nil =>
      intro ss hss
      cases hss
      exact .nil
  | cons _ _ ihu ihv =>
      intro ss hss
      obtain ⟨front, back, rfl, hfront, hback⟩ := hss.exists_cons
      apply (ihu _ hfront).append (ihv _ hback)
  | dangling hid =>
      intro ss hss
      cases hss with
      | dangling _ h =>
          cases h
          exact .nil
      | combinator hn h =>
          obtain ⟨c, hc, -⟩ := (hd.instances _ _ hn).defined
          cases hid.symm.trans hc
  | choice hid hmem _ ih =>
      intro ss hss
      obtain ⟨n, rfl, hdef⟩ := hd.exists_defines hid hss
      cases hdef with
      | choice hes he =>
          obtain ⟨e, hmem', he'⟩ := exists_of_forall₂ hes hmem
          apply generates_nonterminal_iff.mpr
          rw [hg, he]
          exact ⟨e, hmem', ih e he'⟩
  | toPattern hid hm _ ih =>
      intro ss hss
      obtain ⟨n, rfl, hdef⟩ := hd.exists_defines hid hss
      cases hdef with
      | toPattern hm' he hexp =>
          cases hm.symm.trans hm'
          apply generates_nonterminal_iff.mpr
          rw [hg, hexp]
          exact ⟨_, List.mem_singleton_self _, ih _ he⟩
      | toClass hm' => cases hm.symm.trans hm'
  | toClass hid hm hc _ ih =>
      intro ss hss
      obtain ⟨n, rfl, hdef⟩ := hd.exists_defines hid hss
      cases hdef with
      | toPattern hm' => cases hm.symm.trans hm'
      | @toClass _ _ inner hm' hinner hexp =>
          cases hm.symm.trans hm'
          apply generates_nonterminal_iff.mpr
          rw [hg, hexp]
          refine ⟨_, List.mem_singleton_self _, ?_⟩
          rcases hd.classes _ _ hinner with hmem | ⟨p, e, hp', he, hexp'⟩
          · rw [hp] at hmem
            cases hmem
          · cases hc.symm.trans hp'
            apply generates_nonterminal_iff.mpr
            rw [hg, hexp']
            exact ⟨e, List.mem_singleton_self _, ih e he⟩
  | @none id name r hid hr =>
      intro ss hss
      obtain ⟨n, rfl, hdef⟩ := hd.exists_defines hid hss
      apply generates_nonterminal_iff.mpr
      rw [hg]
      have hmem : [] ∈ r.noElements := by
        rw [Repetition.noElements, if_pos hr.1]
        apply List.mem_singleton_self
      cases hdef with
      | void hvoid => cases (Repetition.isVoid_iff.mp hvoid).1 hr
      | bounded _ _ _ hexp =>
          rw [hexp]
          exact ⟨[], List.mem_append_left _ hmem, .nil⟩
      | unbounded _ _ hexp =>
          rw [hexp]
          exact ⟨[], List.mem_append_left _ hmem, .nil⟩
  | @some id name r n u v w hid hr _ _ _ ihu ihv ihw =>
      intro ss hss
      obtain ⟨m, rfl, hdef⟩ := hd.exists_defines hid hss
      apply generates_nonterminal_iff.mpr
      rw [hg]
      cases hdef with
      | void hvoid => cases (Repetition.isVoid_iff.mp hvoid).2 _ hr
      | @bounded _ upper es ds ts _ hu hparts hexp =>
          have hrange := (Repetition.allows_iff hu).mp hr
          have helements := (ihu es hparts.element).append (ihv es ds ts hparts)
          rw [← repeated_succ] at helements
          rw [hexp]
          rcases ihw es ds ts hparts with rfl | ⟨t, ht, hw⟩
          · rw [List.append_nil]
            refine ⟨_, List.mem_append_right _ ?_, helements⟩
            exact mem_boundedExpansions.mpr ⟨n + 1, hrange, Or.inl rfl⟩
          · refine ⟨_, List.mem_append_right _ ?_, helements.append hw⟩
            exact mem_boundedExpansions.mpr ⟨n + 1, hrange, Or.inr ⟨t, ht, rfl⟩⟩
      | @unbounded _ loop es ds ts hu hparts hexp _ hloop =>
          -- the elements that are not written out are those of the loop
          obtain ⟨k, hk⟩ : ∃ k, n = max r.lower 1 - 1 + k := by
            have hlower := hr.2.1
            exact ⟨n - (max r.lower 1 - 1), by omega⟩
          have hv := ihv es ds ts hparts
          rw [hk, List.replicate_add, List.flatten_append] at hv
          obtain ⟨v₁, v₂, rfl, hv₁, hv₂⟩ := generates_append_iff.mp hv
          rw [hexp]
          refine ⟨_, List.mem_append_right _ (List.mem_singleton_self _), ?_⟩
          rw [← List.append_assoc, List.append_assoc (u ++ v₁)]
          apply ((ihu es hparts.element).append hv₁).append
          apply generates_loop hg hloop hv₂ (ihw es ds ts hparts)
  | noElement r =>
      intro es ds ts _
      exact .nil
  | element _ _ _ ihd ihu ihv =>
      intro es ds ts hparts
      rw [List.replicate_succ, List.flatten_cons]
      apply ((ihd ds hparts.delimiter).append (ihu es hparts.element)).append
      apply ihv es ds ts hparts
  | noTrailing r =>
      intro es ds ts _
      exact Or.inl rfl
  | trailingDelimiter hr _ ih =>
      intro es ds ts hparts
      have ht := hparts.trailing
      rw [hr] at ht
      cases ht
      exact Or.inr ⟨ds, rfl, ih ds hparts.delimiter⟩
  | trailingPattern hr _ ih =>
      intro es ds ts hparts
      have ht := hparts.trailing
      rw [hr] at ht
      cases ht with
      | pattern h => exact Or.inr ⟨_, rfl, ih _ h⟩

end Yields

/-! ### What is generated is read -/

/-- What a nonterminal means: all instances, classes and loops of repetitions that it stands for
read it. -/
structure Draft.Means (l : Language) (d : Draft) (n : Nonterminal) (w : List Terminal) : Prop where
  ofInstance : ∀ id, d.instances.get? id = some n → l.Reads (.pattern (.combinator id)) w
  ofClass : ∀ c, d.classes.get? c = some n → l.ReadsClass c w
  ofLoop : ∀ r es ds ts, l.WritesParts d.instances r es ds ts →
    d.grammar.expansionsOf n = loopExpansions es ds ts n →
    ∃ k u v, w = u ++ v ∧ l.Reads (.elements r k) u ∧ l.Reads (.trailing r) v

section Means

variable {l : Language} {d : Draft} {r : Repetition} {w : List Terminal} {ss es ds : List Symbol}
  {ts : Option (List Symbol)}

/-- What written patterns spell is read. -/
theorem reads_of_spells {ps : List Pattern} (h : l.Writes d.instances ps ss)
    (hw : Spells (d.Means l) ss w) :
  l.Reads (.patterns ps) w
  := by
  induction h generalizing w with
  | nil =>
      cases hw
      exact .nil
  | literal _ ih =>
      cases hw with
      | terminal hw =>
          rw [← List.singleton_append]
          exact .cons (.literal _) (ih hw)
  | sequence _ _ ihi ih =>
      obtain ⟨u, v, rfl, hu, hv⟩ := hw.exists_append
      exact .cons (.sequence (ihi hu)) (ih hv)
  | dangling hid _ ih =>
      rw [← List.nil_append w]
      exact .cons (.dangling hid) (ih hw)
  | combinator hn _ ih =>
      cases hw with
      | nonterminal hu hv => exact .cons (hu.ofInstance _ hn) (ih hv)

theorem reads_pattern_of_spells {p : Pattern} (h : l.Writes d.instances [p] ss)
    (hw : Spells (d.Means l) ss w) :
  l.Reads (.pattern p) w
  := Language.reads_singleton_iff.mp (reads_of_spells h hw)

theorem reads_elements_of_spells (h : l.WritesParts d.instances r es ds ts) {n : Nat}
    (hw : Spells (d.Means l) (List.replicate n (ds ++ es)).flatten w) :
  l.Reads (.elements r n) w
  := by
  induction n generalizing w with
  | zero =>
      cases hw
      exact .noElement r
  | succ n ih =>
      rw [List.replicate_succ, List.flatten_cons] at hw
      obtain ⟨u, v, rfl, hu, hv⟩ := hw.exists_append
      obtain ⟨x, y, rfl, hx, hy⟩ := hu.exists_append
      exact .element (reads_pattern_of_spells h.delimiter hx) (reads_pattern_of_spells h.element hy)
        (ih hv)

/-- The elements that the expansions of a repetition spell are read. -/
theorem exists_reads_of_repeated (h : l.WritesParts d.instances r es ds ts) {n : Nat}
    (hn : 1 ≤ n) (hw : Spells (d.Means l) (repeated es ds n) w) :
  ∃ u v, w = u ++ v ∧ l.Reads (.pattern r.element) u ∧ l.Reads (.elements r (n - 1)) v
  := by
  obtain ⟨n, rfl⟩ := Nat.exists_eq_add_of_le' hn
  rw [repeated_succ] at hw
  obtain ⟨u, v, rfl, hu, hv⟩ := hw.exists_append
  exact ⟨u, v, rfl, reads_pattern_of_spells h.element hu, reads_elements_of_spells h hv⟩

theorem reads_trailing_of_spells (h : l.WritesParts d.instances r es ds (some ss))
    (hw : Spells (d.Means l) ss w) :
  l.Reads (.trailing r) w
  := by
  have ht := h.trailing
  generalize htrailing : r.trailing = trailing at ht
  cases ht with
  | delimiter => exact .trailingDelimiter htrailing (reads_pattern_of_spells h.delimiter hw)
  | pattern hp => exact .trailingPattern htrailing (reads_pattern_of_spells hp hw)

/-- What the expansion of a repetition that may have no elements spells is read. -/
theorem reads_of_noElements {id : CombinatorId} {name : Option String}
    (hid : l.combinator? id = some ⟨name, .repetition r⟩) (hr : r.isVoid = false)
    (hss : ss ∈ r.noElements) (hw : Spells (d.Means l) ss w) :
  l.Reads (.pattern (.combinator id)) w
  := by
  unfold Repetition.noElements at hss
  split at hss
  · next hlower =>
      cases List.mem_singleton.mp hss
      cases hw
      apply Language.Reads.none hid
      refine ⟨hlower, ?_⟩
      intro hu
      have hvoid : r.isVoid = true := by
        rw [Repetition.isVoid, hu]
        rfl
      cases hr.symm.trans hvoid
  · cases hss

/-- What the expansions of the nonterminal of an instance spell is read as the instance. -/
theorem reads_instance_of_spells {n : Nonterminal} {id : CombinatorId} {c : Combinator}
    (hid : l.combinator? id = some c) (hdef : d.Defines l 0 n c.shape)
    (hss : ss ∈ d.grammar.expansionsOf n) (hw : Spells (d.Means l) ss w) :
  l.Reads (.pattern (.combinator id)) w
  := by
  obtain ⟨name, shape⟩ := c
  cases hdef with
  | choice hes he =>
      rw [he] at hss
      obtain ⟨p, hp, hwrites⟩ := exists_of_forall₂ hes.flip hss
      exact .choice hid hp (reads_pattern_of_spells hwrites hw)
  | void _ he =>
      rw [he] at hss
      cases hss
  | bounded hr hu hparts he =>
      rw [he] at hss
      rcases List.mem_append.mp hss with hss | hss
      · apply reads_of_noElements hid hr hss hw
      · obtain ⟨k, hk, hss⟩ := mem_boundedExpansions.mp hss
        have hallows := (Repetition.allows_iff hu).mpr hk
        have hsucc : k - 1 + 1 = k := Nat.sub_add_cancel hallows.1
        rcases hss with rfl | ⟨t, rfl, rfl⟩
        · obtain ⟨u, v, rfl, hu', hv⟩ := exists_reads_of_repeated hparts hallows.1 hw
          rw [← List.append_nil (u ++ v)]
          apply Language.Reads.some hid _ hu' hv (.noTrailing _)
          rw [hsucc]
          apply hallows
        · obtain ⟨x, y, rfl, hx, hy⟩ := hw.exists_append
          obtain ⟨u, v, rfl, hu', hv⟩ := exists_reads_of_repeated hparts hallows.1 hx
          apply Language.Reads.some hid _ hu' hv (reads_trailing_of_spells hparts hy)
          rw [hsucc]
          apply hallows
  | @unbounded r loop es ds ts hu hparts he _ hloop =>
      rw [he] at hss
      rcases List.mem_append.mp hss with hss | hss
      · have hr : r.isVoid = false := by rw [Repetition.isVoid, hu]
        apply reads_of_noElements hid hr hss hw
      · cases List.mem_singleton.mp hss
        obtain ⟨x, y, rfl, hx, hy⟩ := hw.exists_append
        obtain ⟨u, v, rfl, hu', hv⟩ :=
          exists_reads_of_repeated hparts (Nat.le_max_right r.lower 1) hx
        obtain ⟨k, v', z, rfl, hv', hz⟩ :=
          (spells_singleton_iff.mp hy).ofLoop r es ds ts hparts hloop
        rw [← List.append_assoc, List.append_assoc u]
        apply Language.Reads.some hid _ hu' (hv.elements_append hv') hz
        refine ⟨Nat.le_add_left 1 _, by omega, ?_⟩
        intro upper hupper
        cases hu.symm.trans hupper
  | toPattern hm he hexp =>
      rw [hexp] at hss
      cases List.mem_singleton.mp hss
      exact .toPattern hid hm (reads_pattern_of_spells he hw)
  | toClass hm hc hexp =>
      rw [hexp] at hss
      cases List.mem_singleton.mp hss
      obtain ⟨p, hp, hreads⟩ := (spells_singleton_iff.mp hw).ofClass _ hc
      exact .toClass hid hm hp hreads

/-- What the expansions of a loop spell is elements and what may follow the last. -/
theorem exists_reads_of_loop {n : Nonterminal} (hparts : l.WritesParts d.instances r es ds ts)
    (hloop : d.grammar.expansionsOf n = loopExpansions es ds ts n)
    (hss : ss ∈ d.grammar.expansionsOf n) (hw : Spells (d.Means l) ss w) :
  ∃ k u v, w = u ++ v ∧ l.Reads (.elements r k) u ∧ l.Reads (.trailing r) v
  := by
  rw [hloop] at hss
  rcases mem_loopExpansions.mp hss with rfl | rfl | rfl
  · cases hw
    exact ⟨0, [], [], rfl, .noElement r, .noTrailing r⟩
  · obtain ⟨x, y, rfl, hx, hy⟩ := hw.exists_append
    obtain ⟨x₁, x₂, rfl, hx₁, hx₂⟩ := hx.exists_append
    obtain ⟨k, u, v, rfl, hu, hv⟩ := (spells_singleton_iff.mp hy).ofLoop r es ds ts hparts hloop
    refine ⟨k + 1, x₁ ++ x₂ ++ u, v, (List.append_assoc ..).symm, ?_, hv⟩
    exact .element (reads_pattern_of_spells hparts.delimiter hx₁)
      (reads_pattern_of_spells hparts.element hx₂) hu
  · exact ⟨0, [], w, rfl, .noElement r, reads_trailing_of_spells hparts hw⟩

/-- What the expansions of a nonterminal spell is something it means. -/
theorem Draft.Settled.means (hd : d.Settled l) (hp : d.pending = []) {n : Nonterminal}
    (hss : ss ∈ d.grammar.expansionsOf n) (hw : Spells (d.Means l) ss w) :
  d.Means l n w
  where
  ofInstance id hn := by
    obtain ⟨c, hid, hdef⟩ := (hd.instances id n hn).defined
    apply reads_instance_of_spells hid hdef hss hw
  ofClass c hc := by
    rcases hd.classes c n hc with hmem | ⟨p, e, hpat, he, hexp⟩
    · rw [hp] at hmem
      cases hmem
    · rw [hexp] at hss
      cases List.mem_singleton.mp hss
      exact ⟨p, hpat, reads_pattern_of_spells he hw⟩
  ofLoop r es ds ts hparts hloop := exists_reads_of_loop hparts hloop hss hw

end Means

/-! ### Grammars of languages -/

/-- The classes that are collected are listed under themselves. -/
theorem ClassTable.id_eq_of_collectQueue {l : Language} {t t' : ClassTable} {queue : List ClassId}
    (ht : ∀ c n, t.get? c = some n → n.id = c) (h : t.collectQueue l queue = .ok t') :
  ∀ c n, t'.get? c = some n → n.id = c
  := by
  fun_induction ClassTable.collectQueue l t queue with
  | case1 t =>
      cases h
      apply ht
  | case2 t c queue hc ih => apply ih ht h
  | case3 t c queue hc hlt d e he => cases h
  | case4 t c queue hc hlt d found he ih =>
      apply ih _ h
      intro c' n hn
      rw [ClassTable.get?, OrderedMap.get?_insert] at hn
      split at hn
      · next heq =>
          cases hn
          exact heq.symm
      · apply ht c' n hn
  | case5 t c queue hc hlt => cases h

theorem Source.identifies_of_collect {l : Language} {root : ClassId} {classes : ClassTable}
    (h : ClassTable.collect l root = .ok classes) :
  Source.Identifies ⟨l, classes⟩
  := by
  apply ClassTable.id_eq_of_collectQueue _ h
  intro c n hn
  cases hn

/-- The start symbol has the start rule only. -/
theorem Source.expansionsOf_start {s : Source} (hs : s.Identifies) {root : ClassId}
    {lg : LanguageGrammar} (h : s.grammar root = .ok lg) :
  lg.grammar.expansionsOf .start = [lg.grammar.expansion lg.startRule]
  := by
  have hg := compiled_of_grammar h
  unfold grammar at h
  split at h
  · cases h
  · next startRule d hrun =>
      cases h
      obtain ⟨-, -, -, hstart, -⟩ := settled_of_lowerAll hs hrun
      rw [hg.rooted.expansion_eq, expansionsOf_computeFirst, hstart]

/-- The grammar of a language lists all its rules. -/
theorem Source.listsAll_of_grammar {s : Source} (hs : s.Identifies) {root : ClassId}
    {lg : LanguageGrammar} (h : s.grammar root = .ok lg) :
  lg.grammar.ListsAll
  := by
  unfold grammar at h
  split at h
  · cases h
  · next startRule d hrun =>
      cases h
      apply (settled_of_lowerAll hs hrun).1.tidy.listsAll.computeFirst

/-- The grammar of a language generates exactly what the root class of the language reads. -/
theorem Source.generates_iff_readsClass {l : Language} {root : ClassId} {classes : ClassTable}
    {lg : LanguageGrammar} (hc : ClassTable.collect l root = .ok classes)
    (hg : Source.grammar ⟨l, classes⟩ root = .ok lg) (w : List Terminal) :
  lg.grammar.Generates [.nonterminal .start] w ↔ l.ReadsClass root w
  := by
  have hs := Source.identifies_of_collect hc
  unfold grammar at hg
  split at hg
  · cases hg
  · next startRule d hrun =>
      cases hg
      obtain ⟨hd, hp, hclass, hstart, hroot⟩ := settled_of_lowerAll hs hrun
      have hsame := expansionsOf_computeFirst d.grammar
      have hinner : d.grammar.computeFirst.Generates [.nonterminal .start] w
          ↔ d.grammar.computeFirst.Generates [.nonterminal ⟨2⟩] w := by
        rw [generates_nonterminal_iff, hsame, hstart]
        simp only [List.mem_singleton, exists_eq_left]
        rw [generates_nonterminal_iff, hsame, hroot]
        simp only [List.mem_singleton, exists_eq_left]
      rw [hinner]
      constructor
      · intro h
        have hspells : Grammar.Spells (d.Means l) _ _ := h.spells (by
          intro n e he w hw
          rw [hsame] at he
          apply hd.means hp he hw)
        apply (spells_singleton_iff.mp hspells).ofClass root hclass
      · rintro ⟨p, hpat, hreads⟩
        rcases hd.classes root _ hclass with hmem | ⟨p', e, hpat', he, hexp⟩
        · rw [hp] at hmem
          cases hmem
        · cases hpat.symm.trans hpat'
          rw [generates_nonterminal_iff, hsame, hexp]
          exact ⟨e, List.mem_singleton_self _, hreads.yields hd hp hsame e he⟩

/-! ### Nested lists -/

/-- Items with commas between them and perhaps behind the last. -/
def Repetition.items : Repetition := ⟨.combinator ⟨1⟩, .literal ",", .delimiter, 0, none⟩

/-- A language whose only class is a list of items in parentheses. An item is a letter or a list. -/
def Language.nested : Language where
  classes := #[⟨"List", false, some (.sequence [.literal "(", .combinator ⟨0⟩, .literal ")"])⟩]
  combinators := #[⟨none, .repetition .items⟩,
    ⟨some "Item", .choice [.combinator ⟨2⟩, .combinator ⟨3⟩]⟩,
    ⟨none, .capture ⟨some "items", true, some (.pattern (.literal "x"))⟩⟩,
    ⟨none, .capture ⟨some "items", true, some (.nodeClass ⟨0⟩)⟩⟩]

/-- The class of lists. -/
def ClassTable.nested : ClassTable :=
  ⟨.ofList [(⟨0⟩, ⟨⟨0⟩, "List", false, .ofList [("items", true)]⟩)]⟩

/-- The grammar of the language. -/
def LanguageGrammar.nested : LanguageGrammar where
  grammar := {
    rules := #[⟨⟨1⟩, [.nonterminal ⟨2⟩]⟩, ⟨.start, [.nonterminal ⟨1⟩]⟩,
      ⟨⟨5⟩, [.terminal "x"]⟩, ⟨⟨4⟩, [.nonterminal ⟨5⟩]⟩,
      ⟨⟨6⟩, [.nonterminal ⟨2⟩]⟩, ⟨⟨4⟩, [.nonterminal ⟨6⟩]⟩,
      ⟨⟨3⟩, []⟩, ⟨⟨3⟩, [.nonterminal ⟨4⟩, .nonterminal ⟨7⟩]⟩,
      ⟨⟨7⟩, []⟩, ⟨⟨7⟩, [.terminal ",", .nonterminal ⟨4⟩, .nonterminal ⟨7⟩]⟩,
      ⟨⟨7⟩, [.terminal ","]⟩, ⟨⟨2⟩, [.terminal "(", .nonterminal ⟨3⟩, .terminal ")"]⟩]
    nonterminals := #[
      ⟨"(starting symbol)", none, [1], .ofList [.terminal "("]⟩,
      ⟨"root.Match", some ⟨false, "root", .node ⟨0⟩⟩, [0], .ofList [.terminal "("]⟩,
      ⟨"List", none, [11], .ofList [.terminal "("]⟩,
      ⟨"List.Caten[1].Repeat", none, [6, 7],
        .ofList [.endOfInput, .terminal "x", .terminal "("]⟩,
      ⟨"Item", none, [3, 5], .ofList [.terminal "x", .terminal "("]⟩,
      ⟨"Item[0].MatchArr", some ⟨true, "items", .token⟩, [2], .ofList [.terminal "x"]⟩,
      ⟨"Item[1].MatchArr", some ⟨true, "items", .node ⟨0⟩⟩, [4], .ofList [.terminal "("]⟩,
      ⟨"List.Caten[1].Repeat['innerLoop']", none, [8, 9, 10],
        .ofList [.endOfInput, .terminal ","]⟩] }
  startRule := 1

theorem Language.walk_nested :
  Language.nested.walk "List" ∅ ⟨∅, []⟩ [.sequence [.literal "(", .combinator ⟨0⟩, .literal ")"]]
    = .ok ⟨.ofList [("items", true)], [⟨0⟩]⟩
  := by
  have hin : ∀ i < 4, i < Language.nested.combinators.size := fun _ => id
  rw [walk, List.append_nil, walk, walk, dif_neg (by decide), dif_pos (hin 0 (by decide))]
  change Language.nested.walk _ _ _ [.combinator ⟨1⟩, .literal ",", .literal ")"] = _
  rw [walk, dif_neg (by decide), dif_pos (hin 1 (by decide))]
  change Language.nested.walk _ _ _
    [.combinator ⟨2⟩, .combinator ⟨3⟩, .literal ",", .literal ")"] = _
  rw [walk, dif_neg (by decide), dif_pos (hin 2 (by decide))]
  change Language.nested.walk _ _ _
    [.literal "x", .combinator ⟨3⟩, .literal ",", .literal ")"] = _
  rw [walk, walk, dif_neg (by decide), dif_pos (hin 3 (by decide))]
  change Language.nested.walk _ _ _ [.literal ",", .literal ")"] = _
  rw [walk, walk, walk]
  rfl

theorem ClassTable.collect_nested :
  ClassTable.collect .nested ⟨0⟩ = .ok .nested
  := by
  have hlist : ClassTable.empty.examine .nested
      ⟨"List", false, some (.sequence [.literal "(", .combinator ⟨0⟩, .literal ")"])⟩
      = .ok ⟨.ofList [("items", true)], [⟨0⟩]⟩ := Language.walk_nested
  have hthere : ClassTable.nested.classes.contains ⟨0⟩ = true := by decide
  rw [collect, collectQueue_cons (by decide) rfl hlist]
  -- the lists in a list lead to the class that is there already
  change collectQueue .nested .nested [⟨0⟩] = _
  rw [collectQueue, dif_pos hthere, collectQueue]

theorem Source.grammar_nested :
  Source.grammar ⟨.nested, .nested⟩ ⟨0⟩ = .ok .nested
  := by
  decide +kernel

/-- Parentheses around what the repetition reads are a list. -/
theorem Language.readsClass_list {w : List Terminal}
    (h : Language.nested.Reads (.pattern (.combinator ⟨0⟩)) w) :
  Language.nested.ReadsClass ⟨0⟩ ("(" :: (w ++ [")"]))
  := by
  use .sequence [.literal "(", .combinator ⟨0⟩, .literal ")"], rfl
  exact .sequence (.cons (.literal "(") (.cons h (.cons (.literal ")") .nil)))

/-- A list may hold a letter and a list without items. -/
theorem Language.readsClass_nested :
  Language.nested.ReadsClass ⟨0⟩ ["(", "x", ",", "(", ")", ",", ")"]
  := by
  have hitems : Language.nested.combinator? ⟨0⟩ = some ⟨none, .repetition .items⟩ := rfl
  have hallows : Repetition.items.Allows 2 := ⟨by decide, by decide, nofun⟩
  have hletter : Language.nested.Reads (.pattern (.combinator ⟨1⟩)) ["x"] :=
    .choice rfl List.mem_cons_self (.toPattern rfl rfl (.literal "x"))
  have hlist : Language.nested.Reads (.pattern (.combinator ⟨1⟩)) ["(", ")"] := by
    obtain ⟨p, hp, h⟩ := readsClass_list (.none hitems ⟨rfl, nofun⟩)
    exact .choice rfl (List.mem_cons_of_mem _ List.mem_cons_self) (.toClass rfl rfl hp h)
  apply readsClass_list (w := ["x", ",", "(", ")", ","])
  exact .some hitems hallows hletter (.element (.literal ",") hlist (.noElement _))
    (.trailingDelimiter rfl (.literal ","))

/-- The theorem for nested lists. -/
theorem Source.generates_iff_readsClass_nested :
  ClassTable.collect .nested ⟨0⟩ = .ok .nested
    ∧ Source.grammar ⟨.nested, .nested⟩ ⟨0⟩ = .ok .nested
    ∧ (∀ w, LanguageGrammar.nested.grammar.Generates [.nonterminal .start] w
      ↔ Language.nested.ReadsClass ⟨0⟩ w)
    ∧ LanguageGrammar.nested.grammar.Generates [.nonterminal .start]
      ["(", "x", ",", "(", ")", ",", ")"]
  := by
  have hiff := Source.generates_iff_readsClass ClassTable.collect_nested Source.grammar_nested
  exact ⟨ClassTable.collect_nested, Source.grammar_nested, hiff,
    (hiff _).mpr Language.readsClass_nested⟩

end CaptureLR

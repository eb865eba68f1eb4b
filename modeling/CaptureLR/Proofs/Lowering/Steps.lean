import CaptureLR.Proofs.Lowering.Patterns
import CaptureLR.Proofs.Lowering.Writing

/-!
# Steps of lowering

Lowering a pattern extends the draft and leaves the pattern written in it. An instance that is
reached for the first time is given its nonterminal before its parts are lowered; meanwhile the
nonterminal may get rules, and in the end it says what the instance is. Once no class is pending,
all nonterminals of instances and classes say what these are.
-/

namespace CaptureLR

variable {s : Source} {l : Language} {d d' : Draft}

/-- Every class of the table is listed under itself. -/
def Source.Identifies (s : Source) : Prop := ∀ c n, s.classes.get? c = some n → n.id = c

/-! ### Parts that are written -/

/-- Patterns that are written one by one are written one after the other. -/
theorem Language.Writes.flatten {instances : OrderedMap CombinatorId Nonterminal}
    {ps : List Pattern} {es : List (List Symbol)}
    (h : List.Forall₂ (fun p e => l.Writes instances [p] e) ps es) :
  l.Writes instances ps es.flatten
  := by
  induction h with
  | nil => exact .nil
  | cons he _ ih => exact he.append ih

/-- The parts of a repetition that has elements are the element, the delimiter and perhaps what
follows the last element. -/
theorem Language.WritesParts.of_entries {instances : OrderedMap CombinatorId Nonterminal}
    {r : Repetition} (hr : r.isVoid = false) {name : String} {es : List (List Symbol)}
    (h : List.Forall₂ (fun p e => l.Writes instances [p] e)
      (((Shape.repetition r).entries name).map Prod.snd) es) :
  ∃ element delimiter rest, es = element :: delimiter :: rest
    ∧ l.WritesParts instances r element delimiter (r.trailing.lowered delimiter rest)
  := by
  simp only [Shape.entries, hr, Bool.false_eq_true, if_false, List.map_cons] at h
  cases h with
  | cons hes h =>
  cases h with
  | cons hds h =>
  refine ⟨_, _, _, rfl, hes, hds, ?_⟩
  cases ht : r.trailing with
  | forbidden => exact .forbidden
  | delimiter => exact .delimiter
  | pattern p =>
      rw [ht] at h
      cases h with
      | cons hts _ => exact .pattern hts

theorem Shape.eq_of_head? {shape : Shape} {n m : Nonterminal} (h : shape.head? n = some m) :
  m = n
  := by
  cases shape with
  | repetition r => cases h
  | _ => exact (Option.some.inj h).symm

/-! ### Steps that extend drafts -/

namespace Draft

/-- The draft stays tidy when an instance is given a nonterminal, which has no rules yet. -/
theorem Tidy.addInstance (h : d.Tidy) (id : CombinatorId) (name : String)
    (capture : Option Capture) :
  (d.addInstance id name capture).2.Tidy
    ∧ d.grammar.nextNonterminal.index < (d.addInstance id name capture).2.size
    ∧ (d.addInstance id name capture).2.grammar.expansionsOf d.grammar.nextNonterminal = []
  := by
  have hreg := registers_addNonterminal h.assembled h.listsAll name capture
  refine ⟨⟨hreg.assembled, hreg.listsAll, ?_, h.apart⟩, ?_, hreg.self⟩
  · intro c n hn
    change n.index < (d.addNonterminal name capture).2.size
    rw [hreg.size]
    apply Nat.lt_succ_of_lt (h.lt c n hn)
  · change d.size < (d.addNonterminal name capture).2.size
    rw [hreg.size]
    apply Nat.lt_succ_self

namespace Extends

/-- A rule may be added to the nonterminal that may get rules. -/
theorem addRule (h : d.Tidy) {n : Nonterminal} (hn : n.index < d.size) (e : List Symbol) :
  Extends l (some n) d (d.addRule n e)
    ∧ (d.addRule n e).grammar.expansionsOf n = d.grammar.expansionsOf n ++ [e]
  := by
  have he := enlarges_addRule h.assembled h.listsAll hn e
  exact ⟨.of_enlarges h hn he, he.self⟩

theorem addRule? (h : d.Tidy) {n? : Option Nonterminal}
    (hopen : ∀ n, n? = some n → n.index < d.size) (e : List Symbol) :
  Extends l n? d (d.addRule? n? e)
    ∧ ∀ n, n? = some n → (d.addRule? n? e).grammar.expansionsOf n = d.grammar.expansionsOf n ++ [e]
  := by
  cases n? with
  | none => exact ⟨.refl h hopen, nofun⟩
  | some n =>
      obtain ⟨hext, hself⟩ := addRule h (hopen n rfl) e
      use hext
      rintro _ ⟨⟩
      apply hself

/-- Where nothing else is excepted, something registered may be. -/
theorem weaken_head {n? : Option Nonterminal} (h : Extends l n? d d') {n : Nonterminal}
    (hn : n.index < d.size) (hopen : ∀ m, n? = some m → m = n) :
  Extends l (some n) d d'
  := by
  cases n? with
  | none =>
      apply h.weaken
      rintro _ ⟨⟩
      apply hn
  | some m =>
      rw [hopen m rfl] at h
      apply h

/-- Finishing an instance whose parts are written makes its nonterminal say what it is. -/
theorem finish (hs : s.Identifies) (h : d.Tidy) {shape : Shape} {context name : String}
    (hcheck : s.check shape context = .ok ()) {n : Nonterminal} (hn : n.index < d.size)
    {bound : Nat} (hbound : bound ≤ d.size) {es : List (List Symbol)}
    (hes : List.Forall₂ (fun p e => s.language.Writes d.instances [p] e)
      ((shape.entries name).map Prod.snd) es)
    (hself : ∀ m, shape.head? n = some m → d.grammar.expansionsOf m = es)
    (hempty : shape.head? n = none → d.grammar.expansionsOf n = []) :
  Extends s.language (some n) d (s.finish shape name n es d)
    ∧ (s.finish shape name n es d).Defines s.language bound n shape
  := by
  have hrefl : Extends s.language (some n) d d := .refl h (by rintro _ ⟨⟩; apply hn)
  cases shape with
  | choice branches =>
      rw [Shape.entries, map_snd_numbered] at hes
      exact ⟨hrefl, .choice hes (hself n rfl)⟩
  | repetition r =>
      cases hr : r.isVoid with
      | true =>
          rw [Shape.entries, if_pos hr] at hes
          cases hes
          exact ⟨hrefl, .void hr (hempty rfl)⟩
      | false =>
          obtain ⟨element, delimiter, rest, rfl, hparts⟩ := Language.WritesParts.of_entries hr hes
          apply repetition h hn (hempty rfl) hbound hr name hparts
  | capture m =>
      cases hm : m.target with
      | none =>
          simp only [Source.check, hm] at hcheck
          cases hcheck
      | some target =>
          cases target with
          | pattern p =>
              simp only [Shape.entries, hm] at hes
              cases hes with
              | cons he hes =>
              cases hes
              simp only [Source.finish, hm]
              exact ⟨hrefl, .toPattern hm he (hself n rfl)⟩
          | nodeClass c =>
              simp only [Shape.entries, hm] at hes
              cases hes
              cases hnode : s.classes.get? c with
              | none =>
                  simp only [Source.check, hm, Source.checkCapture, Source.nodeClass, hnode]
                    at hcheck
                  cases hcheck
              | some node =>
                  simp only [Source.finish, hm, hnode]
                  obtain ⟨hclass, hinner⟩ := classNonterminal (l := s.language) h node
                  rw [hs c node hnode] at hinner
                  have hlt := Nat.lt_of_lt_of_le hn hclass.size
                  obtain ⟨hrule, he⟩ := addRule (l := s.language) hclass.tidy hlt
                    [.nonterminal (d.classNonterminal node).1]
                  use (hclass.weaken hrefl.below).trans hrule
                  apply Defines.toClass hm (hrule.classes _ _ hinner)
                  rw [he, hclass.expansions n hn (Option.some_ne_none n).symm, hself n rfl,
                    List.nil_append]

/-- An instance that is come by for the first time is given its nonterminal, which says what the
instance is once its parts are lowered and it is finished. -/
theorem newInstance (hs : s.Identifies) (h : d.Tidy) {id : CombinatorId} {c : Combinator}
    (hc : s.language.combinator? id = some c) (hnone : d.instances.get? id = none)
    {context : String} (hcheck : s.check c.shape context = .ok ()) {es : List (List Symbol)}
    (h' : Extends s.language (c.shape.head? d.grammar.nextNonterminal)
      (d.addInstance id (c.label context) c.capture?).2 d')
    (hes : List.Forall₂ (fun p e => s.language.Writes d'.instances [p] e)
      ((c.shape.entries (c.label context)).map Prod.snd) es)
    (hself : ∀ n, c.shape.head? d.grammar.nextNonterminal = some n → d'.grammar.expansionsOf n
      = (d.addInstance id (c.label context) c.capture?).2.grammar.expansionsOf n ++ es) :
  Extends s.language none d (s.finish c.shape (c.label context) d.grammar.nextNonterminal es d')
    ∧ (s.finish c.shape (c.label context) d.grammar.nextNonterminal es d').instances.get? id
      = some d.grammar.nextNonterminal
  := by
  obtain ⟨htidy, hlt, hempty⟩ := h.addInstance id (c.label context) c.capture?
  have hext := h'.weaken_head hlt (fun _ => Shape.eq_of_head?)
  have hlt' := Nat.lt_of_lt_of_le hlt h'.size
  have hself' : ∀ m, c.shape.head? d.grammar.nextNonterminal = some m →
      d'.grammar.expansionsOf m = es := by
    intro m hm
    rw [hself m hm, Shape.eq_of_head? hm, hempty, List.nil_append]
  have hempty' : c.shape.head? d.grammar.nextNonterminal = none →
      d'.grammar.expansionsOf d.grammar.nextNonterminal = [] := by
    intro hhead
    rw [h'.expansions _ hlt (by rw [hhead]; nofun), hempty]
  obtain ⟨hfinish, hdef⟩ := finish hs h'.tidy hcheck hlt' (Nat.le_of_lt hlt') hes hself' hempty'
  have hd' := hext.trans hfinish
  use .addInstance h hc hnone hd' hdef
  apply hd'.instances
  apply (OrderedMap.get?_insert d.instances id id _).trans
  rw [if_pos rfl]

end Extends

end Draft

/-! ### Patterns -/

namespace Source

mutual

/-- A pattern is lowered to symbols that it is written as. -/
theorem Lowers.extends (hs : s.Identifies) : ∀ {context : String} {p : Pattern} {d d' : Draft}
    {ss : List Symbol}, s.Lowers context p d ss d' → d.Tidy →
      d.Extends s.language none d' ∧ s.language.Writes d'.instances [p] ss
  | _, _, _, _, _, .literal, hd => ⟨.refl hd nofun, .literal .nil⟩
  | _, _, _, _, _, @Lowers.sequence _ _ items d d' sss h, hd => by
      obtain ⟨hd', hsss, -⟩ := h.extends hs hd nofun
      rw [map_snd_numbered] at hsss
      use hd'
      rw [← List.append_nil sss.flatten]
      exact .sequence (.flatten hsss) .nil
  | _, _, _, _, _, .dangling hid, hd => ⟨.refl hd nofun, .dangling hid .nil⟩
  | _, _, _, _, _, .again _ hn _, hd => ⟨.refl hd nofun, .combinator hn .nil⟩
  | _, _, _, _, _, @Lowers.new _ context id c d d₁ es hc hnone hcheck h, hd => by
      -- until its parts are lowered, the nonterminal does not say what the instance is
      obtain ⟨htidy, hlt, -⟩ := hd.addInstance id (c.label context) c.capture?
      obtain ⟨hd₁, hes, hself⟩ := h.extends hs htidy (by
        intro m hm
        rw [Shape.eq_of_head? hm]
        apply hlt)
      obtain ⟨hd', hn⟩ := Draft.Extends.newInstance hs hd hc hnone hcheck hd₁ hes hself
      exact ⟨hd', .combinator hn .nil⟩

/-- Each pattern becomes an expansion of the nonterminal that is to get rules. -/
theorem LowersEach.extends (hs : s.Identifies) : ∀ {n? : Option Nonterminal}
    {parts : List (String × Pattern)} {d d' : Draft} {es : List (List Symbol)},
    s.LowersEach n? parts d es d' → d.Tidy → (∀ n, n? = some n → n.index < d.size) →
      d.Extends s.language n? d'
        ∧ List.Forall₂ (fun p e => s.language.Writes d'.instances [p] e) (parts.map Prod.snd) es
        ∧ ∀ n, n? = some n → d'.grammar.expansionsOf n = d.grammar.expansionsOf n ++ es
  | _, _, _, _, _, .nil, hd, hopen => ⟨.refl hd hopen, .nil, fun _ _ => (List.append_nil _).symm⟩
  | n?, _, _, _, _, @LowersEach.cons _ _ context p parts d d₁ d₂ e es h hparts, hd, hopen => by
      obtain ⟨hd₁, he⟩ := h.extends hs hd
      have hopen₁ : ∀ n, n? = some n → n.index < d₁.size :=
        fun n hn => Nat.lt_of_lt_of_le (hopen n hn) hd₁.size
      obtain ⟨hrule, hself⟩ := Draft.Extends.addRule? (l := s.language) hd₁.tidy hopen₁ e
      have hopen₂ : ∀ n, n? = some n → n.index < (d₁.addRule? n? e).size :=
        fun n hn => Nat.lt_of_lt_of_le (hopen₁ n hn) hrule.size
      obtain ⟨hd₂, hes, hall⟩ := hparts.extends hs hrule.tidy hopen₂
      refine ⟨((hd₁.weaken hopen).trans hrule).trans hd₂, .cons ?_ hes, ?_⟩
      · apply (he.mono hrule.instances).mono hd₂.instances
      · intro n hn
        rw [hall n hn, hself n hn, hd₁.expansions n (hopen n hn) nofun, List.append_assoc,
          List.singleton_append]

end

end Source

/-! ### Classes -/

namespace Draft

/-- The nonterminal of a class has the body of the class for its only expansion. -/
def DefinesClass (l : Language) (d : Draft) (c : ClassId) (n : Nonterminal) : Prop :=
  ∃ p e, l.pattern? c = some p ∧ l.Writes d.instances [p] e ∧ d.grammar.expansionsOf n = [e]

/-- A draft between the bodies of two classes: all instances are made, and so are all classes
except for those that are pending. -/
structure Settled (l : Language) (d : Draft) : Prop where
  tidy : d.Tidy
  instances : ∀ id n, d.instances.get? id = some n → d.Made l 0 id n
  classes : ∀ c n, d.classes.get? c = some n → (c, n) ∈ d.pending ∨ d.DefinesClass l c n
  pending : ∀ c n, (c, n) ∈ d.pending →
    d.classes.get? c = some n ∧ d.grammar.expansionsOf n = []
  nodup : d.pending.Nodup

variable {l : Language} {d d' : Draft} {c : ClassId} {n : Nonterminal}
  {pending : List (ClassId × Nonterminal)}

/-- Making the body of the class that is pending first leads from one settled draft to another
one. -/
theorem Settled.step (h : d.Settled l) (hp : d.pending = (c, n) :: pending)
    (hext : Draft.Extends l (some n) { d with pending } d') (hdef : d'.DefinesClass l c n) :
  d'.Settled l ∧ d.Retains d' 0
  := by
  have hold : ∀ c' m, (c', m) ∈ d.pending → d.classes.get? c' = some m :=
    fun c' m hm => (h.pending c' m hm).1
  have hn : d.classes.get? c = some n := by
    apply hold
    rw [hp]
    apply List.mem_cons_self
  have hnodup := h.nodup
  rw [hp, List.nodup_cons] at hnodup
  have hret : d.Retains d' 0 := by
    have hret' : Draft.Retains { d with pending } d' 0 := by
      apply hext.retains
      intro m hm hown
      cases hm
      apply hown.apart c hn
    exact ⟨fun m hm => hret'.own m ⟨hm.le, hm.lt, hm.apart⟩,
      fun m hm => hret'.expansions m ⟨hm.le, hm.lt, hm.apart⟩, hret'.instances, hret'.classes⟩
  -- the nonterminals of the other classes keep their expansions
  have hsame : ∀ c' m, c' ≠ c → d.classes.get? c' = some m →
      d'.grammar.expansionsOf m = d.grammar.expansionsOf m := by
    intro c' m hne hm
    apply hext.expansions m (h.tidy.lt c' m hm)
    intro heq
    cases heq
    apply hne (h.tidy.apart c' c n hm hn)
  obtain ⟨new, hpending, hnew, hmem⟩ := hext.pending
  refine ⟨⟨hext.tidy, ?_, ?_, ?_, ?_⟩, hret⟩
  · intro id m hm
    rcases hext.made id m hm with hm | hmade
    · apply (h.instances id m hm).retain hret
    · apply hmade.mono (Nat.zero_le _)
  · intro c' m hm
    rw [hpending]
    cases hc' : d.classes.get? c' with
    | none =>
        left
        apply List.mem_append_right
        apply (hmem c' m).mpr ⟨hm, hc'⟩
    | some m' =>
        obtain rfl : m' = m := Option.some.inj ((hext.classes c' m' hc').symm.trans hm)
        by_cases heq : c' = c
        · subst heq
          obtain rfl : n = m' := Option.some.inj (hn.symm.trans hc')
          exact Or.inr hdef
        · rcases h.classes c' m' hc' with hmem' | ⟨p, e, hpat, he, hself⟩
          · left
            rw [hp] at hmem'
            rcases List.mem_cons.mp hmem' with heq' | hmem'
            · cases heq (congrArg Prod.fst heq')
            · apply List.mem_append_left _ hmem'
          · exact Or.inr ⟨p, e, hpat, he.mono hext.instances, (hsame c' m' heq hc').trans hself⟩
  · intro c' m hm
    rw [hpending] at hm
    rcases List.mem_append.mp hm with hm | hm
    · have hmem' : (c', m) ∈ d.pending := by
        rw [hp]
        apply List.mem_cons_of_mem _ hm
      have hne : c' ≠ c := by
        rintro rfl
        obtain rfl : n = m := Option.some.inj (hn.symm.trans (hold c' m hmem'))
        apply hnodup.1 hm
      use hext.classes c' m (hold c' m hmem')
      rw [hsame c' m hne (hold c' m hmem'), (h.pending c' m hmem').2]
    · obtain ⟨hm', hnone⟩ := (hmem c' m).mp hm
      use hm'
      rcases hext.opened c' m hm' with hsome | ⟨-, he⟩
      · cases hsome.symm.trans hnone
      · apply he
  · rw [hpending]
    apply List.nodup_append.mpr
    refine ⟨hnodup.2, hnew, ?_⟩
    rintro ⟨c', m⟩ hm _ hm' rfl
    have hsome : d.classes.get? c' = some m := by
      apply hold
      rw [hp]
      apply List.mem_cons_of_mem _ hm
    cases hsome.symm.trans ((hmem c' m).mp hm').2

end Draft

namespace Source

/-- At first, the root class is the only one with a nonterminal. -/
theorem get?_classes_rootDraft {root c' : ClassId} {c : NodeClass} {n : Nonterminal}
    (hc : c.id = root) :
  (rootDraft root c).classes.get? c' = some n ↔ c' = root ∧ n = ⟨2⟩
  := by
  change (OrderedMap.insert ∅ c.id _).get? c' = some n ↔ _
  rw [OrderedMap.get?_insert, hc]
  by_cases h : c' = root
  · rw [if_pos h, Option.some.injEq, eq_comm]
    exact ⟨fun hn => ⟨h, hn⟩, And.right⟩
  · rw [if_neg h]
    exact ⟨nofun, fun hn => (h hn.1).elim⟩

theorem settled_rootDraft {l : Language} {root : ClassId} {c : NodeClass} (hc : c.id = root) :
  (rootDraft root c).Settled l ∧ (rootDraft root c).classes.get? root = some ⟨2⟩
    ∧ (rootDraft root c).Own 0 .start ∧ (rootDraft root c).Own 0 ⟨1⟩
  := by
  have hclasses := fun c' n => @get?_classes_rootDraft root c' c n hc
  have hpending : (rootDraft root c).pending = [(root, ⟨2⟩)] := by
    rw [← hc]
    rfl
  refine ⟨⟨⟨?_, ?_, ?_, ?_⟩, ?_, ?_, ?_, ?_⟩, (hclasses _ _).mpr ⟨rfl, rfl⟩, ?_, ?_⟩
  · apply Grammar.Assembled.addRule
    apply Grammar.Assembled.addRule
    apply Grammar.Assembled.addNonterminal
    apply Grammar.Assembled.addNonterminal
    apply Grammar.Assembled.empty
  · apply Grammar.ListsAll.addRule _ rfl
    apply Grammar.ListsAll.addRule _ rfl
    apply Grammar.ListsAll.addNonterminal
    apply Grammar.ListsAll.addNonterminal
    intro r rule hr
    cases hr
  · intro c' n hn
    rw [((hclasses c' n).mp hn).2]
    apply Nat.lt_succ_self 2
  · intro c₁ c₂ n h₁ h₂
    rw [((hclasses c₁ n).mp h₁).1, ((hclasses c₂ n).mp h₂).1]
  · intro id n hn
    cases hn
  · intro c' n hn
    obtain ⟨rfl, rfl⟩ := (hclasses c' n).mp hn
    left
    rw [hpending]
    apply List.mem_singleton_self
  · intro c' n hn
    rw [hpending, List.mem_singleton] at hn
    cases hn
    exact ⟨(hclasses _ _).mpr ⟨rfl, rfl⟩, rfl⟩
  · rw [hpending]
    apply List.pairwise_singleton
  · refine ⟨Nat.zero_le _, Nat.succ_pos 2, ?_⟩
    intro c' hn
    cases ((hclasses c' _).mp hn).2
  · refine ⟨Nat.zero_le _, Nat.lt_succ_of_lt Nat.one_lt_two, ?_⟩
    intro c' hn
    cases ((hclasses c' _).mp hn).2

/-- Once no class is pending any more, all classes are made. -/
theorem Completes.settled (hs : s.Identifies) {d d' : Draft} (h : s.Completes d d')
    (hd : d.Settled s.language) :
  d'.Settled s.language ∧ d'.pending = [] ∧ d.Retains d' 0
  := by
  induction h with
  | done hp => exact ⟨hd, hp, fun _ => id, fun _ _ => rfl, fun _ _ => id, fun _ _ => id⟩
  | @next c n pending node p e d d₁ d₂ hp _ hpat h _ ih =>
      have hmem : (c, n) ∈ d.pending := by
        rw [hp]
        apply List.mem_cons_self
      obtain ⟨hn, hempty⟩ := hd.pending c n hmem
      have htidy : Draft.Tidy { d with pending } :=
        ⟨hd.tidy.assembled, hd.tidy.listsAll, hd.tidy.lt, hd.tidy.apart⟩
      have hlt : n.index < d.size := hd.tidy.lt c n hn
      obtain ⟨hd₁, he⟩ := h.extends hs htidy
      obtain ⟨hrule, hself⟩ := Draft.Extends.addRule (l := s.language) hd₁.tidy
        (Nat.lt_of_lt_of_le hlt hd₁.size) e
      have hext := (hd₁.weaken_head hlt nofun).trans hrule
      have hsame : d₁.grammar.expansionsOf n = [] := (hd₁.expansions n hlt nofun).trans hempty
      rw [hsame, List.nil_append] at hself
      obtain ⟨hd₂, hret⟩ := hd.step hp hext ⟨p, e, hpat, he.mono hrule.instances, hself⟩
      obtain ⟨hd', hnone, hret'⟩ := ih hd₂
      exact ⟨hd', hnone, hret.trans hret'⟩

/-- In the end, the start symbol leads to the root class, and all instances and classes are made. -/
theorem settled_of_lowerAll (hs : s.Identifies) {root : ClassId} {startRule : Nat}
    (h : (s.lowerAll root).run .empty = .ok (startRule, d)) :
  d.Settled s.language ∧ d.pending = [] ∧ d.classes.get? root = some ⟨2⟩
    ∧ d.grammar.expansionsOf .start = [[.nonterminal ⟨1⟩]]
    ∧ d.grammar.expansionsOf ⟨1⟩ = [[.nonterminal ⟨2⟩]]
  := by
  obtain ⟨-, c, hc, h⟩ := completes_of_lowerAll h
  obtain ⟨hroot, hclass, hstart, hinner⟩ :=
    settled_rootDraft (l := s.language) (hs root c (get?_of_nodeClass hc))
  obtain ⟨hd, hnone, hret⟩ := h.settled hs hroot
  exact ⟨hd, hnone, hret.classes _ _ hclass, hret.expansions _ hstart, hret.expansions _ hinner⟩

end Source

end CaptureLR

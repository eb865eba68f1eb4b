import CaptureLR.Proofs.Lowering.Labels
import CaptureLR.Proofs.Lowering.Reached
import Mathlib.Algebra.BigOperators.Fin

/-!
# How far lowering got

Beside a draft there are the owners of its nonterminals, the classes whose bodies were begun, and
the places in the bodies that were begun: the instances that were asked for already and those still
to come. An instance without a name was asked for once at most. As lowering goes on, places to come
are asked for, and owners are added together with the places in their bodies.
-/

namespace CaptureLR

variable {s : Source} {l : Language} {root : ClassId} {made : List ClassId}
  {waiting : List CombinatorId} {owners owners' : List Owner} {seen rest : List CombinatorId}
  {d : Draft} {id : CombinatorId} {c : Combinator}

/-! ### Places -/

/-- Whether an owner is an instance of a combinator. -/
def Owner.isCombinator : Owner → Bool
  | combinator _ => true
  | _ => false

/-- What a nonterminal of an owner captures. -/
def Language.captureOf (l : Language) (root : ClassId) : Owner → Option Capture
  | .root => some ⟨false, "root", .node root⟩
  | .combinator id => (l.combinator? id).bind Combinator.capture?
  | _ => none

/-- The owners whose bodies were begun: some classes, and all instances that own something. -/
def bodiesOf (made : List ClassId) (owners : List Owner) : List Owner :=
  made.map .nodeClass ++ owners.filter Owner.isCombinator

theorem mem_bodiesOf {o : Owner} :
  o ∈ bodiesOf made owners
    ↔ (∃ c ∈ made, o = .nodeClass c) ∨ ∃ id, o = .combinator id ∧ o ∈ owners
  := by
  rw [bodiesOf, List.mem_append, List.mem_map, List.mem_filter]
  apply or_congr
  · apply exists_congr
    intro c
    rw [eq_comm]
  · cases o with
    | combinator id => simp [Owner.isCombinator]
    | _ => simp [Owner.isCombinator]

theorem nodup_bodiesOf (hmade : made.Nodup) (howners : owners.Nodup) :
  (bodiesOf made owners).Nodup
  := by
  apply List.nodup_append.mpr
  refine ⟨hmade.map (fun _ _ h => Owner.nodeClass.inj h), howners.filter _, ?_⟩
  rintro _ hc o ho rfl
  obtain ⟨c, -, rfl⟩ := List.mem_map.mp hc
  cases (List.mem_filter.mp ho).2

/-- The places in bodies that were begun. -/
def Language.places (l : Language) (made : List ClassId) (owners : List Owner) :
    List CombinatorId :=
  (bodiesOf made owners).flatMap l.mentions

theorem Language.places_append (l : Language) (made : List ClassId) (owners : List Owner)
    (o : Owner) :
  l.places made (owners ++ [o])
    = l.places made owners ++ if o.isCombinator then l.mentions o else []
  := by
  rw [places, places, bodiesOf, bodiesOf, List.filter_append, ← List.append_assoc, List.flatMap_append]
  cases o with
  | combinator id => simp [List.filter, Owner.isCombinator]
  | _ => simp [Owner.isCombinator]

theorem Language.filter_places (l : Language) (made : List ClassId) (owners : List Owner) :
  (l.places made owners).filter l.isUnnamed = (bodiesOf made owners).flatMap l.unnamed
  := List.filter_flatMap

/-- In what is lowerable, no instance without a name stands in two places. -/
theorem Source.IsLowerable.nodup_places (h : s.IsLowerable root) (hmade : made.Nodup)
    (howners : owners.Nodup) (hreached : ∀ o ∈ bodiesOf made owners, s.language.Reaches root o) :
  ((s.language.places made owners).filter s.language.isUnnamed).Nodup
  := by
  rw [Language.filter_places, List.nodup_flatMap]
  use fun o ho => h.once o (hreached o ho)
  apply (nodup_bodiesOf hmade howners).pairwise_of_forall_ne
  intro o ho o' ho' hne id hid hid'
  apply h.apart o o' (hreached o ho) (hreached o' ho') hne id hid hid'

/-! ### Owned nonterminals -/

/-- Looking up behind one more element. -/
theorem getElem?_concat_eq_some {α : Type} {xs : List α} {x y : α} {i : Nat} :
  (xs ++ [x])[i]? = some y ↔ xs[i]? = some y ∨ (i = xs.length ∧ x = y)
  := by
  rcases Nat.lt_trichotomy i xs.length with h | h | h
  · rw [List.getElem?_append_left h]
    simp [Nat.ne_of_lt h]
  · subst h
    simp
  · rw [List.getElem?_eq_none (by rw [List.length_append]; exact h),
      List.getElem?_eq_none (Nat.le_of_lt h)]
    simp [Nat.ne_of_gt h]

/-- Every nonterminal of a draft has one owner, and no two have the same. Those of instances and
classes are listed in the draft, each captures what its owner does, and the loop of a repetition
stands at the end of a rule of the repetition. -/
structure Draft.OwnedBy (l : Language) (root : ClassId) (owners : List Owner) (d : Draft) :
    Prop where
  size : d.size = owners.length
  nodup : owners.Nodup
  instances : ∀ id n, d.instances.get? id = some n ↔ owners[n.index]? = some (.combinator id)
  classes : ∀ c n, d.classes.get? c = some n ↔ owners[n.index]? = some (.nodeClass c)
  captures : ∀ i o, owners[i]? = some o → d.grammar.capture? ⟨i⟩ = l.captureOf root o
  loops : ∀ id i, owners[i]? = some (.loop id) → ∃ n ss, d.instances.get? id = some n
    ∧ ⟨n, ss ++ [.nonterminal ⟨i⟩]⟩ ∈ d.grammar.rules

namespace Draft.OwnedBy

theorem isSome_instances (h : d.OwnedBy l root owners) :
  (d.instances.get? id).isSome ↔ .combinator id ∈ owners
  := by
  rw [Option.isSome_iff_exists]
  constructor
  · rintro ⟨n, hn⟩
    apply List.mem_of_getElem? ((h.instances id n).mp hn)
  · intro hid
    obtain ⟨i, hi⟩ := List.mem_iff_getElem?.mp hid
    exact ⟨⟨i⟩, (h.instances id ⟨i⟩).mpr hi⟩

theorem isSome_classes (h : d.OwnedBy l root owners) {c : ClassId} :
  (d.classes.get? c).isSome ↔ .nodeClass c ∈ owners
  := by
  rw [Option.isSome_iff_exists]
  constructor
  · rintro ⟨n, hn⟩
    apply List.mem_of_getElem? ((h.classes c n).mp hn)
  · intro hc
    obtain ⟨i, hi⟩ := List.mem_iff_getElem?.mp hc
    exact ⟨⟨i⟩, (h.classes c ⟨i⟩).mpr hi⟩

/-- More rules do no harm. -/
theorem addRule (h : d.OwnedBy l root owners) (n : Nonterminal) (e : List Symbol) :
  (d.addRule n e).OwnedBy l root owners
  where
  size := (Proper.size_addRule d n e).trans h.size
  nodup := h.nodup
  instances := h.instances
  classes := h.classes
  captures i o ho := (Proper.capture?_addRule d.grammar n e ⟨i⟩).trans (h.captures i o ho)
  loops id i hi := by
    obtain ⟨m, ss, hm, hr⟩ := h.loops id i hi
    exact ⟨m, ss, hm, Array.mem_push_of_mem _ hr⟩

/-- The number of the next nonterminal is that of the next owner. -/
theorem next_iff (h : d.OwnedBy l root owners) {n : Nonterminal} :
  n = d.grammar.nextNonterminal ↔ n.index = owners.length
  := by
  obtain ⟨i⟩ := n
  rw [← h.size, Draft.size, Grammar.nextNonterminal, Nonterminal.mk.injEq]

/-- A nonterminal is added for one more owner. -/
theorem add (h : d.OwnedBy l root owners) {o : Owner} (hnew : o ∉ owners) {d' : Draft}
    (hsize : d'.size = d.size + 1)
    (hinstances : ∀ id n, d'.instances.get? id = some n
      ↔ d.instances.get? id = some n ∨ (n.index = owners.length ∧ o = .combinator id))
    (hclasses : ∀ c n, d'.classes.get? c = some n
      ↔ d.classes.get? c = some n ∨ (n.index = owners.length ∧ o = .nodeClass c))
    (hcaptures : ∀ n, d'.grammar.capture? n
      = if n = d.grammar.nextNonterminal then l.captureOf root o else d.grammar.capture? n)
    (hrules : ∀ r ∈ d.grammar.rules, r ∈ d'.grammar.rules)
    (hloop : ∀ id, o = .loop id → ∃ n ss, d.instances.get? id = some n
      ∧ ⟨n, ss ++ [.nonterminal d.grammar.nextNonterminal]⟩ ∈ d'.grammar.rules) :
  d'.OwnedBy l root (owners ++ [o])
  where
  size := by rw [hsize, h.size, List.length_append, List.length_singleton]
  nodup := by
    apply h.nodup.append (List.nodup_singleton o)
    intro x hx hxo
    rw [List.mem_singleton.mp hxo] at hx
    apply hnew hx
  instances id n := by rw [hinstances, h.instances, getElem?_concat_eq_some]
  classes c n := by rw [hclasses, h.classes, getElem?_concat_eq_some]
  captures i o' ho' := by
    rw [hcaptures]
    rcases getElem?_concat_eq_some.mp ho' with ho' | ⟨hi, rfl⟩
    · rw [if_neg, h.captures i o' ho']
      rw [h.next_iff]
      apply Nat.ne_of_lt (List.getElem?_eq_some_iff.mp ho').1
    · rw [if_pos (h.next_iff.mpr hi)]
  loops id i hi := by
    rcases getElem?_concat_eq_some.mp hi with hi | ⟨hi, ho⟩
    · obtain ⟨n, ss, hn, hr⟩ := h.loops id i hi
      exact ⟨n, ss, (hinstances id n).mpr (Or.inl hn), hrules _ hr⟩
    · obtain ⟨n, ss, hn, hr⟩ := hloop id ho
      have hnext : ⟨i⟩ = d.grammar.nextNonterminal := h.next_iff.mpr hi
      rw [← hnext] at hr
      exact ⟨n, ss, (hinstances id n).mpr (Or.inl hn), hr⟩

/-- An instance is given a nonterminal. -/
theorem addInstance (h : d.OwnedBy l root owners) (hnew : .combinator id ∉ owners)
    (hc : l.combinator? id = some c) (name : String) :
  (d.addInstance id name c.capture?).2.OwnedBy l root (owners ++ [.combinator id])
  := by
  have hinstances : ∀ id', (d.addInstance id name c.capture?).2.instances.get? id'
      = if id' = id then some d.grammar.nextNonterminal else d.instances.get? id' :=
    fun id' => OrderedMap.get?_insert d.instances id id' _
  have hsize : (d.addInstance id name c.capture?).2.size = d.size + 1 := Array.size_push _
  refine h.add hnew hsize ?_ ?_ ?_ (fun _ hr => hr) (by intro _ ho; cases ho)
  · intro id' n
    rw [hinstances]
    by_cases heq : id' = id
    · subst heq
      have hnone : d.instances.get? id' = none := by
        rw [← Option.not_isSome_iff_eq_none, h.isSome_instances]
        apply hnew
      rw [if_pos rfl, hnone, Option.some.injEq, eq_comm, h.next_iff]
      simp
    · have hne : Owner.combinator id ≠ .combinator id' := fun he => heq (Owner.combinator.inj he).symm
      simp [heq, hne]
  · intro c n
    exact (or_iff_left fun ho => by cases ho.2).symm
  · intro n
    apply (Grammar.capture?_addNonterminal d.grammar name c.capture? n).trans
    rw [Language.captureOf, hc]
    rfl

/-- A class is given a nonterminal. -/
theorem addClass (h : d.OwnedBy l root owners) {cl : ClassId} (hnew : .nodeClass cl ∉ owners)
    (name : String) (pending : List (ClassId × Nonterminal)) :
  Draft.OwnedBy l root (owners ++ [.nodeClass cl])
    { grammar := d.grammar.addNonterminal name none, instances := d.instances,
      classes := d.classes.insert cl d.grammar.nextNonterminal, pending }
  := by
  refine h.add hnew (Array.size_push _) ?_ ?_ ?_ (fun _ hr => hr) (by intro _ ho; cases ho)
  · intro id n
    exact (or_iff_left fun ho => by cases ho.2).symm
  · intro cl' n
    rw [OrderedMap.get?_insert]
    by_cases heq : cl' = cl
    · subst heq
      have hnone : d.classes.get? cl' = none := by
        rw [← Option.not_isSome_iff_eq_none, h.isSome_classes]
        apply hnew
      rw [if_pos rfl, hnone, Option.some.injEq, eq_comm, h.next_iff]
      simp
    · have hne : Owner.nodeClass cl ≠ .nodeClass cl' := fun he => heq (Owner.nodeClass.inj he).symm
      simp [heq, hne]
  · intro n
    apply Grammar.capture?_addNonterminal

/-- The loop of a repetition is given a nonterminal that stands at the end of a rule of the
repetition. -/
theorem addLoop (h : d.OwnedBy l root owners) (hnew : .loop id ∉ owners) {n : Nonterminal}
    (hn : d.instances.get? id = some n) (name : String) (ss : List Symbol) :
  ((d.addNonterminal name none).2.addRule n
    (ss ++ [.nonterminal d.grammar.nextNonterminal])).OwnedBy l root (owners ++ [.loop id])
  := by
  apply h.add hnew ((Proper.size_addRule _ _ _).trans (Array.size_push _))
  · intro id n
    exact (or_iff_left fun ho => by cases ho.2).symm
  · intro c n
    exact (or_iff_left fun ho => by cases ho.2).symm
  · intro m
    apply (Proper.capture?_addRule _ n _ m).trans
    apply Grammar.capture?_addNonterminal
  · intro r hr
    apply Array.mem_push_of_mem _ hr
  · intro id' heq
    cases heq
    exact ⟨n, ss, hn, Array.mem_push_self⟩

end Draft.OwnedBy

/-! ### The state of lowering -/

/-- How far lowering got from a root: the owners of the nonterminals, oldest first; the classes
whose bodies were begun; the places asked for and those to come; and the repetitions whose loops
are still to be made. -/
structure Source.Progress (s : Source) (root : ClassId) (made : List ClassId)
    (waiting : List CombinatorId) (owners : List Owner) (seen rest : List CombinatorId)
    (d : Draft) : Prop where
  owned : d.OwnedBy s.language root owners
  reached : ∀ o ∈ owners, s.language.Reaches root o
  loops : ∀ id, .loop id ∈ owners
    ↔ .combinator id ∈ owners ∧ s.language.IsUnbounded id ∧ id ∉ waiting
  waits : ∀ id ∈ waiting, .combinator id ∈ owners
  begun : ∀ c, .nodeClass c ∈ owners ↔ c ∈ made ++ d.pending.map Prod.fst
  classOnce : (made ++ d.pending.map Prod.fst).Nodup
  places : (s.language.places made owners).Perm (seen ++ rest)
  once : (seen.filter s.language.isUnnamed).Nodup
  asked : ∀ id ∈ seen, ∀ c, s.language.combinator? id = some c → .combinator id ∈ owners
  seen : ∀ id, .combinator id ∈ owners → id ∈ seen
  plain : ∀ id, .combinator id ∈ owners → s.IsPlain id

/-- The error is that an instance without a name was come by again or that a class standing for an
array is captured as a single value, and the language is to blame for it. -/
structure Source.Blames (s : Source) (root : ClassId) (e : BuildError) : Prop where
  kind : (∃ combinator context, e = .unnamedReuse combinator context)
    ∨ ∃ name, e = .hiddenArrayCapture name
  not_isLowerable : ¬ s.IsLowerable root

namespace Source.Progress

/-- The bodies that were begun are come by. -/
theorem reached_bodies (h : s.Progress root made waiting owners seen rest d) {o : Owner}
    (ho : o ∈ bodiesOf made owners) :
  s.language.Reaches root o
  := by
  apply h.reached
  rcases mem_bodiesOf.mp ho with ⟨c, hc, rfl⟩ | ⟨id, -, ho⟩
  · apply (h.begun c).mpr (List.mem_append_left _ hc)
  · apply ho

/-- What is still to come is come by. -/
theorem reached_of_mem_rest (h : s.Progress root made waiting owners seen rest d)
    (hid : id ∈ rest) (hc : s.language.combinator? id = some c) :
  s.language.Reaches root (.combinator id)
  := by
  have hmem := h.places.mem_iff.mpr (List.mem_append_right seen hid)
  obtain ⟨o, ho, hid⟩ := List.mem_flatMap.mp hmem
  apply (h.reached_bodies ho).mention hid hc

/-- An instance without a name that was come by before must not be come by again. -/
theorem blames_reuse (h : s.Progress root made waiting owners seen (id :: rest) d)
    (hc : s.language.combinator? id = some c) (hname : c.name.isSome = false)
    (hid : .combinator id ∈ owners) (combinator context : String) :
  s.Blames root (.unnamedReuse combinator context)
  := by
  refine ⟨Or.inl ⟨_, _, rfl⟩, ?_⟩
  intro hlowerable
  have hunnamed : s.language.isUnnamed id = true := by
    rw [Language.isUnnamed, hc]
    simpa using hname
  have hmade := (List.nodup_append.mp h.classOnce).1
  have hnodup := hlowerable.nodup_places hmade h.owned.nodup (fun o ho => h.reached_bodies ho)
  rw [(h.places.filter _).nodup_iff, List.filter_append, List.filter_cons_of_pos hunnamed] at hnodup
  apply (List.nodup_append.mp hnodup).2.2 id _ id List.mem_cons_self rfl
  apply List.mem_filter.mpr ⟨h.seen id hid, hunnamed⟩

/-- A class standing for an array must not be captured as a single value. -/
theorem blames_capture (h : s.Progress root made waiting owners seen (id :: rest) d)
    {name : Option String} {m : Match} {cl : ClassId} {n : NodeClass}
    (hc : s.language.combinator? id = some ⟨name, .capture m⟩)
    (hm : m.target = some (.nodeClass cl)) (hn : s.classes.get? cl = some n)
    (hbad : (!m.isArray && n.standsForArray) = true) :
  s.Blames root (.hiddenArrayCapture n.name)
  := by
  refine ⟨Or.inr ⟨_, rfl⟩, ?_⟩
  intro hlowerable
  rw [Bool.and_eq_true, Bool.not_eq_true'] at hbad
  have hreached := h.reached_of_mem_rest List.mem_cons_self hc
  cases hbad.2.symm.trans (hlowerable.plain id hreached name m cl n hc hm hn hbad.1)

/-! ### Steps -/

theorem addRule (h : s.Progress root made waiting owners seen rest d) (n : Nonterminal)
    (e : List Symbol) :
  s.Progress root made waiting owners seen rest (d.addRule n e)
  := { h with owned := h.owned.addRule n e }

theorem addRules (h : s.Progress root made waiting owners seen rest d) (n : Nonterminal)
    (es : List (List Symbol)) :
  s.Progress root made waiting owners seen rest (d.addRules n es)
  := by
  induction es generalizing d with
  | nil => apply h
  | cons e es ih => apply ih (h.addRule n e)

/-- A place is asked for that names no instance, or one that has a name and is known. -/
theorem pass (h : s.Progress root made waiting owners seen (id :: rest) d)
    (hunnamed : s.language.isUnnamed id = false)
    (hid : ∀ c, s.language.combinator? id = some c → .combinator id ∈ owners) :
  s.Progress root made waiting owners (seen ++ [id]) rest d
  := by
  refine { h with places := ?_, once := ?_, asked := ?_, seen := ?_ }
  · rw [List.append_assoc]
    apply h.places
  · rw [List.filter_append, List.filter_cons_of_neg (by simp [hunnamed]), List.filter_nil,
      List.append_nil]
    apply h.once
  · intro id' hid' c hc
    rcases List.mem_append.mp hid' with hid' | hid'
    · apply h.asked id' hid' c hc
    · obtain rfl := List.mem_singleton.mp hid'
      apply hid c hc
  · intro id' hid'
    apply List.mem_append_left _ (h.seen id' hid')

/-- An instance is come by for the first time: it is given a nonterminal, and the places in its body
are to come next. -/
theorem addInstance (h : s.Progress root made waiting owners seen (id :: rest) d)
    (hc : s.language.combinator? id = some c) (hnew : .combinator id ∉ owners)
    (hplain : s.IsPlain id) {waiting' : List CombinatorId}
    (hold : ∀ id', id' ≠ id → (id' ∈ waiting' ↔ id' ∈ waiting))
    (hself : s.language.IsUnbounded id → id ∈ waiting') (name : String) :
  s.Progress root made waiting' (owners ++ [.combinator id]) (seen ++ [id])
    (Pattern.mentionsList c.entered ++ rest) (d.addInstance id name c.capture?).2
  := by
  have hmem : ∀ o, o ∈ owners ++ [Owner.combinator id] ↔ o ∈ owners ∨ o = .combinator id := by
    intro o
    rw [List.mem_append, List.mem_singleton]
  have hnew' : id ∉ seen := fun hid => hnew (h.asked id hid c hc)
  have hreached := h.reached_of_mem_rest List.mem_cons_self hc
  have hbody : s.language.mentions (.combinator id) = Pattern.mentionsList c.entered := by
    simp only [Language.mentions, hc]
  refine ⟨h.owned.addInstance hnew hc name, ?_, ?_, ?_, ?_, h.classOnce, ?_, ?_, ?_, ?_, ?_⟩
  · intro o ho
    rcases (hmem o).mp ho with ho | rfl
    · apply h.reached o ho
    · apply hreached
  · intro id'
    simp only [hmem, reduceCtorEq, or_false, Owner.combinator.injEq]
    by_cases heq : id' = id
    · subst heq
      constructor
      · intro hloop
        cases hnew ((h.loops id').mp hloop).1
      · rintro ⟨-, hunbounded, hno⟩
        cases hno (hself hunbounded)
    · rw [hold id' heq, h.loops id']
      simp [heq]
  · intro id' hid'
    apply (hmem _).mpr
    by_cases heq : id' = id
    · exact Or.inr (congrArg _ heq)
    · exact Or.inl (h.waits id' ((hold id' heq).mp hid'))
  · intro c'
    simp only [hmem, reduceCtorEq, or_false]
    apply h.begun
  · have hcombinator : (Owner.combinator id).isCombinator = true := rfl
    rw [Language.places_append, if_pos hcombinator, hbody]
    apply (h.places.append_right _).trans
    simp only [List.append_assoc, List.cons_append, List.nil_append]
    apply List.Perm.append_left
    apply List.Perm.cons
    apply List.perm_append_comm
  · rw [List.filter_append]
    apply h.once.append ((List.nodup_singleton id).filter _)
    intro id' hid' hid
    rw [List.mem_singleton.mp (List.mem_filter.mp hid).1] at hid'
    apply hnew' (List.mem_filter.mp hid').1
  · intro id' hid' c' hc'
    apply (hmem _).mpr
    rcases List.mem_append.mp hid' with hid' | hid'
    · exact Or.inl (h.asked id' hid' c' hc')
    · exact Or.inr (congrArg _ (List.mem_singleton.mp hid'))
  · intro id' hid'
    rcases (hmem _).mp hid' with hid' | heq
    · apply List.mem_append_left _ (h.seen id' hid')
    · cases heq
      apply List.mem_append_right _ (List.mem_singleton_self _)
  · intro id' hid'
    rcases (hmem _).mp hid' with hid' | heq
    · apply h.plain id' hid'
    · cases heq
      apply hplain

/-- One more owner that is no instance: nothing else is asked for. -/
theorem addOwner (h : s.Progress root made waiting owners seen rest d) {o : Owner}
    (ho : o.isCombinator = false) (hreached : s.language.Reaches root o) {d' : Draft}
    (howned : d'.OwnedBy s.language root (owners ++ [o])) {waiting' : List CombinatorId}
    (hwaits : waiting' ⊆ waiting)
    (hloops : ∀ id, .loop id ∈ owners ++ [o]
      ↔ .combinator id ∈ owners ∧ s.language.IsUnbounded id ∧ id ∉ waiting')
    (hbegun : ∀ c, .nodeClass c ∈ owners ++ [o] ↔ c ∈ made ++ d'.pending.map Prod.fst)
    (hclassOnce : (made ++ d'.pending.map Prod.fst).Nodup) :
  s.Progress root made waiting' (owners ++ [o]) seen rest d'
  := by
  have hold : ∀ id, Owner.combinator id ∈ owners ++ [o] ↔ .combinator id ∈ owners := by
    intro id
    rw [List.mem_append, List.mem_singleton]
    apply or_iff_left
    rintro rfl
    cases ho
  refine ⟨howned, ?_, ?_, ?_, hbegun, hclassOnce, ?_, h.once, ?_, ?_, ?_⟩
  · intro o' ho'
    rcases List.mem_append.mp ho' with ho' | ho'
    · apply h.reached o' ho'
    · rw [List.mem_singleton.mp ho']
      apply hreached
  · simp only [hold]
    apply hloops
  · intro id hid
    apply (hold id).mpr (h.waits id (hwaits hid))
  · rw [Language.places_append, if_neg (by simp [ho]), List.append_nil]
    apply h.places
  · intro id hid c hc
    apply (hold id).mpr (h.asked id hid c hc)
  · intro id hid
    apply h.seen id ((hold id).mp hid)
  · intro id hid
    apply h.plain id ((hold id).mp hid)

/-- A class that is come by has a nonterminal afterwards. -/
theorem classNonterminal (h : s.Progress root made waiting owners seen rest d) (n : NodeClass)
    (hreached : s.language.Reaches root (.nodeClass n.id)) :
  ∃ owners', owners <+: owners'
    ∧ s.Progress root made waiting owners' seen rest (d.classNonterminal n).2
  := by
  unfold Draft.classNonterminal
  cases hn : d.classes.get? n.id with
  | some m => exact ⟨owners, List.prefix_refl owners, h⟩
  | none =>
      have hnew : .nodeClass n.id ∉ owners := by
        rw [← h.owned.isSome_classes, hn]
        exact nofun
      refine ⟨owners ++ [.nodeClass n.id], List.prefix_append owners _,
        h.addOwner rfl hreached (h.owned.addClass hnew n.name _) (List.Subset.refl _) ?_ ?_ ?_⟩
      · intro id
        rw [← h.loops]
        simp
      · intro c
        change _ ↔ c ∈ made ++ (d.pending ++ [(n.id, _)]).map Prod.fst
        rw [List.map_append, ← List.append_assoc, List.mem_append, List.mem_append, ← h.begun,
          List.mem_singleton, Owner.nodeClass.injEq]
        apply or_congr_right
        exact List.mem_singleton.symm
      · rw [List.map_append, ← List.append_assoc]
        apply h.classOnce.append (List.nodup_singleton _)
        intro c hc hcn
        rw [List.mem_singleton.mp hcn] at hc
        apply hnew ((h.begun _).mpr hc)

/-- The loop of a repetition that waits for it is given a nonterminal. -/
theorem addLoop (h : s.Progress root made (id :: waiting) owners seen rest d)
    (hid : s.language.IsUnbounded id) (hnot : id ∉ waiting) {n : Nonterminal}
    (hn : d.instances.get? id = some n) (name : String) (ss : List Symbol) :
  s.Progress root made waiting (owners ++ [.loop id]) seen rest
    ((d.addNonterminal name none).2.addRule n (ss ++ [.nonterminal d.grammar.nextNonterminal]))
  := by
  have hself : .combinator id ∈ owners := h.waits id List.mem_cons_self
  have hnew : .loop id ∉ owners := by
    rw [h.loops]
    rintro ⟨-, -, hno⟩
    apply hno List.mem_cons_self
  refine h.addOwner rfl ((h.reached _ hself).loop hid) (h.owned.addLoop hnew hn name ss)
    (List.subset_cons_self id waiting) ?_ ?_ h.classOnce
  · intro id'
    rw [List.mem_append, List.mem_singleton, Owner.loop.injEq, h.loops id']
    by_cases heq : id' = id
    · subst heq
      simp [hself, hid, hnot]
    · simp [heq]
  · intro c
    rw [List.mem_append, List.mem_singleton]
    apply (or_iff_left (fun he => by cases he)).trans
    apply h.begun

/-- The body of the class that is pending first is begun. -/
theorem beginClass {cl : ClassId} {n : Nonterminal} {pending : List (ClassId × Nonterminal)}
    (h : s.Progress root made waiting owners seen rest d) (hp : d.pending = (cl, n) :: pending) :
  s.Progress root (made ++ [cl]) waiting owners seen (s.language.mentions (.nodeClass cl) ++ rest)
    { d with pending }
  := by
  have hclasses : made ++ d.pending.map Prod.fst = (made ++ [cl]) ++ pending.map Prod.fst := by
    rw [hp, List.append_assoc]
    rfl
  have howned : Draft.OwnedBy s.language root owners { d with pending } :=
    ⟨h.owned.size, h.owned.nodup, h.owned.instances, h.owned.classes, h.owned.captures,
      h.owned.loops⟩
  refine ⟨howned, h.reached, h.loops, h.waits, ?_, ?_, ?_, h.once, h.asked, h.seen, h.plain⟩
  · intro c
    rw [h.begun, hclasses]
  · rw [← hclasses]
    apply h.classOnce
  · have hbodies : (bodiesOf (made ++ [cl]) owners).Perm (.nodeClass cl :: bodiesOf made owners) := by
      rw [bodiesOf, bodiesOf, List.map_append, List.append_assoc]
      apply List.perm_middle
    apply (hbodies.flatMap_right _).trans
    rw [List.flatMap_cons]
    apply (h.places.append_left _).trans
    rw [← List.append_assoc, ← List.append_assoc]
    apply List.perm_append_comm.append_right

end Source.Progress

end CaptureLR

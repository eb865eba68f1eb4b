import CaptureLR.Proofs.Language.Unrolling
import CaptureLR.Proofs.Table.Loading

/-!
# Class tables are exact

The classes that matches lead to from a root are a graph, perhaps with cycles. They are collected if
nothing is wrong with any of them: each has a pattern, all of its matches have targets and agree on
its properties, and no other one has its name. The table lists them level by level, those of a
level in the order in which the classes of the level before lead to them, and the fields of each are
the properties that are captured in it, in the order in which it is read.
-/

namespace CaptureLR

namespace Language

/-! ### What is discovered from a root -/

/-- A match in a class leads to a class. -/
def LeadsTo (l : Language) (c d : ClassId) : Prop :=
  ∃ m, l.HasMatch c m ∧ m.target = some (.nodeClass d)

/-- A class that matches lead to from a root, through any number of classes. -/
def Finds (l : Language) (root : ClassId) : ClassId → Prop := Relation.ReflTransGen l.LeadsTo root

/-- The classes that are so many matches away from a root, in the order in which the classes before
them lead to them. -/
def level (l : Language) (root : ClassId) : Nat → List ClassId
  | 0 => [root]
  | n + 1 => (l.level root n).flatMap l.leadsFrom

/-- The classes of the first levels, each where it first occurs. -/
def discovered (l : Language) (root : ClassId) (n : Nat) : List ClassId :=
  (OrderedSet.ofList ((List.range n).flatMap (l.level root))).toList

/-- Nothing is wrong with the classes found from a root: they are declared and defined, they have names
of their own, and their matches have targets and agree on properties. -/
structure IsCollectable (l : Language) (root : ClassId) : Prop where
  defined : ∀ c, l.Finds root c → (l.pattern? c).isSome
  named : ∀ c d, l.Finds root c → l.Finds root d → l.name? c = l.name? d → c = d
  target : ∀ c m, l.Finds root c → l.HasMatch c m → m.target.isSome
  flag : ∀ c m m' prop, l.Finds root c → l.HasMatch c m → l.HasMatch c m' →
    m.prop = some prop → m'.prop = some prop → m.isArray = m'.isArray

variable {l : Language} {root c d : ClassId}

theorem mem_leadsFrom :
  d ∈ l.leadsFrom c ↔ l.LeadsTo c d
  := by
  rw [leadsFrom, List.mem_filterMap]
  apply exists_congr
  intro m
  rw [mem_matchesIn]
  apply and_congr_right
  intro _
  unfold Match.nodeClass?
  split
  · next d' hd' => rw [hd', Option.some.injEq, Option.some.injEq, Target.nodeClass.injEq]
  · next hother =>
    constructor
    · nofun
    · intro h
      cases hother d h

theorem IsCollectable.agree (h : l.IsCollectable root) (hc : l.Finds root c) :
  Match.Agree (l.matchesIn c)
  where
  isSome m hm := h.target c m hc (mem_matchesIn.mp hm)
  flag m hm m' hm' prop := h.flag c m m' prop hc (mem_matchesIn.mp hm) (mem_matchesIn.mp hm')

/-! ### Levels -/

/-- The classes of more levels are the root and those that the classes of fewer levels lead to. -/
theorem discovered_succ (l : Language) (root : ClassId) (n : Nat) :
  l.discovered root (n + 1)
    = (OrderedSet.ofList (root :: (l.discovered root n).flatMap l.leadsFrom)).toList
  := by
  have hlevels : (List.range (n + 1)).flatMap (l.level root)
      = root :: ((List.range n).flatMap (l.level root)).flatMap l.leadsFrom := by
    rw [List.range_succ_eq_map, List.flatMap_cons, List.flatMap_map, List.flatMap_assoc]
    rfl
  have hdistinct := OrderedSet.insertMany_flatMap_ofList (.insert .empty root) l.leadsFrom
    ((List.range n).flatMap (l.level root))
  rw [discovered, hlevels]
  apply congrArg OrderedSet.toList hdistinct.symm

section Closed

variable {cs : List ClassId} (h : cs = (OrderedSet.ofList (root :: cs.flatMap l.leadsFrom)).toList)

include h

/-- A list that has the root and what its classes lead to has all that is found. -/
theorem mem_of_finds (hc : l.Finds root c) :
  c ∈ cs
  := by
  induction hc with
  | refl =>
      rw [h, OrderedSet.mem_ofList]
      apply List.mem_cons_self
  | tail _ hd ih =>
      rw [h, OrderedSet.mem_ofList]
      apply List.mem_cons_of_mem
      exact List.mem_flatMap.mpr ⟨_, ih, mem_leadsFrom.mpr hd⟩

theorem prefix_discovered (n : Nat) :
  l.discovered root n <+: cs
  := by
  induction n with
  | zero => apply List.nil_prefix
  | succ n ih =>
      obtain ⟨more, hmore⟩ := ih
      rw [discovered_succ, h, ← hmore, List.flatMap_append, ← List.cons_append]
      apply OrderedSet.prefix_ofList
      apply List.prefix_append

/-- If a level has nothing new, all is discovered. -/
theorem discovered_eq_of_succ (hfinds : ∀ c ∈ cs, l.Finds root c) {n : Nat}
    (hn : l.discovered root (n + 1) = l.discovered root n) :
  l.discovered root n = cs
  := by
  have hnodup : cs.Nodup := by
    rw [h]
    apply OrderedSet.nodup
  have hsub : ∀ c ∈ cs, c ∈ l.discovered root n := by
    intro c hc
    apply mem_of_finds _ (hfinds c hc)
    rw [← discovered_succ, hn]
  apply (prefix_discovered h n).eq_of_length_le
  apply (hnodup.subperm hsub).length_le

/-- As long as not all is discovered, each level has something new. -/
theorem le_length_discovered (hfinds : ∀ c ∈ cs, l.Finds root c) (n : Nat) :
  n ≤ (l.discovered root n).length ∨ l.discovered root n = cs
  := by
  induction n with
  | zero =>
      left
      apply Nat.zero_le
  | succ n ih =>
      rcases ih with hn | hn
      · have hstep : l.discovered root n <+: l.discovered root (n + 1) := by
          apply OrderedSet.prefix_ofList
          rw [List.range_succ, List.flatMap_append]
          apply List.prefix_append
        rcases Nat.lt_or_ge n (l.discovered root (n + 1)).length with hlt | hge
        · left
          apply hlt
        · right
          have heq := hstep.eq_of_length_le (Nat.le_trans hge hn)
          rw [← heq]
          apply discovered_eq_of_succ h hfinds heq.symm
      · right
        rw [discovered_succ, hn]
        apply h.symm

/-- All is discovered after as many levels as there are classes. -/
theorem discovered_eq (hfinds : ∀ c ∈ cs, l.Finds root c) {n : Nat} (hn : cs.length ≤ n) :
  l.discovered root n = cs
  := by
  rcases le_length_discovered h hfinds n with hle | heq
  · apply (prefix_discovered h n).eq_of_length_le (Nat.le_trans hn hle)
  · apply heq

end Closed

end Language

/-- A node class is what its declaration and the matches in the class make it. -/
structure Language.IsRead (l : Language) (c : ClassId) (n : NodeClass) : Prop where
  id : n.id = c
  declared : ∃ d, l.classes[c.index]? = some d ∧ d.name = n.name ∧ d.pattern.isSome
  holds : Found.Holds ⟨n.fields, l.leadsFrom c⟩ (l.matchesIn c)

namespace ClassTable

variable {l : Language} {root c : ClassId} {t t' : ClassTable} {queue : List ClassId}
  {d : ClassDecl} {found : Found}

/-! ### Examining one class -/

/-- A class that is examined without an error has a pattern and a new name, and what was found is what
its matches have. -/
theorem holds_of_examine (hd : l.classes[c.index]? = some d) (h : t.examine l d = .ok found) :
  d.pattern.isSome ∧ found.Holds (l.matchesIn c)
  := by
  unfold examine at h
  split at h
  · cases h
  · next p hp =>
    split at h
    · cases h
    · have hpattern : l.pattern? c = some p := by
        rw [Language.pattern?, hd]
        apply hp
      rw [Language.walk_eq_ofMatches hpattern] at h
      use by rw [hp, Option.isSome_some]
      apply Found.holds_of_ofMatches h

theorem exists_examine (hd : l.classes[c.index]? = some d) (hp : d.pattern.isSome)
    (hname : t.byName? d.name = none) (hagree : Match.Agree (l.matchesIn c)) :
  ∃ found, t.examine l d = .ok found
  := by
  obtain ⟨p, hp⟩ := Option.isSome_iff_exists.mp hp
  have hpattern : l.pattern? c = some p := by
    rw [Language.pattern?, hd]
    apply hp
  simp only [examine, hp, hname, Option.isSome_none, Bool.false_eq_true, if_false]
  rw [Language.walk_eq_ofMatches hpattern]
  apply Found.exists_ofMatches d.name hagree

/-! ### Going through the queue -/

/-- The table and the queue have only classes that are found. If the classes that were taken out of
the queue are put in front of it, it is made of the root and of what the classes of the table lead
to; the table has each of those taken out where it first occurred. -/
structure IsDiscovered (l : Language) (root : ClassId) (t : ClassTable) (queue : List ClassId) :
    Prop where
  classes : ∀ c n, t.get? c = some n → l.IsRead c n
  finds : ∀ c ∈ t.classes.keys ++ queue, l.Finds root c
  order : ∃ taken, root :: t.classes.keys.flatMap l.leadsFrom = taken ++ queue
    ∧ t.classes.keys = (OrderedSet.ofList taken).toList

theorem isDiscovered_empty (l : Language) (root : ClassId) :
  empty.IsDiscovered l root [root]
  where
  classes c n hn := by cases hn
  finds c hc := by
    cases List.mem_singleton.mp hc
    apply Relation.ReflTransGen.refl
  order := ⟨[], rfl, rfl⟩

/-- A class that is in the table already is left out. -/
theorem IsDiscovered.skip (h : t.IsDiscovered l root (c :: queue))
    (hc : t.classes.contains c = true) :
  t.IsDiscovered l root queue
  where
  classes := h.classes
  finds d hd := by
    apply h.finds d
    rw [List.mem_append] at hd ⊢
    apply hd.imp_right (List.mem_cons_of_mem c)
  order := by
    obtain ⟨taken, hqueue, hkeys⟩ := h.order
    rw [OrderedMap.contains_iff, hkeys] at hc
    refine ⟨taken ++ [c], ?_, ?_⟩
    · rw [hqueue, List.append_assoc, List.singleton_append]
    · rw [OrderedSet.toList_ofList_concat, if_pos hc, hkeys]

/-- A new class comes last in the table, and what it leads to comes last in the queue. -/
theorem IsDiscovered.insert (h : t.IsDiscovered l root (c :: queue))
    (hc : ¬ t.classes.contains c = true) (hd : l.classes[c.index]? = some d)
    (he : t.examine l d = .ok found) :
  IsDiscovered l root ⟨t.classes.insert c ⟨c, d.name, d.hidden, found.fields⟩⟩
    (queue ++ found.classes)
  := by
  obtain ⟨hpattern, hholds⟩ := holds_of_examine hd he
  have hclasses : found.classes = l.leadsFrom c := hholds.classes
  have hkeys : ∀ n, (t.classes.insert c n).keys = t.classes.keys ++ [c] := by
    intro n
    rw [OrderedMap.keys_insert, if_neg (fun hmem => hc (OrderedMap.contains_iff.mpr hmem))]
  have hfound : l.Finds root c :=
    h.finds c (List.mem_append_right _ List.mem_cons_self)
  refine ⟨?_, ?_, ?_⟩
  · intro c' n hn
    change (t.classes.insert c _).get? c' = some n at hn
    rw [OrderedMap.get?_insert] at hn
    split at hn
    · next heq =>
      cases hn
      subst heq
      refine ⟨rfl, ⟨d, hd, rfl, hpattern⟩, ?_⟩
      rw [← hclasses]
      apply hholds
    · apply h.classes c' n hn
  · intro c' hc'
    rw [hkeys, hclasses] at hc'
    simp only [List.mem_append, List.mem_singleton] at hc'
    rcases hc' with (hc' | rfl) | hc' | hc'
    · apply h.finds c' (List.mem_append_left _ hc')
    · apply hfound
    · apply h.finds c' (List.mem_append_right _ (List.mem_cons_of_mem c hc'))
    · apply hfound.tail (Language.mem_leadsFrom.mp hc')
  · obtain ⟨taken, hqueue, hold⟩ := h.order
    have hnew : c ∉ (OrderedSet.ofList taken).toList := by
      rw [← hold]
      exact fun hmem => hc (OrderedMap.contains_iff.mpr hmem)
    refine ⟨taken ++ [c], ?_, ?_⟩
    · rw [hkeys, List.flatMap_append, ← List.cons_append, hqueue, List.flatMap_singleton, hclasses]
      simp only [List.append_assoc, List.cons_append, List.nil_append]
    · rw [hkeys, hold, OrderedSet.toList_ofList_concat, if_neg hnew]

theorem IsDiscovered.collectQueue (h : t.IsDiscovered l root queue)
    (hok : t.collectQueue l queue = .ok t') :
  t'.IsDiscovered l root []
  := by
  fun_induction ClassTable.collectQueue l t queue with
  | case1 t =>
      cases hok
      apply h
  | case2 t c queue hc ih => apply ih (h.skip hc) hok
  | case3 t c queue hc hlt d e he => cases hok
  | case4 t c queue hc hlt d found he ih =>
      apply ih (h.insert hc (Array.getElem?_eq_getElem hlt) he) hok
  | case5 t c queue hc hlt => cases hok

/-- If nothing is wrong with the classes that are found, all of them are collected. -/
theorem IsDiscovered.exists_collectQueue (h : t.IsDiscovered l root queue)
    (hl : l.IsCollectable root) :
  ∃ t', t.collectQueue l queue = .ok t'
  := by
  have hdeclared : ∀ {t : ClassTable} {c : ClassId} {queue : List ClassId},
      t.IsDiscovered l root (c :: queue) → ¬ t.classes.contains c = true →
      ∃ d, l.classes[c.index]? = some d ∧ ∃ found, t.examine l d = .ok found := by
    intro t c queue h hc
    have hfound := h.finds c (List.mem_append_right _ List.mem_cons_self)
    have hdefined := hl.defined c hfound
    unfold Language.pattern? at hdefined
    obtain ⟨d, hd⟩ : ∃ d, l.classes[c.index]? = some d := by
      cases hd : l.classes[c.index]? with
      | none =>
          rw [hd] at hdefined
          cases hdefined
      | some d => exact ⟨d, rfl⟩
    refine ⟨d, hd, exists_examine hd ?_ ?_ (hl.agree hfound)⟩
    · rw [hd] at hdefined
      apply hdefined
    · -- a class of the table with the same name would be the class itself
      apply Option.eq_none_iff_forall_ne_some.mpr
      intro n hn
      have hname : n.name = d.name :=
        of_decide_eq_true (List.find?_eq_some_iff_append.mp hn).1
      obtain ⟨⟨c', n'⟩, hmem, heq⟩ := List.mem_map.mp (List.mem_of_find?_eq_some hn)
      obtain rfl : n' = n := heq
      have hget : t.get? c' = some n' := OrderedMap.mem_toList_iff.mp hmem
      have hkey : c' ∈ t.classes.keys := OrderedMap.mem_keys_iff.mpr ⟨n', hget⟩
      obtain ⟨d', hd', hname', -⟩ := (h.classes c' n' hget).declared
      have hsame : l.name? c' = l.name? c := by
        rw [Language.name?, Language.name?, hd, hd', Option.map_some, Option.map_some, hname', hname]
      cases hl.named c' c (h.finds c' (List.mem_append_left _ hkey)) hfound hsame
      exact hc (OrderedMap.contains_iff.mpr hkey)
  fun_induction ClassTable.collectQueue l t queue with
  | case1 t => exact ⟨t, rfl⟩
  | case2 t c queue hc ih => apply ih (h.skip hc)
  | case3 t c queue hc hlt d e he =>
      obtain ⟨d', hd', found, hfound⟩ := hdeclared h hc
      cases (Array.getElem?_eq_getElem hlt).symm.trans hd'
      cases he.symm.trans hfound
  | case4 t c queue hc hlt d found he ih =>
      apply ih (h.insert hc (Array.getElem?_eq_getElem hlt) he)
  | case5 t c queue hc hlt =>
      obtain ⟨d', hd', -⟩ := hdeclared h hc
      exact absurd (Array.getElem?_eq_some_iff.mp hd').1 hlt

/-! ### The classes of a table -/

section Collected

variable (h : t.IsDiscovered l root [])

include h

theorem IsDiscovered.keys_eq :
  t.classes.keys = (OrderedSet.ofList (root :: t.classes.keys.flatMap l.leadsFrom)).toList
  := by
  obtain ⟨taken, hqueue, hkeys⟩ := h.order
  rw [List.append_nil] at hqueue
  rw [hqueue]
  apply hkeys

theorem IsDiscovered.isSome_get?_iff :
  (t.get? c).isSome ↔ l.Finds root c
  := by
  have hkey : (t.get? c).isSome ↔ c ∈ t.classes.keys := by
    rw [Option.isSome_iff_exists]
    apply OrderedMap.mem_keys_iff.symm
  rw [hkey]
  constructor
  · intro hc
    apply h.finds c (List.mem_append_left [] hc)
  · apply Language.mem_of_finds h.keys_eq

theorem IsDiscovered.get?_fields_iff {n : NodeClass} (hn : t.get? c = some n) {prop : String}
    {b : Bool} :
  n.fields.get? prop = some b ↔ ∃ m, l.HasMatch c m ∧ m.prop = some prop ∧ m.isArray = b
  := by
  have hholds := (h.classes c n hn).holds
  constructor
  · intro hb
    have hkey : prop ∈ n.fields.keys := OrderedMap.mem_keys_iff.mpr ⟨b, hb⟩
    rw [hholds.keys, OrderedSet.mem_ofList] at hkey
    obtain ⟨m, hm, hprop⟩ := List.mem_filterMap.mp hkey
    refine ⟨m, Language.mem_matchesIn.mp hm, hprop, ?_⟩
    apply Option.some.inj
    rw [← hb]
    exact (hholds.flag m hm prop hprop).symm
  · rintro ⟨m, hm, hprop, rfl⟩
    apply hholds.flag m (Language.mem_matchesIn.mpr hm) prop hprop

end Collected

/-- Nothing is wrong with the classes that were collected. -/
theorem isCollectable_of_collect (h : collect l root = .ok t) :
  l.IsCollectable root
  := by
  have hdiscovered := (isDiscovered_empty l root).collectQueue h
  have hget : ∀ c, l.Finds root c → ∃ n, t.get? c = some n := fun c hc =>
    Option.isSome_iff_exists.mp (hdiscovered.isSome_get?_iff.mpr hc)
  refine ⟨?_, ?_, ?_, ?_⟩
  · intro c hc
    obtain ⟨n, hn⟩ := hget c hc
    obtain ⟨d, hd, -, hpattern⟩ := (hdiscovered.classes c n hn).declared
    rw [Language.pattern?, hd]
    apply hpattern
  · intro c d hc hd hname
    obtain ⟨n, hn⟩ := hget c hc
    obtain ⟨n', hn'⟩ := hget d hd
    have hread := hdiscovered.classes c n hn
    have hread' := hdiscovered.classes d n' hn'
    obtain ⟨e, he, hen, -⟩ := hread.declared
    obtain ⟨e', he', hen', -⟩ := hread'.declared
    rw [Language.name?, Language.name?, he, he', Option.map_some, Option.map_some,
      Option.some.injEq, hen, hen'] at hname
    have hbyName := (Constructed.collected h).byName?_name hn
    rw [hname, (Constructed.collected h).byName?_name hn', Option.some.injEq] at hbyName
    rw [← hread.id, ← hread'.id, hbyName]
  · intro c m hc hm
    obtain ⟨n, hn⟩ := hget c hc
    apply (hdiscovered.classes c n hn).holds.isSome m (Language.mem_matchesIn.mpr hm)
  · intro c m m' prop hc hm hm' hprop hprop'
    obtain ⟨n, hn⟩ := hget c hc
    apply Option.some.inj
    rw [← hdiscovered.get?_fields_iff hn |>.mpr ⟨m, hm, hprop, rfl⟩]
    apply (hdiscovered.get?_fields_iff hn).mpr ⟨m', hm', hprop', rfl⟩

/-- The classes of a root are collected exactly if nothing is wrong with any that is found. Then the
table has the classes that are found, level by level, each under its name; its fields are the
properties that are captured in it, in the order in which they first occur, under the flags of the
matches. -/
theorem collect_exact (l : Language) (root : ClassId) :
  ((∃ t, collect l root = .ok t) ↔ l.IsCollectable root)
  ∧ ∀ t, collect l root = .ok t →
      (∀ c, (t.get? c).isSome ↔ l.Finds root c)
      ∧ (∀ n, t.size ≤ n → t.classes.keys = l.discovered root n)
      ∧ ∀ c n, t.get? c = some n →
          n.id = c ∧ l.name? c = some n.name ∧ t.byName? n.name = some n
          ∧ n.fields.keys = l.propsIn c
          ∧ ∀ prop b, n.fields.get? prop = some b
              ↔ ∃ m, l.HasMatch c m ∧ m.prop = some prop ∧ m.isArray = b
  := by
  constructor
  · constructor
    · rintro ⟨t, h⟩
      apply isCollectable_of_collect h
    · apply (isDiscovered_empty l root).exists_collectQueue
  · intro t h
    have hdiscovered := (isDiscovered_empty l root).collectQueue h
    refine ⟨fun c => hdiscovered.isSome_get?_iff, ?_, ?_⟩
    · intro n hn
      symm
      apply Language.discovered_eq hdiscovered.keys_eq
      · intro c hc
        apply hdiscovered.finds c (List.mem_append_left [] hc)
      · rw [OrderedMap.keys, List.length_map]
        apply hn
    · intro c n hn
      have hread := hdiscovered.classes c n hn
      obtain ⟨d, hd, hname, -⟩ := hread.declared
      refine ⟨hread.id, ?_, (Constructed.collected h).byName?_name hn, hread.holds.keys,
        fun prop b => hdiscovered.get?_fields_iff hn⟩
      rw [Language.name?, hd, Option.map_some, hname]

end ClassTable

/-! ### Classes that lead to each other -/

/-- A language whose two classes lead to each other, and the first one to itself. -/
def Language.linked : Language where
  classes := #[⟨"List", false, some (.sequence [.combinator ⟨0⟩, .combinator ⟨1⟩])⟩,
    ⟨"Item", false, some (.combinator ⟨2⟩)⟩]
  combinators := #[⟨none, .capture ⟨some "first", false, some (.nodeClass ⟨1⟩)⟩⟩,
    ⟨none, .capture ⟨some "rest", false, some (.nodeClass ⟨0⟩)⟩⟩,
    ⟨none, .capture ⟨some "inner", true, some (.nodeClass ⟨0⟩)⟩⟩]

/-- The classes of the language. -/
def ClassTable.linked : ClassTable :=
  ⟨.ofList [(⟨0⟩, ⟨⟨0⟩, "List", false, .ofList [("first", false), ("rest", false)]⟩),
    (⟨1⟩, ⟨⟨1⟩, "Item", false, .ofList [("inner", true)]⟩)]⟩

theorem Language.walk_list :
  Language.linked.walk "List" ∅ ⟨∅, []⟩ [.sequence [.combinator ⟨0⟩, .combinator ⟨1⟩]]
    = .ok ⟨.ofList [("first", false), ("rest", false)], [⟨1⟩, ⟨0⟩]⟩
  := by
  have hfirst : (⟨0⟩ : CombinatorId) ∉ (∅ : OrderedSet CombinatorId) := by decide
  have hsecond : (⟨1⟩ : CombinatorId) ∉ OrderedSet.insert (∅ : OrderedSet CombinatorId) ⟨0⟩ := by
    decide
  have hin : ∀ i < 3, i < Language.linked.combinators.size := fun _ => id
  rw [walk, List.append_nil, walk, dif_neg hfirst, dif_pos (hin 0 (by decide))]
  change Language.linked.walk _ _ _ [.combinator ⟨1⟩] = _
  rw [walk, dif_neg hsecond, dif_pos (hin 1 (by decide))]
  change Language.linked.walk _ _ _ [] = _
  rw [walk]
  rfl

theorem Language.walk_item :
  Language.linked.walk "Item" ∅ ⟨∅, []⟩ [.combinator ⟨2⟩] = .ok ⟨.ofList [("inner", true)], [⟨0⟩]⟩
  := by
  have hnew : (⟨2⟩ : CombinatorId) ∉ (∅ : OrderedSet CombinatorId) := by decide
  have hin : 2 < Language.linked.combinators.size := Nat.lt_succ_self 2
  rw [walk, dif_neg hnew, dif_pos hin]
  change Language.linked.walk _ _ _ [] = _
  rw [walk]
  rfl

theorem ClassTable.collect_linked :
  ClassTable.collect .linked ⟨0⟩ = .ok .linked
  := by
  let list : NodeClass := ⟨⟨0⟩, "List", false, .ofList [("first", false), ("rest", false)]⟩
  have hlist : ClassTable.empty.examine .linked
      ⟨"List", false, some (.sequence [.combinator ⟨0⟩, .combinator ⟨1⟩])⟩
      = .ok ⟨.ofList [("first", false), ("rest", false)], [⟨1⟩, ⟨0⟩]⟩ := Language.walk_list
  have hitem : ClassTable.examine .linked ⟨ClassTable.empty.classes.insert ⟨0⟩ list⟩
      ⟨"Item", false, some (.combinator ⟨2⟩)⟩
      = .ok ⟨.ofList [("inner", true)], [⟨0⟩]⟩ := Language.walk_item
  rw [collect, collectQueue_cons (by decide) rfl hlist]
  refine (collectQueue_cons (by decide) rfl hitem).trans ?_
  change collectQueue .linked .linked [⟨0⟩, ⟨0⟩] = _
  have hthere : ClassTable.linked.classes.contains ⟨0⟩ = true := by decide
  rw [collectQueue, dif_pos hthere, collectQueue, dif_pos hthere, collectQueue]

/-- Nothing is wrong with the classes that lead to each other, and they are discovered one after the
other. -/
theorem ClassTable.collect_exact_linked :
  collect .linked ⟨0⟩ = .ok .linked ∧ Language.linked.IsCollectable ⟨0⟩
    ∧ Language.linked.discovered ⟨0⟩ 2 = [⟨0⟩, ⟨1⟩]
    ∧ Language.linked.propsIn ⟨0⟩ = ["first", "rest"]
    ∧ Language.linked.Finds ⟨0⟩ ⟨1⟩
  := by
  obtain ⟨hok, hcollected⟩ := collect_exact .linked ⟨0⟩
  obtain ⟨hfinds, hkeys, hclasses⟩ := hcollected .linked collect_linked
  obtain ⟨-, -, -, hprops, -⟩ := hclasses ⟨0⟩ _ rfl
  refine ⟨collect_linked, hok.mp ⟨_, collect_linked⟩, ?_, ?_, (hfinds ⟨1⟩).mp (by decide)⟩
  · rw [← hkeys 2 (by decide)]
    rfl
  · rw [← hprops]
    rfl

end CaptureLR

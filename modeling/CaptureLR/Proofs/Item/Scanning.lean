import CaptureLR.Proofs.Item.Closure

/-!
# Closures by scans

A list of items is scanned while items are added behind it, and it is scanned again only if the
context of an item that was there has been enlarged. Items that are added do not call for another
scan, since the scan that adds them comes by them. So the scans end with the least closure.
-/

namespace CaptureLR

/-! ### Scans -/

/-- Adding an item enlarges the context of the item with the same core. -/
def enlarges (item : Item) : List Item → Bool
  | [] => false
  | i :: is =>
      if i.core = item.core then decide ((i.follow ∪ item.follow).size ≠ i.follow.size)
      else enlarges item is

/-- A list of items that is being scanned, and whether the scan has enlarged a context. -/
structure Scanned where
  items : List Item
  enlarged : Bool

namespace Scanned

/-- An item is added in a scan. -/
def add (item : Item) (s : Scanned) : Scanned :=
  ⟨addItem item s.items, s.enlarged || enlarges item s.items⟩

/-- What an item calls for is added in a scan. -/
def visit (g : Grammar) (item : Item) (s : Scanned) : Scanned :=
  match item.symbol? g with
  | some (.nonterminal n) =>
      let follow := item.followAt g
      (g.rulesFor n).foldl (fun s r => s.add ⟨⟨r, 0⟩, follow⟩) s
  | _ => s

end Scanned

/-- The rest of a scan from an index on: it visits one item after the other, those that are added
on the way included, until there is no other one. -/
inductive Scans (g : Grammar) : Nat → Scanned → Scanned → Prop
  | stop {i : Nat} {s : Scanned} (h : s.items[i]? = none) : Scans g i s s
  | visit {i : Nat} {item : Item} {s s' : Scanned} (hi : s.items[i]? = some item)
      (h : Scans g (i + 1) (s.visit g item) s') :
      Scans g i s s'

/-- Scans of a list of items are made until one enlarges no context. -/
inductive Closes (g : Grammar) : List Item → List Item → Prop
  | last {items items' : List Item} (h : Scans g 0 ⟨items, false⟩ ⟨items', false⟩) :
      Closes g items items'
  | again {items items' items'' : List Item} (h : Scans g 0 ⟨items, false⟩ ⟨items', true⟩)
      (h' : Closes g items' items'') :
      Closes g items items''

/-- The head of a rule stands behind the dot of an item. -/
def Item.CallsFor (g : Grammar) (i : Item) (r : Nat) : Prop :=
  ∃ n, i.symbol? g = some (.nonterminal n) ∧ r ∈ g.rulesFor n

/-! ### Adding an item -/

/-- An item that enlarges a context makes a list heavier. -/
theorem weightOf_lt_addItem {item : Item} {items : List Item}
    (h : enlarges item items = true) :
  weightOf items < weightOf (addItem item items)
  := by
  induction items with
  | nil => cases h
  | cons i is ih =>
      unfold enlarges at h
      unfold addItem
      by_cases hc : i.core = item.core
      · rw [if_pos hc, decide_eq_true_eq] at h
        rw [if_pos hc]
        rcases OrderedSet.growsTo_union i.follow item.follow with hu | hu
        · exact absurd (by rw [hu]) h
        · simpa [weightOf] using hu
      · rw [if_neg hc] at h
        rw [if_neg hc]
        simpa [weightOf] using ih h

/-- An item that enlarges no context comes behind the others, or it has nothing new. -/
theorem prefix_addItem {item : Item} {items : List Item} (h : enlarges item items = false) :
  items <+: addItem item items ∧ addItem item (addItem item items) = addItem item items
  := by
  induction items with
  | nil =>
      use List.nil_prefix
      simp only [addItem, if_pos, List.cons.injEq, and_true]
      rw [OrderedSet.union_eq_left (fun _ => id)]
  | cons i is ih =>
      unfold enlarges at h
      unfold addItem
      by_cases hc : i.core = item.core
      · rw [if_pos hc, decide_eq_false_iff_not, not_not] at h
        have hu : i.follow ∪ item.follow = i.follow := by
          rcases OrderedSet.growsTo_union i.follow item.follow with hu | hu
          · apply hu
          · exact absurd h (Nat.ne_of_gt hu)
        rw [if_pos hc, hu]
        use List.prefix_rfl
        simp only [addItem, if_pos hc, hu]
      · rw [if_neg hc] at h
        obtain ⟨hp, ha⟩ := ih h
        rw [if_neg hc]
        constructor
        · apply List.cons_prefix_cons.mpr
          exact ⟨rfl, hp⟩
        · simp only [addItem, if_neg hc, ha]

/-- An item that has nothing new for a list has nothing new for a longer one. -/
theorem addItem_append {item : Item} {items : List Item} (h : addItem item items = items)
    (more : List Item) :
  addItem item (items ++ more) = items ++ more
  := by
  induction items with
  | nil => cases h
  | cons i is ih =>
      unfold addItem at h
      rw [List.cons_append, addItem]
      by_cases hc : i.core = item.core
      · rw [if_pos hc, List.cons.injEq] at h
        rw [if_pos hc, h.1]
      · rw [if_neg hc, List.cons.injEq] at h
        rw [if_neg hc, ih h.2]

theorem prefix_addItem_eq {item : Item} {items items' : List Item}
    (h : addItem item items = items) (hp : items <+: items') :
  addItem item items' = items'
  := by
  obtain ⟨more, rfl⟩ := hp
  apply addItem_append h

theorem prefix_weightOf_le {items items' : List Item} (h : items <+: items') :
  weightOf items ≤ weightOf items'
  := by
  obtain ⟨more, rfl⟩ := h
  rw [weightOf, weightOf, List.map_append, List.sum_append]
  apply Nat.le_add_right

namespace Scanned

variable {g : Grammar} {s s' s'' : Scanned}

/-! ### What a scan does to a list -/

/-- A scan has only added items behind the others, or it has enlarged a context. -/
def GoesOn (s s' : Scanned) : Prop :=
  (s'.enlarged = s.enlarged ∧ s.items <+: s'.items)
    ∨ (s'.enlarged = true ∧ weightOf s.items < weightOf s'.items)

theorem GoesOn.refl (s : Scanned) :
  s.GoesOn s
  := Or.inl ⟨rfl, List.prefix_rfl⟩

theorem GoesOn.weightOf_le (h : s.GoesOn s') :
  weightOf s.items ≤ weightOf s'.items
  := by
  rcases h with ⟨-, hp⟩ | ⟨-, hw⟩
  · apply prefix_weightOf_le hp
  · apply Nat.le_of_lt hw

theorem GoesOn.trans (h : s.GoesOn s') (h' : s'.GoesOn s'') :
  s.GoesOn s''
  := by
  rcases h' with ⟨he', hp'⟩ | ⟨he', hw'⟩
  · rcases h with ⟨he, hp⟩ | ⟨he, hw⟩
    · exact Or.inl ⟨he'.trans he, hp.trans hp'⟩
    · exact Or.inr ⟨he'.trans he, Nat.lt_of_lt_of_le hw (prefix_weightOf_le hp')⟩
  · exact Or.inr ⟨he', Nat.lt_of_le_of_lt h.weightOf_le hw'⟩

/-- A list that no context was enlarged in begins with what it was before. -/
theorem GoesOn.prefix_of_not_enlarged (h : s.GoesOn s') (he : s'.enlarged = false) :
  s.enlarged = false ∧ s.items <+: s'.items
  := by
  rcases h with ⟨hs, hp⟩ | ⟨ht, -⟩
  · exact ⟨hs ▸ he, hp⟩
  · cases he.symm.trans ht

theorem GoesOn.weightOf_lt (h : s.GoesOn s') (hs : s.enlarged = false)
    (hs' : s'.enlarged = true) :
  weightOf s.items < weightOf s'.items
  := by
  rcases h with ⟨he, -⟩ | ⟨-, hw⟩
  · cases hs.symm.trans (he.symm.trans hs')
  · apply hw

theorem goesOn_add (item : Item) (s : Scanned) :
  s.GoesOn (s.add item)
  := by
  cases h : enlarges item s.items with
  | false =>
      left
      use by rw [add, h, Bool.or_false]
      apply (prefix_addItem h).1
  | true =>
      right
      use by rw [add, h, Bool.or_true]
      apply weightOf_lt_addItem h

section Fold

variable {follow : Context}

theorem goesOn_foldl_add (rs : List Nat) (s : Scanned) :
  s.GoesOn (rs.foldl (fun s r => s.add ⟨⟨r, 0⟩, follow⟩) s)
  := by
  induction rs generalizing s with
  | nil => apply GoesOn.refl
  | cons r rs ih => exact (goesOn_add _ s).trans (ih _)

/-- If no context was enlarged, none of the items that were added has something new. -/
theorem addItem_foldl_add {rs : List Nat}
    (h : (rs.foldl (fun s r => s.add ⟨⟨r, 0⟩, follow⟩) s).enlarged = false) {r : Nat}
    (hr : r ∈ rs) :
  addItem ⟨⟨r, 0⟩, follow⟩ (rs.foldl (fun s r => s.add ⟨⟨r, 0⟩, follow⟩) s).items
    = (rs.foldl (fun s r => s.add ⟨⟨r, 0⟩, follow⟩) s).items
  := by
  induction rs generalizing s with
  | nil => cases hr
  | cons r' rs ih =>
      rcases List.mem_cons.mp hr with rfl | hr
      · obtain ⟨he, hp⟩ :=
          (goesOn_foldl_add rs (s.add ⟨⟨r, 0⟩, follow⟩)).prefix_of_not_enlarged h
        obtain ⟨-, hnew⟩ := Bool.or_eq_false_iff.mp he
        apply prefix_addItem_eq (prefix_addItem hnew).2 hp
      · apply ih h hr

end Fold

theorem goesOn_visit (item : Item) (s : Scanned) :
  s.GoesOn (s.visit g item)
  := by
  unfold visit
  split
  · apply goesOn_foldl_add
  · apply GoesOn.refl

/-- In a scan, an item adds what it calls for. -/
theorem items_visit (item : Item) (s : Scanned) :
  (s.visit g item).items = g.expandItem item s.items
  := by
  have hfold : ∀ (follow : Context) (rs : List Nat) (s : Scanned),
      (rs.foldl (fun s r => s.add ⟨⟨r, 0⟩, follow⟩) s).items
        = rs.foldl (fun is r => addItem ⟨⟨r, 0⟩, follow⟩ is) s.items := by
    intro follow rs s
    induction rs generalizing s with
    | nil => rfl
    | cons r rs ih => apply ih
  unfold visit Grammar.expandItem
  cases item.symbol? g with
  | none => rfl
  | some symbol =>
      cases symbol with
      | terminal t => rfl
      | nonterminal n => apply hfold

end Scanned

namespace Grammar

variable {g : Grammar} {items : List Item}

/-! ### Items at rest -/

/-- An item that has visited a list calls for no more if it adds nothing. -/
theorem expandItem_eq_of_forall {item : Item}
    (h : ∀ n, item.symbol? g = some (.nonterminal n) → ∀ r ∈ g.rulesFor n,
      addItem ⟨⟨r, 0⟩, item.followAt g⟩ items = items) :
  g.expandItem item items = items
  := by
  unfold expandItem
  split
  · next n hn =>
    apply List.foldlRecOn (motive := (· = items)) _ _ rfl
    intro is his r hr
    rw [his]
    apply h n hn r hr
  · rfl

/-- What an item has added without enlarging a context stays enough for it. -/
theorem expandItem_eq_of_visit {item : Item} {s : Scanned}
    (h : (s.visit g item).enlarged = false) (hp : (s.visit g item).items <+: items) :
  g.expandItem item items = items
  := by
  apply expandItem_eq_of_forall
  intro n hn r hr
  simp only [Scanned.visit, hn] at h hp
  apply prefix_addItem_eq (Scanned.addItem_foldl_add h hr) hp

end Grammar

namespace Scans

variable {g : Grammar} {i : Nat} {s s' : Scanned}

theorem goesOn (h : Scans g i s s') :
  s.GoesOn s'
  := by
  induction h with
  | stop => apply Scanned.GoesOn.refl
  | visit _ _ ih => exact (Scanned.goesOn_visit _ _).trans ih

/-- If a scan has enlarged no context, none of the items it came by calls for more. -/
theorem expandItem_eq (h : Scans g i s s') (he : s'.enlarged = false) {j : Nat} (hj : i ≤ j)
    {item : Item} (hitem : s'.items[j]? = some item) :
  g.expandItem item s'.items = s'.items
  := by
  induction h with
  | stop hnone =>
      have := (List.getElem?_eq_some_iff.mp hitem).1
      rw [List.getElem?_eq_none_iff] at hnone
      omega
  | @visit i item' s s' hi h ih =>
      rcases Nat.eq_or_lt_of_le hj with rfl | hj
      · obtain ⟨hv, hp⟩ := h.goesOn.prefix_of_not_enlarged he
        obtain ⟨-, hp'⟩ := (Scanned.goesOn_visit item' s).prefix_of_not_enlarged hv
        obtain ⟨hlt, rfl⟩ := List.getElem?_eq_some_iff.mp hi
        rw [List.prefix_iff_getElem?.mp (hp'.trans hp) i hlt, Option.some.injEq] at hitem
        subst hitem
        apply Grammar.expandItem_eq_of_visit hv hp
      · apply ih he hj hitem

/-- A pass is a scan if it comes by all of the items. -/
theorem exists_of_length_le {fuel : Nat}
    (h : (g.scanItems fuel i s.items).length ≤ i + fuel) :
  ∃ enlarged, Scans g i s ⟨g.scanItems fuel i s.items, enlarged⟩
  := by
  induction fuel generalizing i s with
  | zero => exact ⟨s.enlarged, .stop (List.getElem?_eq_none h)⟩
  | succ fuel ih =>
      rw [Grammar.scanItems] at h ⊢
      cases hi : s.items[i]? with
      | none => exact ⟨s.enlarged, .stop hi⟩
      | some item =>
          simp only [hi, ← Scanned.items_visit] at h ⊢
          have hrest : (g.scanItems fuel (i + 1) (s.visit g item).items).length ≤ i + 1 + fuel := by
            omega
          obtain ⟨enlarged, hscans⟩ := ih hrest
          exact ⟨enlarged, .visit hi hscans⟩

end Scans

namespace Grammar

variable {g : Grammar} {k items : List Item}

/-- Nothing is added in a pass if no item calls for more. -/
theorem closurePass_eq_of_forall (h : ∀ item ∈ items, g.expandItem item items = items) :
  g.closurePass items = items
  := scanItems_induction (P := (· = items)) (by
    rintro _ item hitem rfl
    apply h item hitem) _ _ rfl

/-- A pass over items without repeated cores is a scan. -/
theorem exists_scans (hg : g.ListsRules) (h : (coresOf items).Nodup) :
  ∃ enlarged, Scans g 0 ⟨items, false⟩ ⟨g.closurePass items, enlarged⟩
  := by
  apply Scans.exists_of_length_le (s := ⟨items, false⟩)
  rw [Nat.zero_add]
  apply (WithinClosure.start h).closurePass.length_le hg

/-- Scans come to an end where passes do. -/
theorem closes_closurePasses (hg : g.ListsRules) (n : Nat) (h : WithinClosure g k items)
    (hn : g.closureBound k ≤ weightOf items + n) :
  Closes g items (g.closurePasses n items)
  := by
  induction n generalizing items with
  | zero => exact absurd (h.weightOf_lt hg) (Nat.not_lt_of_le hn)
  | succ n ih =>
      obtain ⟨enlarged, hscans⟩ := exists_scans hg h.nodup
      have hpasses : g.closurePasses (n + 1) items = g.closurePasses n (g.closurePass items) := by
        rw [closurePasses_succ]
        split
        · next heq => rw [heq, passes_eq_of_rest (fun _ => rfl) closurePasses_succ heq]
        · rfl
      rw [hpasses]
      cases enlarged with
      | true =>
          have hw : weightOf items < weightOf (g.closurePass items) :=
            hscans.goesOn.weightOf_lt rfl rfl
          exact .again hscans (ih h.closurePass (by omega))
      | false =>
          have hrest : g.closurePass (g.closurePass items) = g.closurePass items := by
            apply closurePass_eq_of_forall
            intro item hitem
            obtain ⟨j, hj⟩ := List.mem_iff_getElem?.mp hitem
            apply hscans.expandItem_eq rfl (Nat.zero_le j) hj
          rw [passes_eq_of_rest (fun _ => rfl) closurePasses_succ hrest]
          exact .last hscans

/-! ### One step of the closure -/

section Step

variable (hg : g.ListsRules) (hk : (coresOf k).Nodup)

include hg hk

/-- The core is one of the items, or the head of its rule stands behind a dot of the closure. -/
theorem mem_coresOf_closure_iff {c : Core} :
  c ∈ coresOf (g.closure k)
    ↔ c ∈ coresOf k ∨ (c.dot = 0 ∧ ∃ j ∈ g.closure k, j.CallsFor g c.rule)
  := by
  constructor
  · intro h
    cases (mem_coresOf_closure hg hk).mp h with
    | item hi => exact Or.inl (mem_coresOf.mpr ⟨_, hi, rfl⟩)
    | rule hc hn hr =>
        obtain ⟨j, hj, rfl⟩ := mem_coresOf.mp ((mem_coresOf_closure hg hk).mpr hc)
        exact Or.inr ⟨rfl, j, hj, _, hn, hr⟩
  · rintro (h | ⟨hdot, j, hj, n, hn, hr⟩)
    · obtain ⟨i, hi, rfl⟩ := mem_coresOf.mp h
      apply (mem_coresOf_closure hg hk).mpr (.item hi)
    · obtain ⟨r, _⟩ := c
      obtain rfl : _ = 0 := hdot
      have hcall := (mem_coresOf_closure hg hk).mp (mem_coresOf.mpr ⟨j, hj, rfl⟩)
      apply (mem_coresOf_closure hg hk).mpr (.rule hcall hn hr)

/-- A core is granted what the items grant, and what can follow the head of its rule in an item of
the closure. -/
theorem grants_closure_iff {c : Core} {l : Lookahead} :
  Grants (g.closure k) c l
    ↔ Grants k c l
      ∨ (c.dot = 0 ∧ ∃ j ∈ g.closure k, j.CallsFor g c.rule ∧ l ∈ j.followAt g)
  := by
  constructor
  · intro h
    cases (grants_closure hg hk).mp h with
    | item hi hl => exact Or.inl ⟨_, hi, rfl, hl⟩
    | first hc hn hr hl =>
        obtain ⟨j, hj, rfl⟩ := mem_coresOf.mp ((mem_coresOf_closure hg hk).mpr hc)
        exact Or.inr ⟨rfl, j, hj, ⟨_, hn, hr⟩, mem_followAt.mpr (Or.inl hl)⟩
    | passed hc hn hr hl =>
        obtain ⟨j, hj, rfl, hl'⟩ := (grants_closure hg hk).mpr hc
        exact Or.inr ⟨rfl, j, hj, ⟨_, hn, hr⟩, mem_followAt.mpr (Or.inr ⟨_, hl', hl⟩)⟩
  · rintro (⟨i, hi, rfl, hl⟩ | ⟨hdot, j, hj, ⟨n, hn, hr⟩, hl⟩)
    · apply (grants_closure hg hk).mpr (.item hi hl)
    · obtain ⟨r, _⟩ := c
      obtain rfl : _ = 0 := hdot
      apply (grants_closure hg hk).mpr
      rcases mem_followAt.mp hl with hl | ⟨l', hl', hl⟩
      · have hcall := (mem_coresOf_closure hg hk).mp (mem_coresOf.mpr ⟨j, hj, rfl⟩)
        exact .first hcall hn hr hl
      · have hfollowed := (grants_closure hg hk).mp ⟨j, hj, rfl, hl'⟩
        exact .passed hfollowed hn hr hl

end Step

/-! ### Exactness -/

/-- The scans of a kernel end, and sorted, what they leave is the least closure: in strict order, it
has the cores that are called for, each with the lookaheads it can be followed by. A core is there
if it is of the kernel or its rule is called for by an item of the closure; a lookahead of a core is
of the kernel, or it can follow the head of the rule in such an item. -/
theorem closure_exact (hg : g.Assembled) (items : List Item) :
  (∃ items', Closes g (kernelOf items) items' ∧ g.closure (kernelOf items) = sortItems items')
  ∧ Ordered (g.closure (kernelOf items))
  ∧ (∀ c, (c ∈ coresOf (g.closure (kernelOf items)) ↔ CalledFor g (kernelOf items) c)
      ∧ (c ∈ coresOf (g.closure (kernelOf items))
        ↔ c ∈ coresOf (kernelOf items)
          ∨ (c.dot = 0 ∧ ∃ j ∈ g.closure (kernelOf items), j.CallsFor g c.rule)))
  ∧ ∀ i ∈ g.closure (kernelOf items), ∀ l,
      (l ∈ i.follow ↔ FollowedBy g (kernelOf items) i.core l)
      ∧ (l ∈ i.follow
        ↔ Grants (kernelOf items) i.core l
          ∨ (i.core.dot = 0 ∧ ∃ j ∈ g.closure (kernelOf items),
              j.CallsFor g i.core.rule ∧ l ∈ j.followAt g))
  := by
  have hlists := hg.listsRules
  have hk := (ordered_kernelOf items).nodup
  have hordered := ordered_closure (g := g) hk
  refine ⟨?_, hordered, ?_, ?_⟩
  · refine ⟨_, ?_, rfl⟩
    apply closes_closurePasses hlists _ (.start hk) (Nat.le_add_left _ _)
  · intro c
    exact ⟨mem_coresOf_closure hlists hk, mem_coresOf_closure_iff hlists hk⟩
  · intro i hi l
    use mem_follow_closure hlists hk hi
    rw [mem_follow_iff_grants hordered.nodup hi]
    apply grants_closure_iff hlists hk

/-- A grammar whose nonterminals call for each other in a circle: what stands behind the last of
them follows the first, and the others then, in a second scan. -/
def coiled : Grammar :=
  (((((((Grammar.empty.addNonterminal "A" none).addNonterminal "B" none).addNonterminal "C" none
    ).addRule .start [.nonterminal ⟨3⟩]
    ).addRule ⟨3⟩ [.nonterminal ⟨2⟩]
    ).addRule ⟨2⟩ [.nonterminal ⟨1⟩]
    ).addRule ⟨1⟩ [.nonterminal ⟨3⟩, .terminal "x"]
    ).addRule ⟨1⟩ [.terminal "a"]
    |>.computeFirst

/-- The scans come back to the items in front. -/
theorem closure_exact_coiled :
  coiled.Assembled
    ∧ (∃ items, Closes coiled (kernelOf [⟨⟨0, 0⟩, endContext⟩]) items
        ∧ coiled.closure (kernelOf [⟨⟨0, 0⟩, endContext⟩]) = sortItems items)
    ∧ FollowedBy coiled (kernelOf [⟨⟨0, 0⟩, endContext⟩]) ⟨2, 0⟩ (.terminal "x")
  := by
  have hg : coiled.Assembled := by
    apply Assembled.computeFirst
    iterate 5 apply Assembled.addRule
    iterate 3 apply Assembled.addNonterminal
    apply Assembled.empty
  obtain ⟨hcloses, -, -, hfollow⟩ := closure_exact hg [⟨⟨0, 0⟩, endContext⟩]
  have hitem : ∃ i ∈ coiled.closure (kernelOf [⟨⟨0, 0⟩, endContext⟩]),
      i.core = ⟨2, 0⟩ ∧ .terminal "x" ∈ i.follow := by
    decide +kernel
  obtain ⟨i, hi, hc, hl⟩ := hitem
  rw [← hc]
  exact ⟨hg, hcloses, (hfollow i hi _).1.mp hl⟩

end Grammar

end CaptureLR

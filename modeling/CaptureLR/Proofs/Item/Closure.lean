import CaptureLR.Item.Called
import CaptureLR.Proofs.Grammar.First
import CaptureLR.Proofs.Item.Listing

/-!
# Closures are least

The closure of items without repeated cores has the cores that are called for, in strict
order, and grants to each of them the lookaheads it can be followed by.
-/

namespace CaptureLR

/-- The number of items and of the elements of their contexts. -/
def weightOf (items : List Item) : Nat := (items.map (fun i => i.follow.size + 1)).sum

theorem growsTo_addItem (item : Item) (items : List Item) :
  GrowsTo weightOf items (addItem item items)
  := by
  induction items with
  | nil => exact Or.inr (by simp [addItem, weightOf])
  | cons i is ih =>
      unfold addItem
      by_cases h : i.core = item.core
      · rw [if_pos h]
        rcases OrderedSet.growsTo_union i.follow item.follow with hu | hu
        · exact Or.inl (by rw [hu])
        · exact Or.inr (by simpa [weightOf] using hu)
      · rw [if_neg h]
        rcases ih with ih | ih
        · exact Or.inl (by rw [ih])
        · exact Or.inr (by simpa [weightOf] using ih)

namespace Grammar

variable {g : Grammar} {k items : List Item}

/-! ### What one item calls for -/

/-- What can follow the symbol behind the dot is seen without anything behind the item, or
through one of its lookaheads. -/
theorem mem_followAt {i : Item} {l : Lookahead} :
  l ∈ i.followAt g ↔ l ∈ i.core.firstBehind g ∨ ∃ l' ∈ i.follow, l ∈ i.core.followAt g l'
  := by
  simp only [Core.firstBehind, Core.followAt, Item.followAt]
  rw [mem_firstOf_iff]
  constructor
  · rintro (h | ⟨hl, he⟩)
    · left
      apply h
    · right
      use l, hl
      apply mem_firstOf_iff.mpr
      exact Or.inr ⟨List.mem_singleton.mpr rfl, he⟩
  · rintro (h | ⟨l', hl', h⟩)
    · left
      apply h
    · rcases mem_firstOf_iff.mp h with h | ⟨h, he⟩
      · left
        apply h
      · obtain rfl : l = l' := List.mem_singleton.mp h
        exact Or.inr ⟨hl', he⟩

theorem growsTo_expandItem (item : Item) (items : List Item) :
  GrowsTo weightOf items (g.expandItem item items)
  := by
  unfold expandItem
  split
  · apply GrowsTo.foldl
    intro is r
    apply growsTo_addItem
  · apply GrowsTo.refl

/-- Expanding an item keeps what adding each of the items it calls for keeps. -/
theorem expandItem_induction {P : List Item → Prop} {item : Item}
    (hP : ∀ is n r, item.symbol? g = some (.nonterminal n) → r ∈ g.rulesFor n → P is →
      P (addItem ⟨⟨r, 0⟩, item.followAt g⟩ is))
    (h : P items) :
  P (g.expandItem item items)
  := by
  unfold expandItem
  split
  · next n hn =>
    apply List.foldlRecOn _ _ h
    intro is his r hr
    apply hP is n r hn hr his
  · apply h

/-! ### Passes -/

theorem growsTo_scanItems (fuel i : Nat) (items : List Item) :
  GrowsTo weightOf items (g.scanItems fuel i items)
  := by
  induction fuel generalizing i items with
  | zero => apply GrowsTo.refl
  | succ fuel ih =>
      unfold scanItems
      split
      · apply GrowsTo.refl
      · exact (growsTo_expandItem _ _).trans (ih _ _)

/-- A pass keeps what expanding each of the items keeps. -/
theorem scanItems_induction {P : List Item → Prop}
    (hP : ∀ is, ∀ item ∈ is, P is → P (g.expandItem item is)) (fuel i : Nat) (h : P items) :
  P (g.scanItems fuel i items)
  := by
  induction fuel generalizing i items with
  | zero => apply h
  | succ fuel ih =>
      unfold scanItems
      split
      · apply h
      · next item hi =>
        apply ih
        apply hP items item (List.mem_of_getElem? hi) h

/-- If the rest of a pass changes nothing, none of the items it visits calls for more. -/
theorem expandItem_eq_of_scanItems_eq {fuel i : Nat} (h : g.scanItems fuel i items = items)
    (hfuel : items.length ≤ i + fuel) {j : Nat} (hj : i ≤ j) {item : Item}
    (hitem : items[j]? = some item) :
  g.expandItem item items = items
  := by
  have hlt : j < items.length := (List.getElem?_eq_some_iff.mp hitem).1
  induction fuel generalizing i with
  | zero => omega
  | succ fuel ih =>
      have hi : i < items.length := by omega
      rw [scanItems, List.getElem?_eq_getElem hi] at h
      have he : g.expandItem items[i] items = items :=
        (growsTo_expandItem _ _).eq_of_return (growsTo_scanItems _ _ _) h
      rcases Nat.eq_or_lt_of_le hj with rfl | hj
      · rw [List.getElem?_eq_getElem hi, Option.some.injEq] at hitem
        rw [← hitem, he]
      · simp only [he] at h
        apply ih h (by omega) hj

/-! ### Items between a list and its closure -/

/-- The items have what a list has, and nothing that it does not call for. -/
structure WithinClosure (g : Grammar) (k items : List Item) : Prop where
  nodup : (coresOf items).Nodup
  cores : ∀ c ∈ coresOf k, c ∈ coresOf items
  grants : ∀ c l, Grants k c l → Grants items c l
  calledFor : ∀ c ∈ coresOf items, CalledFor g k c
  followedBy : ∀ c l, Grants items c l → FollowedBy g k c l

theorem WithinClosure.start (hk : (coresOf k).Nodup) :
  WithinClosure g k k
  where
  nodup := hk
  cores _ := id
  grants _ _ := id
  calledFor c hc := by
    obtain ⟨i, hi, rfl⟩ := mem_coresOf.mp hc
    exact .item hi
  followedBy c l h := by
    obtain ⟨i, hi, rfl, hl⟩ := h
    exact .item hi hl

/-- What follows the head of a rule in an item follows the rule. -/
theorem WithinClosure.followedBy_followAt (h : WithinClosure g k items) {i : Item}
    (hi : i ∈ items) {n : Nonterminal} {r : Nat} (hn : i.symbol? g = some (.nonterminal n))
    (hr : r ∈ g.rulesFor n) {l : Lookahead} (hl : l ∈ i.followAt g) :
  FollowedBy g k ⟨r, 0⟩ l
  := by
  rcases mem_followAt.mp hl with hl | ⟨l', hl', hl⟩
  · exact .first (h.calledFor _ (mem_coresOf.mpr ⟨i, hi, rfl⟩)) hn hr hl
  · exact .passed (h.followedBy _ _ ⟨i, hi, rfl, hl'⟩) hn hr hl

theorem WithinClosure.expandItem (h : WithinClosure g k items) {item : Item}
    (hitem : item ∈ items) :
  WithinClosure g k (g.expandItem item items)
  := by
  -- the item may be enlarged while it is expanded, but what it calls for is settled before
  have hcall : ∀ n r, item.symbol? g = some (.nonterminal n) → r ∈ g.rulesFor n →
      CalledFor g k ⟨r, 0⟩ ∧ ∀ l ∈ item.followAt g, FollowedBy g k ⟨r, 0⟩ l := by
    intro n r hn hr
    constructor
    · exact .rule (h.calledFor _ (mem_coresOf.mpr ⟨item, hitem, rfl⟩)) hn hr
    · intro l hl
      apply h.followedBy_followAt hitem hn hr hl
  apply expandItem_induction _ h
  intro is n r hn hr his
  obtain ⟨hc, hf⟩ := hcall n r hn hr
  refine ⟨nodup_coresOf_addItem his.nodup, ?_, ?_, ?_, ?_⟩
  · intro c hm
    apply mem_cores_addItem.mpr (Or.inl (his.cores c hm))
  · intro c l hm
    apply grants_addItem.mpr (Or.inl (his.grants c l hm))
  · intro c hm
    rcases mem_cores_addItem.mp hm with hm | rfl
    · apply his.calledFor c hm
    · apply hc
  · intro c l hm
    rcases grants_addItem.mp hm with hm | ⟨rfl, hl⟩
    · apply his.followedBy c l hm
    · apply hf l hl

theorem WithinClosure.closurePass (h : WithinClosure g k items) :
  WithinClosure g k (g.closurePass items)
  := scanItems_induction (fun _ _ hi h => h.expandItem hi) _ _ h

/-- What the cores called for can be is known beforehand. -/
theorem mem_cores_of_calledFor (hg : g.ListsRules) {c : Core} (h : CalledFor g k c) :
  c ∈ coresOf k ++ (List.range g.rules.size).map (fun r => ⟨r, 0⟩)
  := by
  cases h with
  | item hi => apply List.mem_append_left _ (mem_coresOf.mpr ⟨_, hi, rfl⟩)
  | rule _ _ hr =>
      apply List.mem_append_right
      apply List.mem_map.mpr ⟨_, List.mem_range.mpr (hg _ _ hr), rfl⟩

/-- What can stand first in a sequence is of the context behind it or mentioned by the grammar. -/
theorem mem_mentioned_of_mem_followAt {c : Core} {follow : Context} {l : Lookahead}
    (h : l ∈ Item.followAt g ⟨c, follow⟩) :
  l ∈ follow ∨ l ∈ g.mentioned
  := by
  rw [mem_mentioned]
  rcases mem_of_mem_firstOf h with h | ⟨t, ht, rfl⟩ | h
  · left
    apply h
  · right
    left
    have ht' : .terminal t ∈ g.expansion c.rule := List.mem_of_mem_drop ht
    rw [expansion] at ht'
    cases hr : g.rules[c.rule]? with
    | none =>
        rw [hr] at ht'
        cases ht'
    | some r =>
        rw [hr] at ht'
        exact ⟨r, Array.mem_toList_iff.mpr (Array.mem_of_getElem? hr), t, ht', rfl⟩
  · right
    right
    apply h

/-- The lookaheads in a closure are those of the items, and those that the grammar mentions. -/
theorem mem_mentioned_of_followedBy {c : Core} {l : Lookahead} (h : FollowedBy g k c l) :
  (∃ i ∈ k, l ∈ i.follow) ∨ l ∈ g.mentioned
  := by
  induction h with
  | item hi hl => exact Or.inl ⟨_, hi, hl⟩
  | first _ _ _ hl =>
      rcases mem_mentioned_of_mem_followAt hl with hl | hl
      · cases hl
      · right
        apply hl
  | passed _ _ _ hl ih =>
      rcases mem_mentioned_of_mem_followAt hl with hl | hl
      · obtain rfl := List.mem_singleton.mp hl
        apply ih
      · right
        apply hl

/-- Rules are added to a list of items once at most. -/
theorem WithinClosure.length_le (hg : g.ListsRules) (h : WithinClosure g k items) :
  items.length ≤ k.length + g.rules.size
  := by
  have hsub : ∀ c ∈ coresOf items, c ∈ coresOf k ++ (List.range g.rules.size).map (fun r => ⟨r, 0⟩) :=
    fun c hc => mem_cores_of_calledFor hg (h.calledFor c hc)
  simpa [coresOf] using (h.nodup.subperm hsub).length_le

theorem WithinClosure.weightOf_lt (hg : g.ListsRules) (h : WithinClosure g k items) :
  weightOf items < g.closureBound k
  := by
  let lookaheads := (k.map (fun i => i.follow.size)).sum + g.symbolCount + g.firstCount
  have hsize : ∀ i ∈ items, i.follow.size + 1 ≤ lookaheads + 1 := by
    intro i hi
    apply Nat.succ_le_succ
    have hsub : i.follow.size ≤ (k.flatMap (fun i => i.follow.toList) ++ g.mentioned).length := by
      apply OrderedSet.size_le_of_subset
      intro l hl
      rw [List.mem_append, List.mem_flatMap]
      apply mem_mentioned_of_followedBy (h.followedBy _ _ ⟨i, hi, rfl, hl⟩)
    have hm := g.length_mentioned_le
    rw [List.length_append, List.length_flatMap] at hsub
    apply hsub.trans
    change _ ≤ (k.map (fun i => i.follow.toList.length)).sum + g.symbolCount + g.firstCount
    omega
  calc
    weightOf items ≤ items.length * (lookaheads + 1) := sum_map_le hsize
    _ ≤ (k.length + g.rules.size) * (lookaheads + 1) :=
      Nat.mul_le_mul_right _ (h.length_le hg)
    _ < g.closureBound k := by
      rw [closureBound, foldr_add_eq_sum]
      apply Nat.lt_succ_self

/-! ### The closure -/

theorem closurePasses_succ (n : Nat) (items : List Item) :
  g.closurePasses (n + 1) items
    = if g.closurePass items = items then items else g.closurePasses n (g.closurePass items)
  := rfl

theorem withinClosure_closurePasses (hk : (coresOf k).Nodup) :
  WithinClosure g k (g.closurePasses (g.closureBound k) k)
  := passes_induction (fun _ => rfl) closurePasses_succ (P := WithinClosure g k)
      (fun _ => WithinClosure.closurePass) _ (.start hk)

/-- Nothing in the last pass calls for more. -/
theorem expandItem_closurePasses (hg : g.ListsRules) (hk : (coresOf k).Nodup) {item : Item}
    (hitem : item ∈ g.closurePasses (g.closureBound k) k) :
  g.expandItem item (g.closurePasses (g.closureBound k) k)
    = g.closurePasses (g.closureBound k) k
  := by
  have hrest := pass_passes_eq closurePasses_succ (fun _ => growsTo_scanItems _ _ _)
    (P := WithinClosure g k) (fun _ => WithinClosure.closurePass)
    (fun _ h => Nat.le_of_lt_succ (h.weightOf_lt hg)) (g.closureBound k) (.start hk)
    (Nat.lt_of_lt_of_le (Nat.lt_succ_self _) (Nat.le_add_left _ _))
  obtain ⟨j, hj⟩ := List.mem_iff_getElem?.mp hitem
  apply expandItem_eq_of_scanItems_eq hrest (by omega) (Nat.zero_le j) hj

/-- The items of the last pass have what an item of theirs calls for. -/
theorem closed_closurePasses (hg : g.ListsRules) (hk : (coresOf k).Nodup) {i : Item}
    (hi : i ∈ g.closurePasses (g.closureBound k) k) {n : Nonterminal} {r : Nat}
    (hn : i.symbol? g = some (.nonterminal n)) (hr : r ∈ g.rulesFor n) :
  ⟨r, 0⟩ ∈ coresOf (g.closurePasses (g.closureBound k) k)
    ∧ ∀ l ∈ i.followAt g, Grants (g.closurePasses (g.closureBound k) k) ⟨r, 0⟩ l
  := by
  have he := expandItem_closurePasses hg hk hi
  generalize g.closurePasses (g.closureBound k) k = items at he ⊢
  simp only [expandItem, hn] at he
  have ha : addItem ⟨⟨r, 0⟩, i.followAt g⟩ items = items :=
    GrowsTo.eq_of_foldl_eq (fun _ _ => growsTo_addItem _ _) he hr
  constructor
  · rw [← ha]
    apply mem_cores_addItem.mpr (Or.inr rfl)
  · intro l hl
    rw [← ha]
    apply grants_addItem.mpr (Or.inr ⟨rfl, hl⟩)

/-- The items of a closure are in strict order. -/
theorem ordered_closure (hk : (coresOf k).Nodup) :
  Ordered (g.closure k)
  := ordered_sortItems (withinClosure_closurePasses hk).nodup

/-- A closure has the cores that are called for. -/
theorem mem_coresOf_closure (hg : g.ListsRules) (hk : (coresOf k).Nodup) {c : Core} :
  c ∈ coresOf (g.closure k) ↔ CalledFor g k c
  := by
  have hw := withinClosure_closurePasses (g := g) hk
  rw [closure, mem_coresOf_sortItems]
  constructor
  · apply hw.calledFor c
  · intro h
    induction h with
    | item hi => apply hw.cores _ (mem_coresOf.mpr ⟨_, hi, rfl⟩)
    | rule _ hn hr ih =>
        obtain ⟨i, hi, rfl⟩ := mem_coresOf.mp ih
        exact (closed_closurePasses hg hk hi hn hr).1

/-- A closure grants what cores can be followed by. -/
theorem grants_closure (hg : g.ListsRules) (hk : (coresOf k).Nodup) {c : Core} {l : Lookahead} :
  Grants (g.closure k) c l ↔ FollowedBy g k c l
  := by
  have hw := withinClosure_closurePasses (g := g) hk
  rw [closure, grants_sortItems]
  constructor
  · apply hw.followedBy c l
  · intro h
    induction h with
    | item hi hl => apply hw.grants _ _ ⟨_, hi, rfl, hl⟩
    | @first c n r l hc hn hr hl =>
        have hc' := (mem_coresOf_closure hg hk).mpr hc
        rw [closure, mem_coresOf_sortItems] at hc'
        obtain ⟨i, hi, rfl⟩ := mem_coresOf.mp hc'
        exact (closed_closurePasses hg hk hi hn hr).2 l (mem_followAt.mpr (Or.inl hl))
    | passed _ hn hr hl ih =>
        obtain ⟨i, hi, rfl, hl'⟩ := ih
        exact (closed_closurePasses hg hk hi hn hr).2 _ (mem_followAt.mpr (Or.inr ⟨_, hl', hl⟩))

/-- Of an item of a closure, the context is what its core can be followed by. -/
theorem mem_follow_closure (hg : g.ListsRules) (hk : (coresOf k).Nodup) {i : Item}
    (hi : i ∈ g.closure k) {l : Lookahead} :
  l ∈ i.follow ↔ FollowedBy g k i.core l
  := (mem_follow_iff_grants (ordered_closure hk).nodup hi).trans (grants_closure hg hk)

end Grammar

end CaptureLR

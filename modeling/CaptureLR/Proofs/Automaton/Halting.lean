import CaptureLR.Proofs.Automaton.Construction
import Mathlib.Data.Finset.Powerset

/-!
# The construction halts

No state is created for a kernel that an earlier state widens, so there are no more states than
sets of cores and lookaheads of the grammar. Every step leaves fewer states to expand or to expand
again, and a state is expanded again only if a context grew. So the allowed number of steps is
enough.
-/

namespace CaptureLR

variable {g : Grammar} {startRule : Nat} {path : List Symbol} {c : Core} {l : Lookahead}

/-! ### What kernels are made of -/

namespace Grammar

/-- All places that a dot can have in the rules. -/
def allCores (g : Grammar) : List Core :=
  (List.range g.rules.size).flatMap
    (fun r => (List.range ((g.expansion r).length + 1)).map (fun d => ⟨r, d⟩))

theorem mem_allCores :
  c ∈ g.allCores ↔ c.rule < g.rules.size ∧ c.dot ≤ (g.expansion c.rule).length
  := by
  obtain ⟨r, d⟩ := c
  simp only [allCores, List.mem_flatMap, List.mem_map, List.mem_range, Core.mk.injEq]
  constructor
  · rintro ⟨r', hr, d', hd, rfl, rfl⟩
    exact ⟨hr, Nat.le_of_lt_succ hd⟩
  · rintro ⟨hr, hd⟩
    exact ⟨r, hr, d, Nat.lt_succ_of_le hd, rfl, rfl⟩

theorem length_allCores (g : Grammar) :
  g.allCores.length = g.coreCount
  := by
  rw [allCores, coreCount, foldr_add_eq_sum, List.length_flatMap]
  apply congrArg List.sum
  apply List.ext_getElem
  · simp
  · intro r hr hr'
    simp only [List.length_map, List.length_range] at hr hr'
    simp [expansion, Array.getElem?_eq_getElem hr]

theorem constructionBound_eq (g : Grammar) :
  g.constructionBound = 2 ^ (g.coreCount * (g.lookaheads.size + 1))
    * (g.coreCount * g.lookaheads.size + 1) + 1
  := rfl

end Grammar

/-- The cores of canonical states are places of dots. -/
theorem AtClosure.mem_allCores (hg : g.ListsRules) (hr : startRule < g.rules.size)
    (h : AtClosure g startRule path c) :
  c ∈ g.allCores
  := by
  obtain ⟨r, d⟩ := c
  apply Grammar.mem_allCores.mpr
  constructor
  · obtain ⟨front, -, hfront⟩ := h.exists_front
    cases hfront with
    | kernel hk =>
        cases hk with
        | start => apply hr
    | rule _ _ hr' => apply hg _ _ hr'
  · cases d with
    | zero => apply Nat.zero_le
    | succ d =>
        cases h with
        | kernel hk =>
            generalize hc : (⟨r, d + 1⟩ : Core) = c at hk
            cases hk with
            | start => cases hc
            | advance _ hs =>
                apply (List.getElem?_eq_some_iff.mp hs).1

/-- The lookaheads in canonical states are those of the grammar. -/
theorem Expects.mem_lookaheads (h : Expects g startRule path c l) :
  l ∈ g.lookaheads
  := by
  induction path using List.reverseRecOn generalizing c l with
  | nil =>
      obtain ⟨-, rfl⟩ := expects_nil.mp h
      apply Grammar.mem_lookaheads.mpr
      apply Or.inl rfl
  | append_singleton path s ih =>
      obtain ⟨d, hd, -, -⟩ := expects_concat.mp h
      apply ExpectsInside.closure_induction (P := fun _ l => l ∈ g.lookaheads) _ _ _ hd
      · intro c l hc
        apply ih hc
      · intro c n r l _ _ _ hl
        rcases Grammar.mem_mentioned_of_mem_followAt hl with hl | hl
        · cases hl
        · apply Grammar.mem_lookaheads.mpr
          apply Or.inr hl
      · intro c n r l l' _ ih _ _ hl
        rcases Grammar.mem_mentioned_of_mem_followAt hl with hl | hl
        · obtain rfl := List.mem_singleton.mp hl
          apply ih
        · apply Grammar.mem_lookaheads.mpr
          apply Or.inr hl

/-- The cores of a list of items, each by itself and with each lookahead granted to it. -/
def footprint (items : List Item) : Finset (Core × Option Lookahead) :=
  (items.flatMap (fun i => (i.core, none) :: i.follow.toList.map (fun l => (i.core, some l)))).toFinset

theorem mem_footprint_none {items : List Item} :
  (c, none) ∈ footprint items ↔ c ∈ coresOf items
  := by
  simp [footprint, coresOf, eq_comm]

theorem mem_footprint_some {items : List Item} :
  (c, some l) ∈ footprint items ↔ Grants items c l
  := by
  simp [footprint, Grants, and_comm, OrderedSet.mem_toList]

/-- Kernels are told apart by their footprints. -/
theorem widens_of_footprint_subset {k k' : List Item} (hk : Ordered k) (hk' : Ordered k')
    (hc : ∀ c ∈ coresOf k', c ∈ coresOf k) (h : footprint k ⊆ footprint k') :
  Widens k k'
  where
  cores := by
    apply hk'.coresOf_eq hk
    intro c
    constructor
    · apply hc
    · intro hmem
      apply mem_footprint_none.mp
      apply h (mem_footprint_none.mpr hmem)
  grants c l hl := by
    apply mem_footprint_some.mp
    apply h (mem_footprint_some.mpr hl)

/-- The number of elements of all contexts. -/
def contextCount (items : List Item) : Nat := (items.map (fun i => i.follow.size)).sum

theorem weightOf_eq (items : List Item) :
  weightOf items = contextCount items + items.length
  := by
  induction items with
  | nil => rfl
  | cons i is ih =>
      simp only [weightOf, contextCount, List.map_cons, List.sum_cons, List.length_cons] at *
      omega

namespace Grammar

/-- The footprint of all kernels together. -/
def wholeFootprint (g : Grammar) : Finset (Core × Option Lookahead) :=
  (g.allCores.flatMap
    (fun c => (c, none) :: g.lookaheads.toList.map (fun l => (c, some l)))).toFinset

theorem card_wholeFootprint_le (g : Grammar) :
  g.wholeFootprint.card ≤ g.coreCount * (g.lookaheads.size + 1)
  := by
  apply (List.toFinset_card_le _).trans
  rw [List.length_flatMap, ← length_allCores]
  apply sum_map_le
  intro c _
  simp [OrderedSet.size]

end Grammar

namespace IsKernel

variable {k : List Item}

theorem cores_subset (h : IsKernel g startRule k) (hg : g.ListsRules)
    (hr : startRule < g.rules.size) (hc : c ∈ coresOf k) :
  c ∈ g.allCores
  := by
  obtain ⟨paths, hp⟩ := h.composed
  obtain ⟨path, hpath⟩ := hp.nonempty
  apply AtClosure.mem_allCores hg hr
  apply AtClosure.kernel
  apply (hp.cores path hpath c).mpr hc

theorem grants_subset (h : IsKernel g startRule k) (hl : Grants k c l) :
  l ∈ g.lookaheads
  := by
  obtain ⟨paths, hp⟩ := h.composed
  obtain ⟨path, -, he⟩ := (hp.grants c l).mp hl
  apply he.mem_lookaheads

theorem footprint_subset (h : IsKernel g startRule k) (hg : g.ListsRules)
    (hr : startRule < g.rules.size) :
  footprint k ⊆ g.wholeFootprint
  := by
  rintro ⟨c, l⟩ hcl
  rw [Grammar.wholeFootprint, List.mem_toFinset, List.mem_flatMap]
  cases l with
  | none =>
      use c, h.cores_subset hg hr (mem_footprint_none.mp hcl)
      apply List.mem_cons_self
  | some l =>
      have hl := mem_footprint_some.mp hcl
      use c, h.cores_subset hg hr hl.mem_coresOf
      apply List.mem_cons_of_mem
      apply List.mem_map_of_mem (h.grants_subset hl)

/-- Every core has no more lookaheads than there are. -/
theorem contextCount_le (h : IsKernel g startRule k) (hg : g.ListsRules)
    (hr : startRule < g.rules.size) :
  contextCount k ≤ g.coreCount * g.lookaheads.size
  := by
  have hlength : (coresOf k).length ≤ g.allCores.length :=
    (h.ordered.nodup.subperm (fun _ hc => h.cores_subset hg hr hc)).length_le
  rw [Grammar.length_allCores, coresOf, List.length_map] at hlength
  have hsize : ∀ i ∈ k, i.follow.size ≤ g.lookaheads.size := by
    intro i hi
    apply OrderedSet.size_le_of_subset
    intro l hl
    apply h.grants_subset ⟨i, hi, rfl, hl⟩
  apply (sum_map_le hsize).trans
  apply Nat.mul_le_mul_right _ hlength

end IsKernel

namespace Builder

variable {b b' : Builder}

/-! ### How many states there can be -/

/-- There are no more states than footprints. -/
theorem Coherent.size_le (h : b.Coherent g startRule) (hg : g.ListsRules)
    (hr : startRule < g.rules.size) :
  b.states.size ≤ 2 ^ (g.coreCount * (g.lookaheads.size + 1))
  := by
  obtain ⟨ks, hlength, hpairs, hwidens⟩ := h.births
  -- the kernels that the states were created for are in order, and of different footprints
  have hborn : ∀ k ∈ ks, Ordered k ∧ footprint k ⊆ g.wholeFootprint := by
    intro k hk
    obtain ⟨i, hi, rfl⟩ := List.getElem_of_mem hk
    have hs := Array.getElem?_eq_getElem (hlength ▸ hi)
    obtain ⟨k, hk, ho, hw⟩ := hwidens i _ hs
    obtain rfl : ks[i] = k := by rwa [List.getElem?_eq_getElem hi, Option.some.injEq] at hk
    use ho
    apply Finset.Subset.trans _ ((h.isKernel i _ hs).footprint_subset hg hr)
    rintro ⟨c, l⟩ hcl
    cases l with
    | none =>
        apply mem_footprint_none.mpr
        rw [hw.cores]
        apply mem_footprint_none.mp hcl
    | some l =>
        apply mem_footprint_some.mpr
        apply hw.grants c l (mem_footprint_some.mp hcl)
  have hnodup : (ks.map footprint).Nodup := by
    rw [List.Nodup, List.pairwise_map]
    apply hpairs.imp_of_mem
    intro k k' hk hk' hne heq
    apply hne
    apply widens_of_footprint_subset (hborn k' hk').1 (hborn k hk).1
    · intro c hc
      apply mem_footprint_none.mp
      rw [← heq]
      apply mem_footprint_none.mpr hc
    · rw [heq]
  calc
    b.states.size = (ks.map footprint).toFinset.card := by
      rw [List.toFinset_card_of_nodup hnodup, List.length_map, hlength]
    _ ≤ g.wholeFootprint.powerset.card := by
      apply Finset.card_le_card
      intro f hf
      obtain ⟨k, hk, rfl⟩ := List.mem_map.mp (List.mem_toFinset.mp hf)
      apply Finset.mem_powerset.mpr (hborn k hk).2
    _ = 2 ^ g.wholeFootprint.card := Finset.card_powerset _
    _ ≤ 2 ^ (g.coreCount * (g.lookaheads.size + 1)) :=
      Nat.pow_le_pow_right Nat.two_pos g.card_wholeFootprint_le

/-- The number of elements of the contexts of all states. -/
def grownCount (b : Builder) : Nat := (b.states.toList.map (fun s => contextCount s.kernel)).sum

theorem Coherent.grownCount_le (h : b.Coherent g startRule) (hg : g.ListsRules)
    (hr : startRule < g.rules.size) :
  b.grownCount ≤ b.states.size * (g.coreCount * g.lookaheads.size)
  := by
  apply sum_map_le
  intro s hs
  obtain ⟨i, hi⟩ := List.mem_iff_getElem?.mp hs
  rw [Array.getElem?_toList] at hi
  apply (h.isKernel i s hi).contextCount_le hg hr

/-! ### What a step takes -/

/-- States became dirty no more often than a context grew. -/
structure Pays (b b' : Builder) : Prop where
  next : b'.next = b.next
  dirty : b'.dirty.length + b.grownCount ≤ b.dirty.length + b'.grownCount

theorem Pays.refl (b : Builder) :
  Pays b b
  := ⟨rfl, Nat.le_refl _⟩

theorem Pays.trans {b'' : Builder} (h : Pays b b') (h' : Pays b' b'') :
  Pays b b''
  where
  next := h'.next.trans h.next
  dirty := by
    have := h.dirty
    have := h'.dirty
    omega

/-- A merge that changes a kernel enlarges a context. -/
theorem contextCount_mergeFollows (k k' : List Item) :
  GrowsTo contextCount k (mergeFollows k k')
  := by
  rcases growsTo_mergeFollows k k' with h | h
  · apply Or.inl h
  · right
    have hlength : (mergeFollows k k').length = k.length := by
      simpa [coresOf] using congrArg List.length (cores_mergeFollows k k')
    rw [weightOf_eq, weightOf_eq] at h
    omega

theorem states_merge_eq {i : Nat} {s : State} (hs : b.states[i]? = some s) (k : List Item) :
  (b.merge i k).states
    = b.states.modify i (fun s => { s with kernel := mergeFollows s.kernel k })
  := by
  apply Array.ext_getElem?
  intro j
  rw [states_merge hs, Array.getElem?_modify]
  by_cases hij : i = j
  · subst hij
    rw [if_pos rfl, if_pos rfl, hs, Option.map_some]
  · rw [if_neg hij, if_neg hij]

theorem pays_merge (b : Builder) (i : Nat) (k : List Item) :
  Pays b (b.merge i k)
  := by
  use next_merge b i k
  cases hs : b.states[i]? with
  | none =>
      simp only [merge, hs]
      apply Nat.le_refl
  | some s =>
      have hstate : ∀ s : State, GrowsTo (fun s => contextCount s.kernel) s
          { s with kernel := mergeFollows s.kernel k } := by
        intro s
        rcases contextCount_mergeFollows s.kernel k with h | h
        · apply Or.inl
          simp only [h]
        · apply Or.inr h
      have hgrow := growsTo_modify hstate b.states.toList i
      rw [← Array.toList_modify, ← states_merge_eq hs] at hgrow
      have hle : b.grownCount ≤ (b.merge i k).grownCount := hgrow.weight_le
      have hdirty : (b.merge i k).dirty = b.dirty
          ∨ (mergeFollows s.kernel k ≠ s.kernel ∧ (b.merge i k).dirty = i :: b.dirty) := by
        simp only [merge, hs]
        split
        · next h =>
          simp only [Bool.and_eq_true, decide_eq_true_eq] at h
          exact Or.inr ⟨h.1.1, rfl⟩
        · apply Or.inl rfl
      rcases hdirty with hdirty | ⟨hne, hdirty⟩
      · rw [hdirty]
        omega
      · have hlt : b.grownCount < (b.merge i k).grownCount := by
          apply hgrow.resolve_left
          intro heq
          apply hne
          have hget := congrArg (·[i]?) heq
          simp only [Array.getElem?_toList, states_merge hs, if_pos, hs, Option.some.injEq] at hget
          apply congrArg State.kernel hget
        rw [hdirty, List.length_cons]
        omega

theorem pays_push (b : Builder) (startRule : Nat) (k : List Item) (lane : List Column) :
  Pays b (b.push startRule k lane)
  where
  next := rfl
  dirty := by
    simp only [grownCount, states_push, Array.toList_push, List.map_append, List.sum_append]
    change b.dirty.length + _ ≤ _
    omega

theorem pays_insert (b : Builder) (startRule : Nat) (k : List Item) (lane : List Column) :
  Pays b (b.insert startRule k lane).1
  := by
  simp only [insert]
  split
  · apply pays_merge
  · apply pays_push

theorem pays_alter (b : Builder) (i : Nat) (f : Actions → Actions) :
  Pays b (b.alter i f)
  where
  next := rfl
  dirty := by
    have hsame : ((b.alter i f).states.toList.map (fun s => contextCount s.kernel))
        = b.states.toList.map (fun s => contextCount s.kernel) := by
      apply List.ext_getElem?
      intro j
      simp only [alter, Array.toList_modify, List.getElem?_map, List.getElem?_modify]
      by_cases hij : i = j
      · subst hij
        cases b.states.toList[i]? <;> simp
      · simp [hij]
    simp only [grownCount, hsame]
    apply Nat.le_refl

theorem pays_expand {i : Nat} (h : b.expand g startRule i = .ok b') :
  Pays b b'
  := by
  apply expand_induction (P := Pays b) _ _ (.refl b) h
  · intro b' i f hb'
    apply hb'.trans (pays_alter b' i f)
  · intro b' k lane hb'
    apply hb'.trans (pays_insert b' startRule k lane)

/-- Taking the state that comes next makes no context grow, and it takes one from those to be
expanded. -/
theorem counts_pop {i : Nat} (h : b.pop = some (i, b')) :
  b'.grownCount = b.grownCount ∧ b'.next + b.dirty.length = b.next + b'.dirty.length + 1
  := by
  obtain ⟨dirty, hd, rfl⟩ | ⟨hd, -, -, rfl⟩ := pop_cases h
  · use rfl
    simp only [hd, List.length_cons]
    omega
  · use rfl
    simp only
    omega

/-! ### Runs halt -/

/-- A run is allowed enough steps if they are more than the states that can still be expanded and
the elements that contexts can still get. -/
theorem Invariant.run_halts (h : Invariant g startRule b) (hg : g.ListsRules)
    (hr : startRule < g.rules.size) (fuel : Nat)
    (hfuel : g.constructionBound + b.dirty.length ≤ fuel + b.next + b.grownCount) :
  ∀ b', b.run g startRule fuel ≠ .error (.exhausted b')
  := by
  induction fuel generalizing b with
  | zero =>
      have hsize := h.coherent.size_le hg hr
      have hcount := h.coherent.grownCount_le hg hr
      have hnext := h.coherent.next_le
      have hmul := Nat.mul_le_mul_right (g.coreCount * g.lookaheads.size) hsize
      rw [Grammar.constructionBound_eq] at hfuel
      simp only [Nat.mul_add, Nat.mul_one] at hfuel hsize hmul
      omega
  | succ fuel ih =>
      intro b'
      unfold Builder.run
      cases hp : b.pop with
      | none => simp
      | some p =>
          obtain ⟨i, b₁⟩ := p
          have hexpand := (h.chosen hg hp).expand hg
          simp only
          cases he : b₁.expand g startRule i with
          | error c => simp
          | ok b₂ =>
              rw [he] at hexpand
              obtain ⟨hnext, hdirty⟩ := pays_expand he
              obtain ⟨hcount, hpop⟩ := counts_pop hp
              apply ih hexpand
              omega

end Builder

end CaptureLR

import CaptureLR.Proofs.Item.Closure

/-!
# Lookaheads passed on, and advanced items

In a closure a lookahead comes from an item of the kernel or from what stands behind a dot,
and from there it is passed on from core to core wherever the symbols behind the dot can
vanish. To whom it is passed depends on the cores alone. Advancing the items of a closure over
a symbol gives the kernel that the symbol leads to.
-/

namespace CaptureLR

/-- The symbols behind the one behind the dot can vanish. -/
def Core.IsTransparent (g : Grammar) (c : Core) : Prop := .endOfInput ∈ c.followAt g .endOfInput

theorem Core.mem_followAt_iff {g : Grammar} {c : Core} {l l' : Lookahead} :
  l' ∈ c.followAt g l ↔ l' ∈ c.firstBehind g ∨ (l' = l ∧ c.IsTransparent g)
  := by
  have hl : l' ∈ OrderedSet.singleton l ↔ l' = l := List.mem_singleton
  rw [← hl]
  apply Grammar.mem_firstOf_iff

/-- A core passes its lookaheads on to the rules of the nonterminal behind its dot, if what
stands behind this can vanish, and so on from these. -/
inductive Passes (g : Grammar) : Core → Core → Prop
  | refl (c : Core) : Passes g c c
  | step {c d : Core} {n : Nonterminal} {r : Nat} (h : Passes g c d)
      (hn : d.symbol? g = some (.nonterminal n)) (ht : d.IsTransparent g) (hr : r ∈ g.rulesFor n) :
      Passes g c ⟨r, 0⟩

/-- A lookahead stands behind the dot of a core and is passed on to another core. -/
inductive Springs (g : Grammar) (l : Lookahead) : Core → Core → Prop
  | mk {c d : Core} {n : Nonterminal} {r : Nat} (hn : c.symbol? g = some (.nonterminal n))
      (hr : r ∈ g.rulesFor n) (hl : l ∈ c.firstBehind g) (h : Passes g ⟨r, 0⟩ d) :
      Springs g l c d

theorem Springs.step
    {g : Grammar} {l : Lookahead} {c d : Core} {n : Nonterminal} {r : Nat} (h : Springs g l c d)
    (hn : d.symbol? g = some (.nonterminal n)) (ht : d.IsTransparent g) (hr : r ∈ g.rulesFor n) :
  Springs g l c ⟨r, 0⟩
  := by
  obtain ⟨hn', hr', hl, hp⟩ := h
  apply Springs.mk hn' hr' hl (hp.step hn ht hr)

section Closure

variable {g : Grammar} {k : List Item}

/-- What a list of items grants follows in its closure. -/
theorem Grants.followedBy {c : Core} {l : Lookahead} (h : Grants k c l) :
  FollowedBy g k c l
  := by
  obtain ⟨i, hi, rfl, hl⟩ := h
  exact .item hi hl

theorem Passes.followedBy {c d : Core} {l : Lookahead} (h : Passes g c d)
    (hc : FollowedBy g k c l) :
  FollowedBy g k d l
  := by
  induction h with
  | refl => apply hc
  | step _ hn ht hr ih =>
      apply FollowedBy.passed ih hn hr
      apply Core.mem_followAt_iff.mpr
      exact Or.inr ⟨rfl, ht⟩

/-- A lookahead of a core in a closure is passed on from the kernel, or it springs from a core
of the closure. -/
theorem followedBy_iff {c : Core} {l : Lookahead} :
  FollowedBy g k c l
    ↔ (∃ d, Grants k d l ∧ Passes g d c) ∨ ∃ d, CalledFor g k d ∧ Springs g l d c
  := by
  constructor
  · intro h
    induction h with
    | item hi hl => exact Or.inl ⟨_, ⟨_, hi, rfl, hl⟩, .refl _⟩
    | first hc hn hr hl => exact Or.inr ⟨_, hc, .mk hn hr hl (.refl _)⟩
    | passed hc hn hr hl ih =>
        rcases Core.mem_followAt_iff.mp hl with hl | ⟨rfl, ht⟩
        · exact Or.inr ⟨_, hc.calledFor, .mk hn hr hl (.refl _)⟩
        · rcases ih with ⟨d, hd, hp⟩ | ⟨d, hd, hs⟩
          · exact Or.inl ⟨d, hd, hp.step hn ht hr⟩
          · exact Or.inr ⟨d, hd, hs.step hn ht hr⟩
  · rintro (⟨d, ⟨i, hi, rfl, hl⟩, hp⟩ | ⟨d, hd, hs⟩)
    · apply hp.followedBy (.item hi hl)
    · obtain ⟨hn, hr, hl, hp⟩ := hs
      apply hp.followedBy (.first hd hn hr hl)

/-- More items call for more. -/
theorem CalledFor.mono {k' : List Item} (hk : ∀ c ∈ coresOf k, c ∈ coresOf k') {c : Core}
    (h : CalledFor g k c) :
  CalledFor g k' c
  := by
  induction h with
  | item hi =>
      obtain ⟨j, hj, hc⟩ := mem_coresOf.mp (hk _ (mem_coresOf.mpr ⟨_, hi, rfl⟩))
      rw [← hc]
      apply CalledFor.item hj
  | rule _ hn hr ih => apply CalledFor.rule ih hn hr

/-- The cores of a closure are determined by those of the kernel. -/
theorem calledFor_congr {k' : List Item} (hk : coresOf k = coresOf k') {c : Core} :
  CalledFor g k c ↔ CalledFor g k' c
  := by
  constructor
  · apply CalledFor.mono
    simp [hk]
  · apply CalledFor.mono
    simp [hk]

/-- Items that grant more are followed by more. -/
theorem FollowedBy.mono {k' : List Item} (hc : ∀ c ∈ coresOf k, c ∈ coresOf k')
    (hl : ∀ c l, Grants k c l → Grants k' c l) {c : Core} {l : Lookahead}
    (h : FollowedBy g k c l) :
  FollowedBy g k' c l
  := by
  rw [followedBy_iff] at h ⊢
  rcases h with ⟨d, hd, hp⟩ | ⟨d, hd, hs⟩
  · exact Or.inl ⟨d, hl d l hd, hp⟩
  · exact Or.inr ⟨d, hd.mono hc, hs⟩

end Closure

/-! ### Advanced items -/

/-- The symbol behind a dot and what stands behind it. -/
theorem Core.drop_of_symbol {g : Grammar} {c : Core} {s : Symbol} (h : c.symbol? g = some s) :
  (g.expansion c.rule).drop c.dot = s :: (g.expansion c.rule).drop (c.dot + 1)
  := by
  obtain ⟨hlt, rfl⟩ := List.getElem?_eq_some_iff.mp h
  apply List.drop_eq_getElem_cons hlt

/-- The items with a symbol behind the dot, advanced over it. -/
def advancedOver (g : Grammar) (s : Symbol) (items : List Item) : List Item :=
  (items.filter (fun i => decide (i.symbol? g = some s))).map Item.advance

theorem Core.advance_injective :
  Function.Injective Core.advance
  := by
  rintro ⟨r, d⟩ ⟨r', d'⟩ h
  simpa [advance] using h

theorem mem_advancedOver {g : Grammar} {s : Symbol} {items : List Item} {i : Item} :
  i ∈ advancedOver g s items ↔ ∃ j ∈ items, j.core.symbol? g = some s ∧ i = j.advance
  := by
  rw [advancedOver, List.mem_map]
  apply exists_congr
  intro j
  rw [List.mem_filter, decide_eq_true_eq, and_assoc, @eq_comm _ _ i]
  apply Iff.rfl

theorem mem_coresOf_advancedOver {g : Grammar} {s : Symbol} {items : List Item} {c : Core} :
  c ∈ coresOf (advancedOver g s items)
    ↔ ∃ d ∈ coresOf items, d.symbol? g = some s ∧ c = d.advance
  := by
  rw [mem_coresOf]
  constructor
  · rintro ⟨i, hi, rfl⟩
    obtain ⟨j, hj, hs, rfl⟩ := mem_advancedOver.mp hi
    exact ⟨j.core, mem_coresOf.mpr ⟨j, hj, rfl⟩, hs, rfl⟩
  · rintro ⟨d, hd, hs, rfl⟩
    obtain ⟨j, hj, rfl⟩ := mem_coresOf.mp hd
    use j.advance, mem_advancedOver.mpr ⟨j, hj, hs, rfl⟩
    rfl

theorem grants_advancedOver {g : Grammar} {s : Symbol} {items : List Item} {c : Core}
    {l : Lookahead} :
  Grants (advancedOver g s items) c l
    ↔ ∃ d, Grants items d l ∧ d.symbol? g = some s ∧ c = d.advance
  := by
  constructor
  · rintro ⟨i, hi, rfl, hl⟩
    obtain ⟨j, hj, hs, rfl⟩ := mem_advancedOver.mp hi
    exact ⟨j.core, ⟨j, hj, rfl, hl⟩, hs, rfl⟩
  · rintro ⟨d, ⟨j, hj, rfl, hl⟩, hs, rfl⟩
    exact ⟨j.advance, mem_advancedOver.mpr ⟨j, hj, hs, rfl⟩, rfl, hl⟩

/-- The kernel that a symbol leads to from a kernel. -/
def successorKernel (g : Grammar) (k : List Item) (s : Symbol) : List Item :=
  kernelOf (advancedOver g s (g.closure k))

section Successor

variable {g : Grammar} {k : List Item}

theorem mem_coresOf_successorKernel (hg : g.ListsRules) (hk : (coresOf k).Nodup) {s : Symbol}
    {c : Core} :
  c ∈ coresOf (successorKernel g k s)
    ↔ ∃ d, CalledFor g k d ∧ d.symbol? g = some s ∧ c = d.advance
  := by
  simp only [successorKernel, mem_coresOf_kernelOf, mem_coresOf_advancedOver,
    Grammar.mem_coresOf_closure hg hk]

theorem grants_successorKernel (hg : g.ListsRules) (hk : (coresOf k).Nodup) {s : Symbol}
    {c : Core} {l : Lookahead} :
  Grants (successorKernel g k s) c l
    ↔ ∃ d, FollowedBy g k d l ∧ d.symbol? g = some s ∧ c = d.advance
  := by
  simp only [successorKernel, grants_kernelOf, grants_advancedOver, Grammar.grants_closure hg hk]

theorem ordered_successorKernel (g : Grammar) (k : List Item) (s : Symbol) :
  Ordered (successorKernel g k s)
  := ordered_kernelOf _

end Successor

end CaptureLR

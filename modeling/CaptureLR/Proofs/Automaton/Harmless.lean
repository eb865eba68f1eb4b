import CaptureLR.Proofs.Automaton.Halting
import CaptureLR.Report

/-!
# Merging makes no conflicts

A grammar without canonical conflicts has an automaton: whatever states are merged and expanded
again on the way, no step of the construction finds a conflict, and the construction halts. That
a grammar has no canonical conflicts can be checked by listing its canonical kernels.
-/

namespace CaptureLR

variable {g : Grammar} {startRule : Nat}

/-! ### Checking for canonical conflicts -/

namespace Grammar

/-- Whether no two of the items compete for a lookahead. -/
def apart (g : Grammar) (items : List Item) : Bool :=
  items.all (fun i => items.all (fun j =>
    match i.symbol? g, j.symbol? g with
    | none, none => decide (i.core.rule = j.core.rule) || !i.follow.meets j.follow
    | none, some (.terminal t) => decide (.terminal t ∉ i.follow)
    | _, _ => true))

/-- The kernels that the symbols behind the dots of a closure lead to. -/
def successorKernels (g : Grammar) (k : List Item) : List (List Item) :=
  ((g.closure k).filterMap (Item.symbol? g)).map (successorKernel g k)

/-- The kernels with those added that some more symbols lead to, no more of them at once than
allowed. -/
def exploreKernels (g : Grammar) : (depth : Nat) → List (List Item) → List (List Item)
  | 0, ks => ks
  | depth + 1, ks => g.exploreKernels depth
      (ks ++ ((ks.flatMap g.successorKernels).filter (fun k => decide (k ∉ ks))).eraseDups)

/-- Whether a list of kernels has the initial one and all that symbols lead to, and no closure has
items that compete. -/
def clearOn (g : Grammar) (startRule : Nat) (ks : List (List Item)) : Bool :=
  decide (kernelOf [⟨⟨startRule, 0⟩, endContext⟩] ∈ ks)
    && ks.all (fun k => g.apart (g.closure k) && decide (g.successorKernels k ⊆ ks))

/-- A canonical state has a kernel of the list, or no core at all. -/
theorem exists_kernel_of_clearOn (hg : g.ListsRules) {ks : List (List Item)}
    (h : g.clearOn startRule ks = true) (path : List Symbol) :
  (∃ k ∈ ks, Ordered k ∧ Composed g startRule {path} k)
    ∨ ∀ c, ¬ AtClosure g startRule path c
  := by
  simp only [clearOn, Bool.and_eq_true, decide_eq_true_eq, List.all_eq_true] at h
  obtain ⟨hinitial, hall⟩ := h
  induction path using List.reverseRecOn with
  | nil =>
      left
      exact ⟨_, hinitial, ordered_kernelOf _, Composed.initial g startRule⟩
  | append_singleton path s ih =>
      have hempty : (∀ c, ¬ AtKernel g startRule (path ++ [s]) c) →
          ∀ c, ¬ AtClosure g startRule (path ++ [s]) c := by
        intro hnone c hc
        apply hc.closure_induction
        · apply hnone
        · intro c n r hc _ _
          apply hc
      rcases ih with ⟨k, hk, ho, hp⟩ | hnone
      · by_cases hs : ∃ c, AtClosure g startRule path c ∧ c.symbol? g = some s
        · left
          obtain ⟨c, hc, hs⟩ := hs
          use successorKernel g k s
          refine ⟨?_, ordered_successorKernel g k s, ?_⟩
          · apply (hall k hk).2
            rw [successorKernels]
            apply List.mem_map_of_mem
            rw [← hp.calledFor_iff rfl, ← mem_coresOf_closure hg ho.nodup, mem_coresOf] at hc
            obtain ⟨i, hi, rfl⟩ := hc
            apply List.mem_filterMap.mpr
            exact ⟨i, hi, hs⟩
          · have := hp.successor hg ho s
            rwa [Set.image_singleton] at this
        · right
          apply hempty
          intro c hc
          obtain ⟨d, hd, hds, -⟩ := atKernel_concat.mp hc
          apply hs ⟨d, hd, hds⟩
      · right
        apply hempty
        intro c hc
        obtain ⟨d, hd, -⟩ := atKernel_concat.mp hc
        apply hnone d hd

/-- The check finds all canonical conflicts. -/
theorem isCanonicallyClear_of_clearOn (hg : g.ListsRules) (ks : List (List Item))
    (h : g.clearOn startRule ks = true) :
  g.IsCanonicallyClear startRule
  := by
  intro path hclash
  rcases exists_kernel_of_clearOn hg h path with ⟨k, hk, ho, hp⟩ | hnone
  · simp only [clearOn, Bool.and_eq_true, decide_eq_true_eq, List.all_eq_true] at h
    have happart := (h.2 k hk).1
    simp only [apart, List.all_eq_true] at happart
    have hgrants : ∀ {c l}, ExpectsInside g startRule path c l →
        ∃ i ∈ g.closure k, i.core = c ∧ l ∈ i.follow := by
      intro c l hc
      apply (grants_closure hg ho.nodup).mpr
      apply hp.followedBy_iff.mpr
      exact ⟨path, rfl, hc⟩
    cases hclash with
    | reductions hc hd hcs hds hne =>
        obtain ⟨i, hi, rfl, hli⟩ := hgrants hc
        obtain ⟨j, hj, rfl, hlj⟩ := hgrants hd
        have := happart i hi j hj
        simp only [Item.symbol?, hcs, hds, Bool.or_eq_true, decide_eq_true_eq, hne, false_or,
          Bool.not_eq_true'] at this
        rw [Bool.eq_false_iff] at this
        apply this
        apply OrderedSet.meets_iff.mpr
        exact ⟨_, hli, hlj⟩
    | shift hc hd hcs hds =>
        obtain ⟨i, hi, rfl, hli⟩ := hgrants hc
        rw [← hp.calledFor_iff rfl, ← mem_coresOf_closure hg ho.nodup, mem_coresOf] at hd
        obtain ⟨j, hj, rfl⟩ := hd
        have := happart i hi j hj
        simp only [Item.symbol?, hcs, hds, decide_eq_true_eq] at this
        apply this hli
  · cases hclash with
    | reductions hc => apply hnone _ hc.atClosure
    | shift hc => apply hnone _ hc.atClosure

end Grammar

/-! ### Automata of grammars without conflicts -/

/-- The builders that a construction comes by keep the invariant. -/
theorem Builder.Reached.invariant {b : Builder} (h : Builder.Reached g startRule b)
    (hg : g.ListsRules) :
  b.Invariant g startRule
  := by
  induction h with
  | initial => apply invariant_initial
  | step _ hp he ih =>
      have hexpand := (ih.chosen hg hp).expand hg
      rw [he] at hexpand
      apply hexpand

/-- If no canonical state has a conflict, no state that is made, merged or expanded again on the
way has one, and an automaton is built. -/
theorem Automaton.build_ok_of_clear (hg : g.Assembled) (hr : startRule < g.rules.size)
    (hclear : g.IsCanonicallyClear startRule) :
  (∃ a, Automaton.build g startRule = .ok a)
    ∧ ∀ b b' i, Builder.Reached g startRule b → b.pop = some (i, b') →
        ∃ b'', b'.expand g startRule i = .ok b''
  := by
  have hlists := hg.listsRules
  have hno : ¬ ∃ path, g.Clashes startRule path := by
    rintro ⟨path, h⟩
    apply hclear path h
  constructor
  · have hinitial := Builder.invariant_initial g startRule
    have hrun := hinitial.run hlists g.constructionBound
    have hhalts := hinitial.run_halts hlists hr g.constructionBound (Nat.add_assoc _ _ _ ▸ by
      change _ + 0 ≤ _
      omega)
    unfold Automaton.build Automaton.construct
    simp only
    cases hb : Builder.run g startRule g.constructionBound
        (Builder.empty.insert startRule (kernelOf [⟨⟨startRule, 0⟩, endContext⟩]) []).1 with
    | ok b => exact ⟨_, rfl⟩
    | error halt =>
        cases halt with
        | conflict c b =>
            rw [hb] at hrun
            exact absurd hrun hno
        | exhausted b => exact absurd hb (hhalts b)
  · intro b b' i hb hp
    have hexpand := ((hb.invariant hlists).chosen hlists hp).expand hlists
    cases he : b'.expand g startRule i with
    | ok b'' => exact ⟨b'', rfl⟩
    | error c =>
        rw [he] at hexpand
        exact absurd hexpand hno

/-- A grammar whose canonical kernels must not all be merged: `e` is reduced to one of two
nonterminals, to which of them depends on the first and the last terminal together. -/
def Grammar.crossed : Grammar :=
  let s : Nonterminal := ⟨1⟩
  let e : Nonterminal := ⟨2⟩
  let f : Nonterminal := ⟨3⟩
  (((((((((Grammar.empty.addNonterminal "S" none).addNonterminal "E" none).addNonterminal "F" none
    ).addRule .start [.nonterminal s]
    ).addRule s [.terminal "a", .nonterminal e, .terminal "c"]
    ).addRule s [.terminal "a", .nonterminal f, .terminal "d"]
    ).addRule s [.terminal "b", .nonterminal f, .terminal "c"]
    ).addRule s [.terminal "b", .nonterminal e, .terminal "d"]
    ).addRule e [.terminal "e"]
    ).addRule f [.terminal "e"]
    |>.computeFirst

theorem Grammar.assembled_crossed :
  Grammar.crossed.Assembled
  := by
  apply Assembled.computeFirst
  iterate 7 apply Assembled.addRule
  iterate 3 apply Assembled.addNonterminal
  apply Assembled.empty

/-- The grammar whose states must be kept apart has an automaton. -/
theorem Automaton.build_ok_crossed :
  Grammar.crossed.Assembled ∧ 0 < Grammar.crossed.rules.size
    ∧ Grammar.crossed.IsCanonicallyClear 0
    ∧ (∃ a, Automaton.build Grammar.crossed 0 = .ok a)
    ∧ ∀ b b' i, Builder.Reached Grammar.crossed 0 b → b.pop = some (i, b') →
        ∃ b'', b'.expand Grammar.crossed 0 i = .ok b''
  := by
  have hg := Grammar.assembled_crossed
  have hr : 0 < Grammar.crossed.rules.size := by decide +kernel
  have hclear : Grammar.crossed.IsCanonicallyClear 0 := by
    apply Grammar.isCanonicallyClear_of_clearOn hg.listsRules
      (Grammar.crossed.exploreKernels 5 [kernelOf [⟨⟨0, 0⟩, endContext⟩]])
    decide +kernel
  exact ⟨hg, hr, hclear, Automaton.build_ok_of_clear hg hr hclear⟩

end CaptureLR

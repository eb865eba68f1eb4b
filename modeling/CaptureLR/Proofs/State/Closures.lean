import CaptureLR.Proofs.Item.Advance
import CaptureLR.Proofs.State.Merging

/-!
# Closures of merged kernels

What is called for depends on the cores of a kernel alone, and each lookahead is passed on by
itself, whatever else is in a context. So the closure of merged kernels is the merge of their
closures.
-/

namespace CaptureLR

variable {g : Grammar} {a b : List Item}

/-- A merged kernel calls for what the first kernel calls for. -/
theorem calledFor_mergeFollows {c : Core} :
  CalledFor g (mergeFollows a b) c ↔ CalledFor g a c
  := calledFor_congr (cores_mergeFollows a b)

/-- A core can be followed by what it can be followed by in one of the two kernels: a lookahead
that is passed on comes from one of them, and one that springs from a core is in both. -/
theorem followedBy_mergeFollows (h : coresOf a = coresOf b) {c : Core} {l : Lookahead} :
  FollowedBy g (mergeFollows a b) c l ↔ FollowedBy g a c l ∨ FollowedBy g b c l
  := by
  constructor
  · intro hf
    rcases followedBy_iff.mp hf with ⟨d, hd, hp⟩ | ⟨d, hd, hs⟩
    · rcases (grants_mergeFollows h).mp hd with hd | hd
      · exact Or.inl (hp.followedBy hd.followedBy)
      · exact Or.inr (hp.followedBy hd.followedBy)
    · left
      apply followedBy_iff.mpr
      exact Or.inr ⟨d, calledFor_mergeFollows.mp hd, hs⟩
  · rintro (hf | hf)
    · apply hf.mono
      · simp [cores_mergeFollows]
      · apply (widens_mergeFollows h).grants
    · apply hf.mono
      · simp [cores_mergeFollows, h]
      · apply (widens_mergeFollows_right h).grants

namespace Grammar

/-- The cores of a closure are determined by those of the kernel, and so is their order. -/
theorem coresOf_closure_congr (hg : g.ListsRules) (ha : (coresOf a).Nodup)
    (h : coresOf a = coresOf b) :
  coresOf (g.closure a) = coresOf (g.closure b)
  := by
  have hb : (coresOf b).Nodup := h ▸ ha
  apply (ordered_closure ha).coresOf_eq (ordered_closure hb)
  intro c
  rw [mem_coresOf_closure hg ha, mem_coresOf_closure hg hb]
  apply calledFor_congr h

/-- The closure of merged kernels has the cores of both closures, in the same order, and each of
its items has the lookaheads of the items with its core in the two closures. -/
theorem closure_mergeFollows (hg : g.Assembled) {as bs : List Item}
    (h : coresOf (kernelOf as) = coresOf (kernelOf bs)) :
  coresOf (g.closure (mergeFollows (kernelOf as) (kernelOf bs))) = coresOf (g.closure (kernelOf as))
    ∧ coresOf (g.closure (mergeFollows (kernelOf as) (kernelOf bs)))
      = coresOf (g.closure (kernelOf bs))
    ∧ ∀ m ∈ g.closure (mergeFollows (kernelOf as) (kernelOf bs)),
        ∀ i ∈ g.closure (kernelOf as), ∀ j ∈ g.closure (kernelOf bs),
          i.core = m.core → j.core = m.core → ∀ l, l ∈ m.follow ↔ l ∈ i.follow ∨ l ∈ j.follow
  := by
  have hlists := hg.listsRules
  have ha := (ordered_kernelOf as).nodup
  have hb := (ordered_kernelOf bs).nodup
  have hm := ((ordered_kernelOf as).mergeFollows (kernelOf bs)).nodup
  have hcores := cores_mergeFollows (kernelOf as) (kernelOf bs)
  refine ⟨coresOf_closure_congr hlists hm hcores, ?_, ?_⟩
  · apply coresOf_closure_congr hlists hm (hcores.trans h)
  · intro m hmem i hi j hj hic hjc l
    rw [mem_follow_closure hlists hm hmem, mem_follow_closure hlists ha hi,
      mem_follow_closure hlists hb hj, hic, hjc]
    apply followedBy_mergeFollows h

/-- A grammar in which what follows the start symbol is seen through a nonterminal that can
vanish. -/
def vanishing : Grammar :=
  (((((Grammar.empty.addNonterminal "A" none).addNonterminal "N" none
    ).addRule .start [.nonterminal ⟨1⟩, .nonterminal ⟨2⟩]
    ).addRule ⟨1⟩ [.terminal "a"]
    ).addRule ⟨2⟩ [.terminal "n"]
    ).addRule ⟨2⟩ []
    |>.computeFirst

/-- The start rule with the dot in front, followed by a terminal. -/
def startItems (t : Terminal) : List Item := [⟨⟨0, 0⟩, .singleton (.terminal t)⟩]

/-- What follows the merged start rules is passed on to the rule in front. -/
theorem closure_mergeFollows_vanishing :
  vanishing.Assembled
    ∧ coresOf (kernelOf (startItems "p")) = coresOf (kernelOf (startItems "q"))
    ∧ ∃ m ∈ vanishing.closure
          (mergeFollows (kernelOf (startItems "p")) (kernelOf (startItems "q"))),
        m.core = ⟨1, 0⟩ ∧ .terminal "n" ∈ m.follow ∧ .terminal "p" ∈ m.follow
          ∧ .terminal "q" ∈ m.follow
  := by
  have hg : vanishing.Assembled := by
    apply Assembled.computeFirst
    iterate 4 apply Assembled.addRule
    iterate 2 apply Assembled.addNonterminal
    apply Assembled.empty
  have hcores : coresOf (kernelOf (startItems "p")) = coresOf (kernelOf (startItems "q")) := by
    decide
  obtain ⟨-, hright, hunion⟩ := closure_mergeFollows hg hcores
  have hfirst : ∃ i ∈ vanishing.closure (kernelOf (startItems "p")),
      i.core = ⟨1, 0⟩ ∧ .terminal "n" ∈ i.follow ∧ .terminal "p" ∈ i.follow := by
    decide +kernel
  have hsecond : ∃ j ∈ vanishing.closure (kernelOf (startItems "q")),
      j.core = ⟨1, 0⟩ ∧ .terminal "q" ∈ j.follow := by
    decide +kernel
  obtain ⟨i, hi, hic, hn, hp⟩ := hfirst
  obtain ⟨j, hj, hjc, hq⟩ := hsecond
  have hcore : ⟨1, 0⟩ ∈ coresOf (vanishing.closure (kernelOf (startItems "q"))) :=
    mem_coresOf.mpr ⟨j, hj, hjc⟩
  rw [← hright] at hcore
  obtain ⟨m, hm, hmc⟩ := mem_coresOf.mp hcore
  have hfollow := hunion m hm i hi j hj (hic.trans hmc.symm) (hjc.trans hmc.symm)
  refine ⟨hg, hcores, m, hm, hmc, ?_, ?_, ?_⟩
  · apply (hfollow _).mpr (Or.inl hn)
  · apply (hfollow _).mpr (Or.inl hp)
  · apply (hfollow _).mpr (Or.inr hq)

end Grammar

end CaptureLR

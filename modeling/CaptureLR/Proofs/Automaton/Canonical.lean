import CaptureLR.Automaton.Canonical
import CaptureLR.Proofs.State.Merging
import CaptureLR.Proofs.Item.Advance
import Mathlib.Data.Set.Basic

/-!
# Kernels composed of canonical kernels

Pager's invariant. A kernel is composed of the kernels of some canonical states if it has their
cores, unites their lookaheads, and lets two cores share a lookahead only if they share one in
one of the canonical states already. Closures inherit this, so a conflict in the closure of a
composed kernel is a conflict of a canonical state. Weakly compatible merges and advancing over
a symbol keep kernels composed.
-/

namespace CaptureLR

variable {g : Grammar} {startRule : Nat} {path : List Symbol} {c d : Core} {s : Symbol}
  {l : Lookahead}

/-! ### The rules of canonical states read backwards -/

theorem atKernel_nil :
  AtKernel g startRule [] c ↔ c = ⟨startRule, 0⟩
  := by
  constructor
  · intro h
    generalize hp : ([] : List Symbol) = path at h
    cases h with
    | start => rfl
    | advance => simp at hp
  · rintro rfl
    exact .start

theorem atKernel_concat :
  AtKernel g startRule (path ++ [s]) c
    ↔ ∃ d, AtClosure g startRule path d ∧ d.symbol? g = some s ∧ c = d.advance
  := by
  constructor
  · intro h
    generalize hp : path ++ [s] = path' at h
    cases h with
    | start => simp at hp
    | advance hc hs =>
        obtain ⟨rfl, h⟩ := List.append_inj' hp rfl
        obtain rfl : s = _ := List.singleton_inj.mp h
        exact ⟨_, hc, hs, rfl⟩
  · rintro ⟨d, hd, hs, rfl⟩
    exact .advance hd hs

theorem expects_nil :
  Expects g startRule [] c l ↔ c = ⟨startRule, 0⟩ ∧ l = .endOfInput
  := by
  constructor
  · intro h
    generalize hp : ([] : List Symbol) = path at h
    cases h with
    | start => exact ⟨rfl, rfl⟩
    | advance => simp at hp
  · rintro ⟨rfl, rfl⟩
    exact .start

theorem expects_concat :
  Expects g startRule (path ++ [s]) c l
    ↔ ∃ d, ExpectsInside g startRule path d l ∧ d.symbol? g = some s ∧ c = d.advance
  := by
  constructor
  · intro h
    generalize hp : path ++ [s] = path' at h
    cases h with
    | start => simp at hp
    | advance hc hs =>
        obtain ⟨rfl, h⟩ := List.append_inj' hp rfl
        obtain rfl : s = _ := List.singleton_inj.mp h
        exact ⟨_, hc, hs, rfl⟩
  · rintro ⟨d, hd, hs, rfl⟩
    exact .advance hd hs

/-- What holds in a canonical kernel and is passed on by rules holds in the closure. -/
theorem AtClosure.closure_induction {P : Core → Prop} (hk : ∀ c, AtKernel g startRule path c → P c)
    (hrule : ∀ c n r, P c → c.symbol? g = some (.nonterminal n) → r ∈ g.rulesFor n → P ⟨r, 0⟩) :
    ∀ {c : Core}, AtClosure g startRule path c → P c
  | _, .kernel hc => hk _ hc
  | _, .rule hc hn hr => hrule _ _ _ (closure_induction hk hrule hc) hn hr

/-- The closure of a canonical state has the cores that a kernel of the same cores calls for. -/
theorem atClosure_iff {k : List Item} (hk : ∀ c, AtKernel g startRule path c ↔ c ∈ coresOf k) :
  AtClosure g startRule path c ↔ CalledFor g k c
  := by
  constructor
  · apply AtClosure.closure_induction
    · intro c hc
      obtain ⟨i, hi, rfl⟩ := mem_coresOf.mp ((hk c).mp hc)
      exact .item hi
    · intro c n r hc hn hr
      exact .rule hc hn hr
  · intro h
    induction h with
    | item hi => exact .kernel ((hk _).mpr (mem_coresOf.mpr ⟨_, hi, rfl⟩))
    | rule _ hn hr ih => exact .rule ih hn hr

/-- The canonical state behind one more symbol has the cores of the kernel that the symbol leads to
from a kernel with the cores of the canonical state before it. -/
theorem atKernel_concat_iff (hg : g.ListsRules) {k : List Item} (hn : (coresOf k).Nodup)
    (hk : ∀ c, AtKernel g startRule path c ↔ c ∈ coresOf k) :
  AtKernel g startRule (path ++ [s]) c ↔ c ∈ coresOf (successorKernel g k s)
  := by
  rw [atKernel_concat, mem_coresOf_successorKernel hg hn]
  apply exists_congr
  intro d
  rw [atClosure_iff hk]

mutual

/-- A core of a canonical kernel that expects something is one of its cores. -/
theorem Expects.atKernel : ∀ {path : List Symbol} {c : Core} {l : Lookahead},
    Expects g startRule path c l → AtKernel g startRule path c
  | _, _, _, .start => .start
  | _, _, _, .advance hc hs => .advance hc.atClosure hs

/-- A core of the closure of a canonical state that expects something is one of its cores. -/
theorem ExpectsInside.atClosure : ∀ {path : List Symbol} {c : Core} {l : Lookahead},
    ExpectsInside g startRule path c l → AtClosure g startRule path c
  | _, _, _, .kernel hc => .kernel hc.atKernel
  | _, _, _, .first hc hn hr _ => .rule hc hn hr
  | _, _, _, .passed hc hn hr _ => .rule hc.atClosure hn hr

end

/-- What is granted in a canonical kernel, stands behind a dot or is passed on by rules is granted
in the closure. -/
theorem ExpectsInside.closure_induction {P : Core → Lookahead → Prop}
    (hk : ∀ c l, Expects g startRule path c l → P c l)
    (hfirst : ∀ c n r l, AtClosure g startRule path c → c.symbol? g = some (.nonterminal n) →
      r ∈ g.rulesFor n → l ∈ c.firstBehind g → P ⟨r, 0⟩ l)
    (hpassed : ∀ c n r l l', ExpectsInside g startRule path c l → P c l →
      c.symbol? g = some (.nonterminal n) → r ∈ g.rulesFor n → l' ∈ c.followAt g l → P ⟨r, 0⟩ l') :
    ∀ {c : Core} {l : Lookahead}, ExpectsInside g startRule path c l → P c l
  | _, _, .kernel hc => hk _ _ hc
  | _, _, .first hc hn hr hl => hfirst _ _ _ _ hc hn hr hl
  | _, _, .passed hc hn hr hl =>
      hpassed _ _ _ _ _ hc (closure_induction hk hfirst hpassed hc) hn hr hl

/-- A lookahead in the closure of a canonical state is passed on from the kernel, or it springs
from a core of the closure. -/
theorem expectsInside_iff :
  ExpectsInside g startRule path c l
    ↔ (∃ d, Expects g startRule path d l ∧ Passes g d c)
      ∨ ∃ d, AtClosure g startRule path d ∧ Springs g l d c
  := by
  constructor
  · apply ExpectsInside.closure_induction
    · intro c l hc
      exact Or.inl ⟨c, hc, .refl c⟩
    · intro c n r l hc hn hr hl
      exact Or.inr ⟨c, hc, .mk hn hr hl (.refl _)⟩
    · intro c n r l l' hc ih hn hr hl
      rcases Core.mem_followAt_iff.mp hl with hl | ⟨rfl, ht⟩
      · exact Or.inr ⟨c, hc.atClosure, .mk hn hr hl (.refl _)⟩
      · rcases ih with ⟨d, hd, hp⟩ | ⟨d, hd, hs⟩
        · exact Or.inl ⟨d, hd, hp.step hn ht hr⟩
        · exact Or.inr ⟨d, hd, hs.step hn ht hr⟩
  · have hpass : ∀ {d : Core}, ExpectsInside g startRule path d l → Passes g d c →
        ExpectsInside g startRule path c l := by
      intro d hd hp
      induction hp with
      | refl => apply hd
      | step _ hn ht hr ih =>
          exact .passed ih hn hr (Core.mem_followAt_iff.mpr (Or.inr ⟨rfl, ht⟩))
    rintro (⟨d, hd, hp⟩ | ⟨d, hd, hn, hr, hl, hp⟩)
    · apply hpass (.kernel hd) hp
    · apply hpass (.first hd hn hr hl) hp

/-! ### The way to a core -/

/-- A core with its dot in front in a canonical kernel is that of the start rule before all
symbols. -/
theorem AtKernel.eq_nil_of_dot {r : Nat} (h : AtKernel g startRule path ⟨r, 0⟩) :
  path = []
  := by
  cases h with
  | start => rfl

/-- What holds at a core behind a symbol held at the core before the symbol, one step back on the
way. Then the symbols before the dot are the last ones on the way, and before them it held with the
dot in front. -/
theorem exists_front_of_back {P : List Symbol → Core → Prop}
    (hback : ∀ path r d, P path ⟨r, d + 1⟩ →
      ∃ front s, path = front ++ [s] ∧ (⟨r, d⟩ : Core).symbol? g = some s ∧ P front ⟨r, d⟩)
    {r d : Nat} (h : P path ⟨r, d⟩) :
  ∃ front, path = front ++ (g.expansion r).take d ∧ P front ⟨r, 0⟩
  := by
  induction d generalizing path with
  | zero => exact ⟨path, (List.append_nil path).symm, h⟩
  | succ d ih =>
      obtain ⟨before, s, rfl, hs, hbefore⟩ := hback path r d h
      obtain ⟨front, rfl, hfront⟩ := ih hbefore
      refine ⟨front, ?_, hfront⟩
      rw [Core.symbol?] at hs
      rw [List.take_add_one, hs, Option.toList_some, List.append_assoc]

/-- The symbols before a dot are the last ones on the way to the core, and before them the rule
has its dot in front. -/
theorem AtClosure.exists_front {r d : Nat} (h : AtClosure g startRule path ⟨r, d⟩) :
  ∃ front, path = front ++ (g.expansion r).take d ∧ AtClosure g startRule front ⟨r, 0⟩
  := by
  apply exists_front_of_back _ h
  intro path r d h
  cases h with
  | kernel h =>
      generalize hc : (⟨r, d + 1⟩ : Core) = c at h
      cases h with
      | start => cases hc
      | advance hd hs =>
          obtain rfl : (⟨r, d⟩ : Core) = _ := Core.advance_injective hc
          exact ⟨_, _, rfl, hs, hd⟩

/-- A lookahead is the same all the way through a rule. -/
theorem ExpectsInside.exists_front {r d : Nat} (h : ExpectsInside g startRule path ⟨r, d⟩ l) :
  ∃ front, path = front ++ (g.expansion r).take d ∧ ExpectsInside g startRule front ⟨r, 0⟩ l
  := by
  apply exists_front_of_back (P := fun path c => ExpectsInside g startRule path c l) _ h
  intro path r d h
  cases h with
  | kernel h =>
      generalize hc : (⟨r, d + 1⟩ : Core) = c at h
      cases h with
      | start => cases hc
      | advance hd hs =>
          obtain rfl : (⟨r, d⟩ : Core) = _ := Core.advance_injective hc
          exact ⟨_, _, rfl, hs, hd⟩

/-! ### Composed kernels -/

/-- A kernel has the cores of some canonical kernels and unites their lookaheads, and two cores
share a lookahead only if they share one in one of the canonical kernels. -/
structure Composed (g : Grammar) (startRule : Nat) (paths : Set (List Symbol))
    (k : List Item) : Prop where
  nonempty : paths.Nonempty
  cores : ∀ path ∈ paths, ∀ c, AtKernel g startRule path c ↔ c ∈ coresOf k
  grants : ∀ c l, Grants k c l ↔ ∃ path ∈ paths, Expects g startRule path c l
  share : ∀ c d, c ≠ d → Share k c d →
    ∃ path ∈ paths, ∃ l, Expects g startRule path c l ∧ Expects g startRule path d l

namespace Composed

variable {paths paths' : Set (List Symbol)} {k k' : List Item}

/-- The closure has the cores of the closures of the canonical states. -/
theorem calledFor_iff (h : Composed g startRule paths k) (hp : path ∈ paths) :
  CalledFor g k c ↔ AtClosure g startRule path c
  := (atClosure_iff (h.cores path hp)).symm

/-- The closure unites the lookaheads of the closures of the canonical states. -/
theorem followedBy_iff (h : Composed g startRule paths k) :
  FollowedBy g k c l ↔ ∃ path ∈ paths, ExpectsInside g startRule path c l
  := by
  rw [CaptureLR.followedBy_iff]
  constructor
  · rintro (⟨d, hd, hp⟩ | ⟨d, hd, hs⟩)
    · obtain ⟨path, hpath, hd⟩ := (h.grants d l).mp hd
      exact ⟨path, hpath, expectsInside_iff.mpr (Or.inl ⟨d, hd, hp⟩)⟩
    · obtain ⟨path, hpath⟩ := h.nonempty
      have hd' := (h.calledFor_iff hpath).mp hd
      exact ⟨path, hpath, expectsInside_iff.mpr (Or.inr ⟨d, hd', hs⟩)⟩
  · rintro ⟨path, hpath, hc⟩
    rcases expectsInside_iff.mp hc with ⟨d, hd, hp⟩ | ⟨d, hd, hs⟩
    · exact Or.inl ⟨d, (h.grants d l).mpr ⟨path, hpath, hd⟩, hp⟩
    · exact Or.inr ⟨d, (h.calledFor_iff hpath).mpr hd, hs⟩

/-- A lookahead of the closure that springs from a core is there in all of the canonical states. -/
theorem expectsInside_of_springs (h : Composed g startRule paths k) (hp : path ∈ paths)
    (hd : CalledFor g k d) (hs : Springs g l d c) :
  ExpectsInside g startRule path c l
  := expectsInside_iff.mpr (Or.inr ⟨d, (h.calledFor_iff hp).mp hd, hs⟩)

/-- Cores of the closure share a lookahead only if they share one in the closure of one of the
canonical states. -/
theorem share_inside (h : Composed g startRule paths k) (hc : FollowedBy g k c l)
    (hd : FollowedBy g k d l) :
  ∃ path ∈ paths, ∃ l, ExpectsInside g startRule path c l ∧ ExpectsInside g startRule path d l
  := by
  rcases CaptureLR.followedBy_iff.mp hc with ⟨c', hc', hcp⟩ | ⟨c', hc', hs⟩
  · rcases CaptureLR.followedBy_iff.mp hd with ⟨d', hd', hdp⟩ | ⟨d', hd', hs⟩
    · -- both lookaheads come from the kernel: from one core, or from two that share them
      by_cases heq : c' = d'
      · subst heq
        obtain ⟨path, hpath, he⟩ := (h.grants c' l).mp hc'
        use path, hpath, l
        exact ⟨expectsInside_iff.mpr (Or.inl ⟨c', he, hcp⟩),
          expectsInside_iff.mpr (Or.inl ⟨c', he, hdp⟩)⟩
      · obtain ⟨path, hpath, l', he, he'⟩ := h.share c' d' heq ⟨l, hc', hd'⟩
        use path, hpath, l'
        exact ⟨expectsInside_iff.mpr (Or.inl ⟨c', he, hcp⟩),
          expectsInside_iff.mpr (Or.inl ⟨d', he', hdp⟩)⟩
    · obtain ⟨path, hpath, he⟩ := h.followedBy_iff.mp hc
      exact ⟨path, hpath, l, he, h.expectsInside_of_springs hpath hd' hs⟩
  · obtain ⟨path, hpath, he⟩ := h.followedBy_iff.mp hd
    exact ⟨path, hpath, l, h.expectsInside_of_springs hpath hc' hs, he⟩

/-! ### Conflicts -/

/-- Two rules that the closure reduces under one lookahead clash in a canonical state. -/
theorem clashes_of_reductions (h : Composed g startRule paths k) (hc : FollowedBy g k c l)
    (hd : FollowedBy g k d l) (hcs : c.symbol? g = none) (hds : d.symbol? g = none)
    (hne : c.rule ≠ d.rule) :
  ∃ path, g.Clashes startRule path
  := by
  obtain ⟨path, -, l', hc', hd'⟩ := h.share_inside hc hd
  exact ⟨path, .reductions hc' hd' hcs hds hne⟩

/-- A rule that the closure reduces under a terminal it also shifts clashes in a canonical
state. -/
theorem clashes_of_shift (h : Composed g startRule paths k) {t : Terminal}
    (hc : FollowedBy g k c (.terminal t)) (hd : CalledFor g k d) (hcs : c.symbol? g = none)
    (hds : d.symbol? g = some (.terminal t)) :
  ∃ path, g.Clashes startRule path
  := by
  obtain ⟨path, hpath, hc'⟩ := h.followedBy_iff.mp hc
  exact ⟨path, .shift hc' ((h.calledFor_iff hpath).mp hd) hcs hds⟩

/-! ### What keeps kernels composed -/

/-- The initial kernel is that of the canonical state before all symbols. -/
theorem initial (g : Grammar) (startRule : Nat) :
  Composed g startRule {[]} (kernelOf [⟨⟨startRule, 0⟩, endContext⟩])
  where
  nonempty := ⟨[], rfl⟩
  cores := by
    rintro path rfl c
    rw [atKernel_nil, mem_coresOf_kernelOf]
    apply List.mem_singleton.symm
  grants c l := by
    rw [grants_kernelOf, grants_cons]
    constructor
    · rintro (⟨rfl, hl⟩ | h)
      · obtain rfl := List.mem_singleton.mp hl
        exact ⟨[], rfl, .start⟩
      · exact absurd h grants_nil
    · rintro ⟨path, rfl, h⟩
      obtain ⟨rfl, rfl⟩ := expects_nil.mp h
      exact Or.inl ⟨rfl, List.mem_singleton.mpr rfl⟩
  share c d hne h := by
    obtain ⟨l, hc, hd⟩ := h
    have hc' := List.mem_singleton.mp (mem_coresOf_kernelOf.mp hc.mem_coresOf)
    have hd' := List.mem_singleton.mp (mem_coresOf_kernelOf.mp hd.mem_coresOf)
    exact absurd (hc'.trans hd'.symm) hne

/-- Merging weakly compatible kernels keeps them composed. -/
theorem merge (h : Composed g startRule paths k) (h' : Composed g startRule paths' k')
    (hk : Ordered k) (hw : weaklyCompatible k k' = true) :
  Composed g startRule (paths ∪ paths') (mergeFollows k k')
  := by
  obtain ⟨hcores, hcross⟩ := (weaklyCompatible_iff hk).mp hw
  have hgrants := fun c l => grants_mergeFollows (c := c) (l := l) hcores
  refine ⟨h.nonempty.inl, ?_, ?_, ?_⟩
  · rintro path (hp | hp) c
    · rw [cores_mergeFollows, h.cores path hp]
    · rw [cores_mergeFollows, h'.cores path hp, hcores]
  · intro c l
    rw [hgrants, h.grants, h'.grants]
    constructor
    · rintro (⟨path, hp, he⟩ | ⟨path, hp, he⟩)
      · exact ⟨path, Or.inl hp, he⟩
      · exact ⟨path, Or.inr hp, he⟩
    · rintro ⟨path, hp | hp, he⟩
      · exact Or.inl ⟨path, hp, he⟩
      · exact Or.inr ⟨path, hp, he⟩
  · rintro c d hne ⟨l, hc, hd⟩
    have hone : Share k c d ∨ Share k' c d := by
      rcases (hgrants c l).mp hc with hc | hc <;> rcases (hgrants d l).mp hd with hd | hd
      · exact Or.inl ⟨l, hc, hd⟩
      · apply hcross c d l hne hc hd
      · apply Or.imp Share.symm Share.symm
        apply hcross d c l hne.symm hd hc
      · exact Or.inr ⟨l, hc, hd⟩
    rcases hone with hone | hone
    · obtain ⟨path, hp, hl⟩ := h.share c d hne hone
      exact ⟨path, Or.inl hp, hl⟩
    · obtain ⟨path, hp, hl⟩ := h'.share c d hne hone
      exact ⟨path, Or.inr hp, hl⟩

/-- The kernel that a symbol leads to from a composed kernel is composed. -/
theorem successor (h : Composed g startRule paths k) (hg : g.ListsRules) (hk : Ordered k)
    (s : Symbol) :
  Composed g startRule ((· ++ [s]) '' paths) (successorKernel g k s)
  where
  nonempty := h.nonempty.image _
  cores := by
    rintro _ ⟨path, hp, rfl⟩ c
    apply atKernel_concat_iff hg hk.nodup (h.cores path hp)
  grants c l := by
    rw [grants_successorKernel hg hk.nodup]
    constructor
    · rintro ⟨d, hd, hs, rfl⟩
      obtain ⟨path, hp, he⟩ := h.followedBy_iff.mp hd
      exact ⟨path ++ [s], ⟨path, hp, rfl⟩, .advance he hs⟩
    · rintro ⟨_, ⟨path, hp, rfl⟩, he⟩
      obtain ⟨d, hd, hs, rfl⟩ := expects_concat.mp he
      exact ⟨d, h.followedBy_iff.mpr ⟨path, hp, hd⟩, hs, rfl⟩
  share c d hne hcd := by
    obtain ⟨l, hc, hd⟩ := hcd
    obtain ⟨c', hc', hcs, rfl⟩ := (grants_successorKernel hg hk.nodup).mp hc
    obtain ⟨d', hd', hds, rfl⟩ := (grants_successorKernel hg hk.nodup).mp hd
    obtain ⟨path, hp, l', he, he'⟩ := h.share_inside hc' hd'
    exact ⟨path ++ [s], ⟨path, hp, rfl⟩, l', .advance he hcs, .advance he' hds⟩

end Composed

end CaptureLR

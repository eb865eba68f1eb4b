import CaptureLR.Proofs.Item.Closure

/-!
# Merging kernels

Two kernels of the same cores are merged by uniting their contexts, so the merged kernel
grants what one of them grants. They are weakly compatible if two cores that have a lookahead
in common after the merge have some lookahead in common before it, in one of the two. The test
reads the contexts position by position and goes through the pairs of positions once, so this
is said of cores, for kernels in strict order, and of positions, for any two lists of items.
-/

namespace CaptureLR

variable {a b : List Item}

/-- A merged kernel grants what one of the two kernels grants. -/
theorem grants_mergeFollows (h : coresOf a = coresOf b) {c : Core} {l : Lookahead} :
  Grants (mergeFollows a b) c l ↔ Grants a c l ∨ Grants b c l
  := by
  induction a generalizing b with
  | nil =>
      obtain rfl : b = [] := List.map_eq_nil_iff.mp h.symm
      simp [mergeFollows, grants_nil]
  | cons x xs ih =>
      cases b with
      | nil => simp [coresOf] at h
      | cons y ys =>
          obtain ⟨hc, hs⟩ := List.cons_eq_cons.mp h
          rw [mergeFollows, grants_cons, grants_cons, grants_cons, ih hs, ← hc]
          simp only [OrderedSet.mem_union]
          tauto

/-- Merging leaves a kernel alone or makes it heavier. -/
theorem growsTo_mergeFollows (a b : List Item) :
  GrowsTo weightOf a (mergeFollows a b)
  := by
  induction a generalizing b with
  | nil =>
      rw [mergeFollows]
      · apply GrowsTo.refl
      · intro a as y ys h
        cases h
  | cons x xs ih =>
      cases b with
      | nil => apply GrowsTo.refl
      | cons y ys =>
          rw [mergeFollows]
          rcases OrderedSet.growsTo_union x.follow y.follow with hx | hx
          · rcases ih ys with hs | hs
            · exact Or.inl (by rw [hx, hs])
            · exact Or.inr (by simpa [weightOf, hx] using hs)
          · right
            have hs := (ih ys).weight_le
            simp only [weightOf, List.map_cons, List.sum_cons] at hs ⊢
            omega

theorem Ordered.mergeFollows (h : Ordered a) (b : List Item) :
  Ordered (mergeFollows a b)
  := by
  rw [Ordered, cores_mergeFollows]
  apply h

/-- A kernel has the cores of another one and grants no less. -/
structure Widens (k k' : List Item) : Prop where
  cores : coresOf k' = coresOf k
  grants : ∀ c l, Grants k c l → Grants k' c l

theorem Widens.refl (k : List Item) :
  Widens k k
  := ⟨rfl, fun _ _ => id⟩

theorem Widens.trans {k k' k'' : List Item} (h : Widens k k') (h' : Widens k' k'') :
  Widens k k''
  := ⟨h'.cores.trans h.cores, fun c l hl => h'.grants c l (h.grants c l hl)⟩

/-- A merged kernel widens the first kernel. -/
theorem widens_mergeFollows (h : coresOf a = coresOf b) :
  Widens a (mergeFollows a b)
  where
  cores := cores_mergeFollows a b
  grants _ _ hl := (grants_mergeFollows h).mpr (Or.inl hl)

/-- A merged kernel widens the second kernel. -/
theorem widens_mergeFollows_right (h : coresOf a = coresOf b) :
  Widens b (mergeFollows a b)
  where
  cores := (cores_mergeFollows a b).trans h
  grants _ _ hl := (grants_mergeFollows h).mpr (Or.inr hl)

/-! ### Contexts at positions -/

/-- The context of the item at a position, empty beyond the end. -/
def contextAt (k : List Item) (i : Nat) : Context := ((k[i]?).map Item.follow).getD ∅

/-- The contexts at two positions have a lookahead in common. -/
def MeetAt (k : List Item) (i j : Nat) : Prop := ∃ l, l ∈ contextAt k i ∧ l ∈ contextAt k j

section Position

variable {k : List Item} {i j : Nat} {l : Lookahead}

theorem contextAt_eq_getElem (hi : i < k.length) :
  contextAt k i = k[i].follow
  := by
  rw [contextAt, List.getElem?_eq_getElem hi, Option.map_some, Option.getD_some]

theorem lt_length_of_mem_contextAt (h : l ∈ contextAt k i) :
  i < k.length
  := by
  by_contra hi
  rw [contextAt, List.getElem?_eq_none (Nat.le_of_not_lt hi)] at h
  cases h

theorem MeetAt.symm (h : MeetAt k i j) :
  MeetAt k j i
  := by
  obtain ⟨l, hi, hj⟩ := h
  exact ⟨l, hj, hi⟩

theorem MeetAt.lt_length (h : MeetAt k i j) :
  i < k.length ∧ j < k.length
  := by
  obtain ⟨l, hi, hj⟩ := h
  exact ⟨lt_length_of_mem_contextAt hi, lt_length_of_mem_contextAt hj⟩

/-- A merge unites the contexts at each position. -/
theorem mem_contextAt_mergeFollows (h : coresOf a = coresOf b) :
  l ∈ contextAt (mergeFollows a b) i ↔ l ∈ contextAt a i ∨ l ∈ contextAt b i
  := by
  induction a generalizing b i with
  | nil =>
      obtain rfl : b = [] := List.map_eq_nil_iff.mp h.symm
      rw [mergeFollows, or_self]
      intro x xs y ys hx
      cases hx
  | cons x xs ih =>
      cases b with
      | nil => simp [coresOf] at h
      | cons y ys =>
          cases i with
          | zero => apply OrderedSet.mem_union
          | succ i => apply ih (List.cons_eq_cons.mp h).2

/-- After a merge, contexts meet that meet in one of the kernels or across them. -/
theorem meetAt_mergeFollows (h : coresOf a = coresOf b) :
  MeetAt (mergeFollows a b) i j
    ↔ (MeetAt a i j ∨ MeetAt b i j)
      ∨ (∃ l, l ∈ contextAt a i ∧ l ∈ contextAt b j) ∨ ∃ l, l ∈ contextAt a j ∧ l ∈ contextAt b i
  := by
  simp only [MeetAt, mem_contextAt_mergeFollows h, ← exists_or]
  apply exists_congr
  intro l
  tauto

/-- Either kernel may be merged into the other: the same contexts meet. -/
theorem meetAt_mergeFollows_comm (h : coresOf a = coresOf b) :
  MeetAt (mergeFollows a b) i j ↔ MeetAt (mergeFollows b a) i j
  := by
  simp only [MeetAt, mem_contextAt_mergeFollows h, mem_contextAt_mergeFollows h.symm]
  simp only [or_comm]

end Position

/-! ### Weak compatibility -/

theorem length_eq_of_cores_eq (h : coresOf a = coresOf b) :
  a.length = b.length
  := by
  simpa [coresOf] using congrArg List.length h

theorem cores_eq_of_weaklyCompatible (h : weaklyCompatible a b = true) :
  coresOf a = coresOf b
  := by
  rw [weaklyCompatible, Bool.and_eq_true] at h
  apply of_decide_eq_true h.1

/-- Two positions are harmless exactly if the merge brings no contexts together that were apart
in both kernels. -/
theorem harmless_iff_meetAt (h : coresOf a = coresOf b) {i j : Nat} (hi : i < a.length)
    (hj : j < a.length) (hi' : i < b.length) (hj' : j < b.length) :
  harmless (a[i].follow, b[i].follow) (a[j].follow, b[j].follow) = true
    ↔ (MeetAt (mergeFollows a b) i j → MeetAt a i j ∨ MeetAt b i j)
  := by
  rw [meetAt_mergeFollows h]
  simp only [MeetAt, contextAt_eq_getElem, hi, hj, hi', hj', ← OrderedSet.meets_iff]
  simp only [harmless, Bool.or_eq_true, Bool.and_eq_true, Bool.not_eq_true', Bool.eq_false_iff]
  tauto

/-- Kernels of the same cores are weakly compatible exactly if any two contexts that meet after a
merge meet before it, in one of the kernels. The pairs of positions are compared once, with the
first position before the second. -/
theorem weaklyCompatible_iff_meetAt (h : coresOf a = coresOf b) :
  weaklyCompatible a b = true
    ↔ ∀ i j, i < j → MeetAt (mergeFollows a b) i j → MeetAt a i j ∨ MeetAt b i j
  := by
  have hlength := length_eq_of_cores_eq h
  have hmerged := length_eq_of_cores_eq (cores_mergeFollows a b)
  have hisocore : isocore a b = true := decide_eq_true h
  rw [weaklyCompatible, hisocore, Bool.true_and, allPairs_iff, List.pairwise_iff_getElem]
  simp only [followPairs, List.length_zipWith, List.getElem_zipWith, ← hlength, Nat.min_self]
  constructor
  · intro hall i j hij hm
    obtain ⟨hi, hj⟩ := hm.lt_length
    rw [hmerged] at hi hj
    apply (harmless_iff_meetAt h hi hj (hlength ▸ hi) (hlength ▸ hj)).mp _ hm
    apply hall i j hi hj hij
  · intro hall i j hi hj hij
    apply (harmless_iff_meetAt h hi hj _ _).mpr
    apply hall i j hij

/-! ### Compatible cores -/

/-- Two cores have a lookahead in common. -/
def Share (items : List Item) (c d : Core) : Prop := ∃ l, Grants items c l ∧ Grants items d l

theorem Share.symm {items : List Item} {c d : Core} (h : Share items c d) :
  Share items d c
  := by
  obtain ⟨l, hc, hd⟩ := h
  exact ⟨l, hd, hc⟩

theorem exists_core_of_lt_length {k : List Item} {i : Nat} (h : i < k.length) :
  ∃ c, (coresOf k)[i]? = some c
  := by
  use k[i].core
  simp [coresOf, h]

/-- In a list without repeated cores, the context at a position has what is granted to the core
there. -/
theorem mem_contextAt_iff {k : List Item} (hk : (coresOf k).Nodup) {i : Nat} {c : Core}
    (hc : (coresOf k)[i]? = some c) {l : Lookahead} :
  l ∈ contextAt k i ↔ Grants k c l
  := by
  rw [coresOf, List.getElem?_map] at hc
  obtain ⟨x, hx, rfl⟩ := Option.map_eq_some_iff.mp hc
  rw [contextAt, hx]
  apply mem_follow_iff_grants hk (List.mem_of_getElem? hx)

/-- In a list without repeated cores, the contexts at two positions meet if the cores there share a
lookahead. -/
theorem meetAt_iff_share {k : List Item} (hk : (coresOf k).Nodup) {i j : Nat} {c d : Core}
    (hc : (coresOf k)[i]? = some c) (hd : (coresOf k)[j]? = some d) :
  MeetAt k i j ↔ Share k c d
  := by
  simp only [MeetAt, mem_contextAt_iff hk hc, mem_contextAt_iff hk hd, Share]

/-- Cores that share a lookahead across weakly compatible kernels share one within one of them. -/
theorem share_of_weaklyCompatible (ha : Ordered a) (h : weaklyCompatible a b = true) {c d : Core}
    {l : Lookahead} (hcd : c ≠ d) (hc : Grants a c l) (hd : Grants b d l) :
  Share a c d ∨ Share b c d
  := by
  have hcores := cores_eq_of_weaklyCompatible h
  have hpairs := (weaklyCompatible_iff_meetAt hcores).mp h
  have hn : (coresOf a).Nodup := ha.nodup
  have hn' : (coresOf b).Nodup := hcores ▸ hn
  -- the positions of the cores, the same in both kernels
  obtain ⟨i, hi⟩ := List.mem_iff_getElem?.mp hc.mem_coresOf
  obtain ⟨j, hj'⟩ := List.mem_iff_getElem?.mp hd.mem_coresOf
  have hi' : (coresOf b)[i]? = some c := hcores ▸ hi
  have hj : (coresOf a)[j]? = some d := hcores ▸ hj'
  have hm : MeetAt (mergeFollows a b) i j := by
    apply (meetAt_mergeFollows hcores).mpr (Or.inr (Or.inl ⟨l, ?_, ?_⟩))
    · apply (mem_contextAt_iff hn hi).mpr hc
    · apply (mem_contextAt_iff hn' hj').mpr hd
  rw [← meetAt_iff_share hn hi hj, ← meetAt_iff_share hn' hi' hj']
  rcases Nat.lt_trichotomy i j with hij | rfl | hij
  · apply hpairs i j hij hm
  · rw [hi] at hj
    exact absurd (Option.some.inj hj) hcd
  · apply Or.imp MeetAt.symm MeetAt.symm
    apply hpairs j i hij hm.symm

/-- Kernels are weakly compatible if cores that share a lookahead across them share one within one
of them. -/
theorem weaklyCompatible_of_share (ha : Ordered a) (h : coresOf a = coresOf b)
    (hshare : ∀ c d l, c ≠ d → Grants a c l → Grants b d l → Share a c d ∨ Share b c d) :
  weaklyCompatible a b = true
  := by
  have hn : (coresOf a).Nodup := ha.nodup
  have hn' : (coresOf b).Nodup := h ▸ hn
  apply (weaklyCompatible_iff_meetAt h).mpr
  intro i j hij hm
  obtain ⟨c, hi⟩ := exists_core_of_lt_length hm.lt_length.1
  obtain ⟨d, hj⟩ := exists_core_of_lt_length hm.lt_length.2
  rw [cores_mergeFollows] at hi hj
  have hi' : (coresOf b)[i]? = some c := h ▸ hi
  have hj' : (coresOf b)[j]? = some d := h ▸ hj
  have hcd : c ≠ d := by
    rintro rfl
    apply Nat.ne_of_lt hij
    apply (List.getElem?_inj (List.getElem?_eq_some_iff.mp hi).1 hn).mp (hi.trans hj.symm)
  rcases (meetAt_mergeFollows h).mp hm with hm | ⟨l, hl, hl'⟩ | ⟨l, hl, hl'⟩
  · apply hm
  · rw [meetAt_iff_share hn hi hj, meetAt_iff_share hn' hi' hj']
    rw [mem_contextAt_iff hn hi] at hl
    rw [mem_contextAt_iff hn' hj'] at hl'
    apply hshare c d l hcd hl hl'
  · rw [meetAt_iff_share hn hi hj, meetAt_iff_share hn' hi' hj']
    rw [mem_contextAt_iff hn hj] at hl
    rw [mem_contextAt_iff hn' hi'] at hl'
    apply Or.imp Share.symm Share.symm
    apply hshare d c l hcd.symm hl hl'

/-- Kernels are weakly compatible exactly if they have the same cores, and any two cores that
share a lookahead across the kernels share one within one of them. -/
theorem weaklyCompatible_iff (ha : Ordered a) :
  weaklyCompatible a b = true
    ↔ coresOf a = coresOf b
      ∧ ∀ c d l, c ≠ d → Grants a c l → Grants b d l → Share a c d ∨ Share b c d
  := by
  constructor
  · intro hw
    use cores_eq_of_weaklyCompatible hw
    intro c d l hcd hc hd
    apply share_of_weaklyCompatible ha hw hcd hc hd
  · rintro ⟨h, hshare⟩
    apply weaklyCompatible_of_share ha h hshare

/-- A kernel is weakly compatible with one that it widens. -/
theorem Widens.weaklyCompatible (h : Widens b a) (ha : Ordered a) :
  weaklyCompatible a b = true
  := by
  apply (weaklyCompatible_iff ha).mpr
  use h.cores
  intro c d l _ hc hd
  left
  use l, hc
  apply h.grants d l hd

/-! ### Exactness -/

/-- Whether kernels of the same cores are weakly compatible tells exactly whether a merge is
harmless: no two contexts meet after it that were apart in both kernels. So it does not matter
which kernel comes first, and a kernel whose contexts are contained in those of another one can
always be merged into it. -/
theorem weaklyCompatible_exact (h : coresOf a = coresOf b) :
  (weaklyCompatible a b = true
      ↔ ∀ i j, i < j → MeetAt (mergeFollows a b) i j → MeetAt a i j ∨ MeetAt b i j)
    ∧ weaklyCompatible a b = weaklyCompatible b a
    ∧ ((∀ i l, l ∈ contextAt b i → l ∈ contextAt a i) → weaklyCompatible a b = true)
  := by
  refine ⟨weaklyCompatible_iff_meetAt h, ?_, ?_⟩
  · apply Bool.eq_iff_iff.mpr
    rw [weaklyCompatible_iff_meetAt h, weaklyCompatible_iff_meetAt h.symm]
    simp only [meetAt_mergeFollows_comm h, or_comm]
  · intro hsub
    apply (weaklyCompatible_iff_meetAt h).mpr
    rintro i j - ⟨l, hi, hj⟩
    left
    use l
    rw [mem_contextAt_mergeFollows h] at hi hj
    exact ⟨hi.elim id (hsub i l), hj.elim id (hsub j l)⟩

/-- A kernel of two items with a terminal each in their contexts. -/
def twoItemKernel (s t : Terminal) : List Item :=
  kernelOf [⟨⟨1, 1⟩, .singleton (.terminal s)⟩, ⟨⟨2, 1⟩, .singleton (.terminal t)⟩]

/-- Kernels with exchanged contexts are not compatible, whichever comes first: a merge brings
contexts together that were apart. -/
theorem weaklyCompatible_exact_exchanged :
  coresOf (twoItemKernel "a" "b") = coresOf (twoItemKernel "b" "a")
    ∧ weaklyCompatible (twoItemKernel "b" "a") (twoItemKernel "a" "b") = false
    ∧ ∃ i j, i < j ∧ MeetAt (mergeFollows (twoItemKernel "a" "b") (twoItemKernel "b" "a")) i j
        ∧ ¬ (MeetAt (twoItemKernel "a" "b") i j ∨ MeetAt (twoItemKernel "b" "a") i j)
  := by
  have hcores : coresOf (twoItemKernel "a" "b") = coresOf (twoItemKernel "b" "a") := by decide
  have hfalse : weaklyCompatible (twoItemKernel "a" "b") (twoItemKernel "b" "a") = false := by
    decide
  obtain ⟨hiff, hsymm, -⟩ := weaklyCompatible_exact hcores
  refine ⟨hcores, hsymm ▸ hfalse, ?_⟩
  by_contra hnone
  push Not at hnone
  rw [hiff.mpr hnone] at hfalse
  cases hfalse

end CaptureLR

import CaptureLR.Proofs.Automaton.Canonical
import CaptureLR.Proofs.Automaton.Row

/-!
# Inserting kernels

A kernel that is inserted into an automaton under construction ends up in a state whose kernel
widens it. The other states stay as they are. The state it is merged with keeps its actions,
and it becomes dirty if it grew, unless it has no actions at all.
-/

namespace CaptureLR

variable {g : Grammar} {startRule : Nat} {k k' : List Item}

/-! ### Kernels of states -/

/-- A kernel that a state can have: it is in order, has an item and is composed of canonical
kernels. -/
structure IsKernel (g : Grammar) (startRule : Nat) (k : List Item) : Prop where
  ordered : Ordered k
  nonempty : k ≠ []
  composed : ∃ paths, Composed g startRule paths k

namespace IsKernel

theorem initial (g : Grammar) (startRule : Nat) :
  IsKernel g startRule (kernelOf [⟨⟨startRule, 0⟩, endContext⟩])
  := ⟨ordered_kernelOf _, List.cons_ne_nil _ _, {[]}, Composed.initial g startRule⟩

theorem merge (h : IsKernel g startRule k) (h' : IsKernel g startRule k')
    (hw : weaklyCompatible k k' = true) :
  IsKernel g startRule (mergeFollows k k')
  where
  ordered := h.ordered.mergeFollows k'
  nonempty hnil := by
    have hc := cores_mergeFollows k k'
    rw [hnil] at hc
    apply h.nonempty (List.map_eq_nil_iff.mp hc.symm)
  composed := by
    obtain ⟨paths, hp⟩ := h.composed
    obtain ⟨paths', hp'⟩ := h'.composed
    exact ⟨paths ∪ paths', hp.merge hp' h.ordered hw⟩

theorem successor (hg : g.ListsRules) (h : IsKernel g startRule k) {s : Symbol}
    (hs : Shifts g (g.closure k) s) :
  IsKernel g startRule (successorKernel g k s)
  where
  ordered := ordered_successorKernel g k s
  nonempty hnil := by
    obtain ⟨c, hc, hcs⟩ := hs
    have hmem : c.advance ∈ coresOf (successorKernel g k s) :=
      (mem_coresOf_successorKernel hg h.ordered.nodup).mpr
        ⟨c, (Grammar.mem_coresOf_closure hg h.ordered.nodup).mp hc, hcs, rfl⟩
    rw [hnil] at hmem
    cases hmem
  composed := by
    obtain ⟨paths, hp⟩ := h.composed
    exact ⟨_, hp.successor hg h.ordered s⟩

end IsKernel

namespace Builder

variable {b b' : Builder}

/-! ### What an insertion does -/

/-- The states hold kernels, and the index of cores lists them. No state was created for a kernel
that an earlier state would have widened. States whose actions were not computed yet have none. -/
structure Coherent (g : Grammar) (startRule : Nat) (b : Builder) : Prop where
  isKernel : ∀ (i : Nat) (s : State), b.states[i]? = some s → IsKernel g startRule s.kernel
  byCores : ∀ cores i, i ∈ (b.byCores.get? cores).getD []
    ↔ ∃ s : State, b.states[i]? = some s ∧ coresOf s.kernel = cores
  births : ∃ ks : List (List Item), ks.length = b.states.size
    ∧ ks.Pairwise (fun k k' => ¬ Widens k' k)
    ∧ ∀ (i : Nat) (s : State), b.states[i]? = some s →
        ∃ k, ks[i]? = some k ∧ Ordered k ∧ Widens k s.kernel
  accepting : ∀ (i : Nat) (s : State), b.states[i]? = some s →
    (s.accepting = true ↔ ⟨startRule, 1⟩ ∈ coresOf s.kernel)
  fresh : ∀ (i : Nat) (s : State), b.next ≤ i → b.states[i]? = some s → s.actions = ∅
  next_le : b.next ≤ b.states.size
  dirty_lt : ∀ i ∈ b.dirty, i < b.next

/-- One builder comes from another one by inserting a kernel: the states keep their actions, and
where a kernel grew the state is dirty, or it has no actions and the cores of the inserted
kernel. -/
structure Grows (k : List Item) (b b' : Builder) : Prop where
  states : ∀ (i : Nat) (s : State), b.states[i]? = some s → ∃ s' : State, b'.states[i]? = some s'
    ∧ Widens s.kernel s'.kernel ∧ s'.actions = s.actions
    ∧ (s'.kernel = s.kernel ∨ i ∈ b'.dirty ∨ (s.actions = ∅ ∧ coresOf s.kernel = coresOf k))
  next : b'.next = b.next
  dirty : ∀ i ∈ b.dirty, i ∈ b'.dirty

/-- The state that a kernel is inserted into, if there is one to merge it with: it is weakly
compatible with the kernel. Otherwise no state of the same cores is. -/
theorem insert_cases (h : b.Coherent g startRule) (k : List Item) (lane : List Column) :
  (∃ (i : Nat) (s : State), b.states[i]? = some s ∧ weaklyCompatible s.kernel k = true
    ∧ b.insert startRule k lane = (b.merge i k, i))
  ∨ ((∀ (i : Nat) (s : State), b.states[i]? = some s → weaklyCompatible s.kernel k = false)
    ∧ b.insert startRule k lane = (b.push startRule k lane, b.states.size))
  := by
  unfold insert
  cases hf : ((b.byCores.get? (coresOf k)).getD []).find? (b.accepts k) with
  | some i =>
      left
      obtain ⟨s, hs, -⟩ := (h.byCores _ _).mp (List.mem_of_find?_eq_some hf)
      have ha := List.find?_some hf
      rw [accepts, hs] at ha
      use i, s, hs, ha
      simp only [hf]
  | none =>
      right
      constructor
      · intro i s hs
        by_cases hc : coresOf s.kernel = coresOf k
        · have ha := List.find?_eq_none.mp hf i ((h.byCores _ _).mpr ⟨s, hs, hc⟩)
          rw [accepts, hs] at ha
          simpa using ha
        · simp [weaklyCompatible, isocore, hc]
      · simp only [hf]

/-! ### Merging into a state -/

section Merge

variable {i : Nat} {s : State}

theorem states_merge (hs : b.states[i]? = some s) (j : Nat) :
  (b.merge i k).states[j]?
    = if i = j then some { s with kernel := mergeFollows s.kernel k } else b.states[j]?
  := by
  simp only [merge, hs, Array.getElem?_modify]
  by_cases h : i = j
  · subst h
    simp [hs]
  · simp [h]

/-- After a merge a state is the one that was merged into, or it was there before. -/
theorem states_merge_cases (hs : b.states[i]? = some s) {j : Nat} {t : State}
    (ht : (b.merge i k).states[j]? = some t) :
  (j = i ∧ t = { s with kernel := mergeFollows s.kernel k }) ∨ b.states[j]? = some t
  := by
  rw [states_merge hs] at ht
  split at ht
  · next hij =>
    left
    exact ⟨hij.symm, (Option.some.inj ht).symm⟩
  · right
    apply ht

theorem next_merge (b : Builder) (i : Nat) (k : List Item) :
  (b.merge i k).next = b.next
  := by
  unfold merge
  cases b.states[i]? <;> rfl

theorem size_merge (b : Builder) (i : Nat) (k : List Item) :
  (b.merge i k).states.size = b.states.size
  := by
  unfold merge
  cases b.states[i]? with
  | none => rfl
  | some s => apply Array.size_modify

/-- Merging makes no state dirty but the one that grew, if it has actions. -/
theorem mem_dirty_merge (hs : b.states[i]? = some s) {j : Nat} :
  j ∈ (b.merge i k).dirty
    ↔ j ∈ b.dirty ∨ (j = i ∧ mergeFollows s.kernel k ≠ s.kernel ∧ s.actions ≠ ∅)
  := by
  have hpop : s.isPopulated = true ↔ s.actions ≠ ∅ := by
    rw [State.isPopulated, OrderedMap.isEmpty, Bool.not_eq_true', ne_eq, OrderedMap.ext_iff,
      OrderedMap.toList_empty, List.isEmpty_eq_false_iff]
  have hdirty : (b.merge i k).dirty
      = if (mergeFollows s.kernel k ≠ s.kernel ∧ s.actions ≠ ∅) ∧ i ∉ b.dirty then i :: b.dirty
        else b.dirty := by
    simp [merge, hs, hpop]
  rw [hdirty]
  split
  · next h => simp [h.1, or_comm]
  · next h =>
    constructor
    · exact Or.inl
    · rintro (hj | ⟨rfl, hg⟩)
      · apply hj
      · by_contra hd
        apply h ⟨hg, hd⟩

theorem coherent_merge (h : b.Coherent g startRule) (hk : IsKernel g startRule k)
    (hs : b.states[i]? = some s) (hw : weaklyCompatible s.kernel k = true) :
  (b.merge i k).Coherent g startRule
  where
  isKernel j t ht := by
    rcases states_merge_cases hs ht with ⟨-, rfl⟩ | ht
    · apply (h.isKernel i s hs).merge hk hw
    · apply h.isKernel j t ht
  byCores cores j := by
    have hb : (b.merge i k).byCores = b.byCores := by simp [merge, hs]
    rw [hb, h.byCores, states_merge hs]
    by_cases hij : i = j
    · subst hij
      simp [hs, cores_mergeFollows]
    · simp [hij]
  births := by
    obtain ⟨ks, hlength, hpairs, hwidens⟩ := h.births
    use ks, hlength.trans (size_merge b i k).symm, hpairs
    intro j t ht
    rcases states_merge_cases hs ht with ⟨rfl, rfl⟩ | ht
    · obtain ⟨k₀, hk₀, ho, hw₀⟩ := hwidens j s hs
      use k₀, hk₀, ho
      apply hw₀.trans (widens_mergeFollows (cores_eq_of_weaklyCompatible hw))
    · apply hwidens j t ht
  accepting j t ht := by
    rcases states_merge_cases hs ht with ⟨-, rfl⟩ | ht
    · rw [cores_mergeFollows]
      apply h.accepting i s hs
    · apply h.accepting j t ht
  fresh j t hj ht := by
    rw [next_merge] at hj
    rcases states_merge_cases hs ht with ⟨rfl, rfl⟩ | ht
    · apply h.fresh j s hj hs
    · apply h.fresh j t hj ht
  next_le := by
    rw [next_merge, size_merge]
    apply h.next_le
  dirty_lt j hj := by
    rw [next_merge]
    rcases (mem_dirty_merge hs).mp hj with hj | ⟨rfl, -, hne⟩
    · apply h.dirty_lt j hj
    · by_contra hlt
      apply hne (h.fresh j s (Nat.le_of_not_lt hlt) hs)

theorem grows_merge (hs : b.states[i]? = some s) (hw : weaklyCompatible s.kernel k = true) :
  Grows k b (b.merge i k)
  where
  states j t ht := by
    have hc := cores_eq_of_weaklyCompatible hw
    rw [states_merge hs]
    by_cases hij : i = j
    · subst hij
      obtain rfl : s = t := by rwa [hs, Option.some.injEq] at ht
      rw [if_pos rfl]
      refine ⟨_, rfl, widens_mergeFollows hc, rfl, ?_⟩
      by_cases hne : mergeFollows s.kernel k = s.kernel
      · left
        apply hne
      · right
        by_cases hempty : s.actions = ∅
        · exact Or.inr ⟨hempty, hc⟩
        · left
          apply (mem_dirty_merge hs).mpr (Or.inr ⟨rfl, hne, hempty⟩)
    · rw [if_neg hij]
      exact ⟨t, ht, .refl _, rfl, Or.inl rfl⟩
  next := next_merge b i k
  dirty j hj := (mem_dirty_merge hs).mpr (Or.inl hj)

end Merge

/-! ### Adding a state -/

theorem states_push (b : Builder) (startRule : Nat) (k : List Item) (lane : List Column) :
  (b.push startRule k lane).states = b.states.push
    { index := b.states.size, kernel := k, actions := ∅
      accepting := k.any (fun i => decide (i.core = ⟨startRule, 1⟩)), lane }
  := rfl

/-- After a state is added a state is the new one, or it was there before. -/
theorem states_push_cases {lane : List Column} {i : Nat} {s : State}
    (hs : (b.push startRule k lane).states[i]? = some s) :
  (i = b.states.size ∧ s =
      { index := b.states.size, kernel := k, actions := ∅
        accepting := k.any (fun i => decide (i.core = ⟨startRule, 1⟩)), lane })
    ∨ b.states[i]? = some s
  := by
  rw [states_push, Array.getElem?_push] at hs
  split at hs
  · next hi =>
    left
    exact ⟨hi, (Option.some.inj hs).symm⟩
  · right
    apply hs

theorem coherent_push (h : b.Coherent g startRule) (hk : IsKernel g startRule k)
    (hnew : ∀ (i : Nat) (s : State), b.states[i]? = some s → weaklyCompatible s.kernel k = false)
    (lane : List Column) :
  (b.push startRule k lane).Coherent g startRule
  where
  isKernel i s hs := by
    rcases states_push_cases hs with ⟨-, rfl⟩ | hs
    · apply hk
    · apply h.isKernel i s hs
  byCores cores i := by
    have hlt : ∀ {s}, b.states[i]? = some s → i < b.states.size :=
      fun hs => (Array.getElem?_eq_some_iff.mp hs).1
    have hb := h.byCores cores i
    rw [states_push, Array.getElem?_push]
    simp only [push, OrderedMap.get?_insert]
    by_cases hc : cores = coresOf k
    · subst hc
      rw [if_pos rfl, Option.getD_some, List.mem_append, List.mem_singleton, hb]
      by_cases hi : i = b.states.size
      · simp [hi]
      · simp [hi]
    · rw [if_neg hc, hb]
      by_cases hi : i = b.states.size
      · simp [hi, eq_comm, hc]
      · simp [hi]
  births := by
    obtain ⟨ks, hlength, hpairs, hwidens⟩ := h.births
    refine ⟨ks ++ [k], ?_, ?_, ?_⟩
    · rw [List.length_append, hlength, states_push, Array.size_push, List.length_singleton]
    · apply List.pairwise_append.mpr
      use hpairs, List.pairwise_singleton _ _
      intro k₀ hk₀ k' hk' hw
      obtain rfl := List.mem_singleton.mp hk'
      obtain ⟨i, hi, rfl⟩ := List.getElem_of_mem hk₀
      have hs := Array.getElem?_eq_getElem (hlength ▸ hi)
      obtain ⟨k₀, hk₀', -, hw₀⟩ := hwidens i _ hs
      obtain rfl : ks[i] = k₀ := by
        rwa [List.getElem?_eq_getElem hi, Option.some.injEq] at hk₀'
      have hcompatible := (hw.trans hw₀).weaklyCompatible (h.isKernel i _ hs).ordered
      rw [hnew i _ hs] at hcompatible
      cases hcompatible
    · intro i s hs
      rcases states_push_cases hs with ⟨rfl, rfl⟩ | hs
      · exact ⟨k, by rw [← hlength, List.getElem?_concat_length], hk.ordered, .refl _⟩
      · obtain ⟨k₀, hk₀, hk₀'⟩ := hwidens i s hs
        have hlt := (List.getElem?_eq_some_iff.mp hk₀).1
        exact ⟨k₀, by rw [List.getElem?_append_left hlt, hk₀], hk₀'⟩
  accepting i s hs := by
    rcases states_push_cases hs with ⟨-, rfl⟩ | hs
    · simp only [List.any_eq_true, decide_eq_true_eq, mem_coresOf]
    · apply h.accepting i s hs
  fresh i s hi hs := by
    rcases states_push_cases hs with ⟨-, rfl⟩ | hs
    · rfl
    · apply h.fresh i s hi hs
  next_le := by
    rw [states_push, Array.size_push]
    apply Nat.le_succ_of_le h.next_le
  dirty_lt := h.dirty_lt

theorem grows_push (b : Builder) (startRule : Nat) (k : List Item) (lane : List Column) :
  Grows k b (b.push startRule k lane)
  where
  states i s hs := by
    have hlt := (Array.getElem?_eq_some_iff.mp hs).1
    refine ⟨s, ?_, .refl _, rfl, Or.inl rfl⟩
    rw [states_push, Array.getElem?_push_lt hlt, ← Array.getElem?_eq_getElem hlt, hs]
  next := rfl
  dirty _ hi := hi

/-! ### Inserting -/

/-- After a kernel is inserted a state was there before, perhaps with another kernel that the inserted
one was merged into, or it is the new one. -/
theorem states_insert_cases {lane : List Column} {i : Nat} {s : State}
    (hs : (b.insert startRule k lane).1.states[i]? = some s) :
  b.states[i]? = some s
  ∨ (∃ s₀ : State, b.states[i]? = some s₀ ∧ weaklyCompatible s₀.kernel k = true
      ∧ s = { s₀ with kernel := mergeFollows s₀.kernel k })
  ∨ (i = b.states.size ∧ s =
      { index := b.states.size, kernel := k, actions := ∅
        accepting := k.any (fun i => decide (i.core = ⟨startRule, 1⟩)), lane })
  := by
  simp only [insert] at hs
  split at hs
  · next j hj =>
    have haccepts := List.find?_some hj
    unfold accepts at haccepts
    split at haccepts
    · next s₀ hs₀ =>
      rcases states_merge_cases hs₀ hs with ⟨rfl, rfl⟩ | hs
      · exact Or.inr (Or.inl ⟨s₀, hs₀, haccepts, rfl⟩)
      · left
        apply hs
    · cases haccepts
  · rcases states_push_cases hs with hs | hs
    · right
      right
      apply hs
    · left
      apply hs

/-- An inserted kernel ends up in a state that widens it. -/
theorem insert_spec (h : b.Coherent g startRule) (hk : IsKernel g startRule k)
    (lane : List Column) :
  (b.insert startRule k lane).1.Coherent g startRule
    ∧ Grows k b (b.insert startRule k lane).1
    ∧ ∃ s : State, (b.insert startRule k lane).1.states[(b.insert startRule k lane).2]? = some s
      ∧ Widens k s.kernel
  := by
  rcases insert_cases h k lane with ⟨i, s, hs, hw, heq⟩ | ⟨hnew, heq⟩
  · have hc := cores_eq_of_weaklyCompatible hw
    rw [heq]
    use coherent_merge h hk hs hw, grows_merge hs hw
    rw [states_merge hs, if_pos rfl]
    exact ⟨_, rfl, widens_mergeFollows_right hc⟩
  · rw [heq]
    use coherent_push h hk hnew lane, grows_push b startRule k lane
    rw [states_push, Array.getElem?_push_size]
    exact ⟨_, rfl, .refl _⟩

end Builder

end CaptureLR

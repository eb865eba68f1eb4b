import CaptureLR.Automaton
import CaptureLR.Proofs.Growth

/-!
# Dropping states

The states that are kept when unreachable ones are dropped are closed under shifts, and the
initial state is the first of them. Every kept state has the kernel it had and the same actions,
with the targets of its shifts at their new places.
-/

namespace CaptureLR

namespace Builder

variable {states : Array State}

/-! ### What is reached -/

theorem mem_targets {i t : Nat} :
  t ∈ targets states i
    ↔ ∃ (s : State) (col : Column), states[i]? = some s ∧ s.actions.get? col = some (.shift t)
  := by
  unfold targets
  cases hs : states[i]? with
  | none => simp
  | some s =>
      simp only [OrderedMap.values, List.mem_filterMap, List.mem_map]
      constructor
      · rintro ⟨a, ⟨⟨col, a⟩, hmem, rfl⟩, ha⟩
        cases a with
        | reduce r => cases ha
        | shift t' =>
            obtain rfl := Option.some.inj ha
            exact ⟨s, col, rfl, OrderedMap.mem_toList_iff.mp hmem⟩
      · rintro ⟨s', col, hs', ha⟩
        obtain rfl := Option.some.inj hs'
        exact ⟨.shift t, ⟨(col, .shift t), OrderedMap.mem_toList_iff.mpr ha, rfl⟩, rfl⟩

theorem nodup_eraseDups (l : List Nat) :
  l.eraseDups.Nodup
  := by
  induction hl : l.length using Nat.strongRecOn generalizing l with
  | ind n ih =>
      cases l with
      | nil => apply List.nodup_nil
      | cons a as =>
          rw [List.eraseDups_cons, List.nodup_cons]
          constructor
          · rw [List.mem_eraseDups, List.mem_filter]
            simp
          · apply ih _ _ _ rfl
            rw [← hl, List.length_cons]
            apply Nat.lt_succ_of_le (List.length_filter_le _ _)

/-- A set grows by the elements that are new to it. -/
theorem size_insertMany {s : OrderedSet Nat} {l : List Nat} (h : ∀ a ∈ l, a ∉ s) :
  s.size + l.eraseDups.length ≤ (s.insertMany l).size
  := by
  have hnodup : (s.toList ++ l.eraseDups).Nodup := by
    apply List.nodup_append.mpr
    use s.nodup, nodup_eraseDups l
    rintro a ha _ hb rfl
    apply h a (List.mem_eraseDups.mp hb) ha
  have hsub : ∀ a ∈ s.toList ++ l.eraseDups, a ∈ (s.insertMany l).toList := by
    intro a ha
    apply OrderedSet.mem_insertMany.mpr
    rw [List.mem_append, List.mem_eraseDups] at ha
    apply ha
  have := (hnodup.subperm hsub).length_le
  rwa [List.length_append] at this

/-- What is reached are states, and their targets are reached too, but for those of the states on a
stack. -/
structure Frontier (states : Array State) (stack : List Nat) (reached : OrderedSet Nat) : Prop where
  lt : ∀ i ∈ reached, i < states.size
  closed : ∀ i ∈ reached, i ∈ stack ∨ ∀ t ∈ targets states i, t ∈ reached

namespace Frontier

variable {stack fresh : List Nat} {reached : OrderedSet Nat} {i : Nat}

/-- If nothing is on the stack, what is reached is closed under shifts. -/
theorem mem_of_mem_targets (h : Frontier states [] reached) (hi : i ∈ reached) {t : Nat}
    (ht : t ∈ targets states i) :
  t ∈ reached
  := by
  have hclosed := (h.closed i hi).resolve_left List.not_mem_nil
  apply hclosed t ht

/-- The targets of the state on top of the stack are reached, and those that are new take its
place. -/
theorem step (h : Frontier states (i :: stack) reached)
    (htargets : ∀ t ∈ targets states i, t < states.size)
    (hfresh : fresh = (targets states i).filter (fun t => decide (t ∉ reached))) :
  Frontier states (fresh.eraseDups ++ stack) (reached.insertMany fresh)
  := by
  have hmem : ∀ t, t ∈ reached.insertMany fresh ↔ t ∈ reached ∨ t ∈ fresh :=
    fun t => OrderedSet.mem_insertMany
  constructor
  · intro t ht
    rcases (hmem t).mp ht with ht | ht
    · apply h.lt t ht
    · rw [hfresh] at ht
      apply htargets t (List.mem_filter.mp ht).1
  · intro j hj
    rw [List.mem_append, List.mem_eraseDups]
    rcases (hmem j).mp hj with hj | hj
    · rcases h.closed j hj with hj | hj
      · rcases List.mem_cons.mp hj with rfl | hj
        · right
          intro t ht
          rw [hmem]
          by_cases hm : t ∈ reached
          · left
            apply hm
          · right
            rw [hfresh]
            apply List.mem_filter.mpr
            exact ⟨ht, by simpa using hm⟩
        · apply Or.inl (Or.inr hj)
      · right
        intro t ht
        apply (hmem t).mpr (Or.inl (hj t ht))
    · apply Or.inl (Or.inl hj)

/-- Following all shifts leaves nothing on the stack: a state is put there only when it is reached
first. -/
theorem reach (h : Frontier states stack reached)
    (htargets : ∀ i, ∀ t ∈ targets states i, t < states.size) (fuel : Nat)
    (hfuel : states.size + stack.length ≤ fuel + reached.size) :
  (∀ i ∈ reached, i ∈ Builder.reach states fuel stack reached)
    ∧ Frontier states [] (Builder.reach states fuel stack reached)
  := by
  induction fuel generalizing stack reached with
  | zero =>
      have hsize : reached.size ≤ (List.range states.size).length := by
        apply OrderedSet.size_le_of_subset
        intro i hi
        apply List.mem_range.mpr (h.lt i hi)
      rw [List.length_range] at hsize
      obtain rfl : stack = [] := by
        apply List.eq_nil_of_length_eq_zero
        omega
      exact ⟨fun _ => id, h⟩
  | succ fuel ih =>
      cases stack with
      | nil => exact ⟨fun _ => id, h⟩
      | cons i stack =>
          unfold Builder.reach
          have hnew : ∀ t ∈ (targets states i).filter (fun t => decide (t ∉ reached)),
              t ∉ reached := by
            intro t ht
            simpa using (List.mem_filter.mp ht).2
          have hsize := size_insertMany hnew
          simp only
          obtain ⟨hold, hrest⟩ := ih (h.step (htargets i) rfl) (by
            rw [List.length_append]
            rw [List.length_cons] at hfuel
            omega)
          refine ⟨?_, hrest⟩
          intro j hj
          apply hold
          apply OrderedSet.mem_insertMany.mpr
          apply Or.inl hj

end Frontier

/-- What is reached from the initial state contains it and is closed under shifts. -/
theorem frontier_reachable (h : 0 < states.size)
    (htargets : ∀ i, ∀ t ∈ targets states i, t < states.size) :
  0 ∈ reachable states ∧ Frontier states [] (reachable states)
  := by
  have hstart : Frontier states [0] (.singleton 0) := by
    constructor
    · intro i hi
      obtain rfl := List.mem_singleton.mp hi
      apply h
    · intro i hi
      left
      apply hi
  obtain ⟨hold, hrest⟩ := hstart.reach htargets (states.size + 1) (by
    change _ + 1 ≤ _ + 1
    omega)
  exact ⟨hold 0 (List.mem_singleton.mpr rfl), hrest⟩

/-! ### What is kept -/

/-- Two actions do the same, each with the states of its own automaton. -/
inductive SameAction (states states' : Array State) : Action → Action → Prop
  | reduce (r : Nat) : SameAction states states' (.reduce r) (.reduce r)
  | shift {t t' : Nat} {s s' : State} (hs : states[t]? = some s) (hs' : states'[t']? = some s')
      (hk : s'.kernel = s.kernel) : SameAction states states' (.shift t) (.shift t')

/-- Two states have the same kernel and do the same under every column. -/
structure SameState (states states' : Array State) (s s' : State) : Prop where
  kernel : s'.kernel = s.kernel
  accepting : s'.accepting = s.accepting
  actions : ∀ col, Option.Rel (SameAction states states') (s.actions.get? col) (s'.actions.get? col)

namespace SameState

variable {states' : Array State} {s s' : State} {col : Column}

theorem symm (h : SameState states states' s s') :
  SameState states' states s' s
  where
  kernel := h.kernel.symm
  accepting := h.accepting.symm
  actions col := by
    have hcol := h.actions col
    generalize s.actions.get? col = a at hcol ⊢
    generalize s'.actions.get? col = a' at hcol ⊢
    cases hcol with
    | none => apply Option.Rel.none
    | some hsame =>
        apply Option.Rel.some
        cases hsame with
        | reduce r => apply SameAction.reduce
        | shift hs hs' hk => apply SameAction.shift hs' hs hk.symm

/-- Where one of two states that do the same reduces, the other one does, by the same rule. -/
theorem get?_reduce (h : SameState states states' s s') {r : Nat}
    (hr : s.actions.get? col = some (.reduce r)) :
  s'.actions.get? col = some (.reduce r)
  := by
  have hcol := h.actions col
  rw [hr] at hcol
  generalize s'.actions.get? col = a at hcol ⊢
  cases hcol with
  | some hsame =>
      cases hsame
      rfl

/-- Where one of two states that do the same shifts, the other one does, to a state of the same
kernel. -/
theorem exists_shift (h : SameState states states' s s') {t : Nat}
    (ht : s.actions.get? col = some (.shift t)) :
  ∃ (t' : Nat) (target target' : State), s'.actions.get? col = some (.shift t')
    ∧ states[t]? = some target ∧ states'[t']? = some target' ∧ target'.kernel = target.kernel
  := by
  have hcol := h.actions col
  rw [ht] at hcol
  generalize s'.actions.get? col = a at hcol ⊢
  cases hcol with
  | some hsame =>
      cases hsame with
      | shift hs hs' hk => exact ⟨_, _, _, rfl, hs, hs', hk⟩

end SameState

/-- Looking up in the results of a function that never fails. -/
theorem getElem?_filterMap_of_isSome {α β : Type} {f : α → Option β} {l : List α}
    (h : ∀ a ∈ l, (f a).isSome) (j : Nat) :
  (l.filterMap f)[j]? = l[j]?.bind f
  := by
  induction l generalizing j with
  | nil => simp
  | cons a l ih =>
      obtain ⟨b, hb⟩ := Option.isSome_iff_exists.mp (h a List.mem_cons_self)
      rw [List.filterMap_cons_some hb]
      cases j with
      | zero => simp [hb]
      | succ j =>
          simp only [List.getElem?_cons_succ]
          apply ih
          intro a ha
          apply h a (List.mem_cons_of_mem _ ha)

/-- A state whose shifts lead to states that are there does the same as itself. -/
theorem sameState_refl {i : Nat} {s : State} (hs : states[i]? = some s)
    (htargets : ∀ t ∈ targets states i, t < states.size) :
  SameState states states s s
  := by
  refine ⟨rfl, rfl, ?_⟩
  intro col
  cases ha : s.actions.get? col with
  | none => apply Option.Rel.none
  | some a =>
      apply Option.Rel.some
      cases a with
      | reduce r => apply SameAction.reduce
      | shift t =>
          have ht := htargets t (mem_targets.mpr ⟨s, col, hs, ha⟩)
          apply SameAction.shift (Array.getElem?_eq_getElem ht) (Array.getElem?_eq_getElem ht) rfl

/-- The place of a number in a list, by which it is renumbered. -/
theorem getElem?_of_idxOf? {kept : List Nat} {t : Nat} (ht : t ∈ kept) :
  kept[(kept.idxOf? t).getD t]? = some t
  := by
  obtain ⟨t', ht'⟩ : ∃ t', kept.idxOf? t = some t' := by
    rw [← Option.isSome_iff_exists, List.isSome_idxOf?]
    apply ht
  obtain ⟨hlt, heq, -⟩ := List.idxOf?_eq_some_iff.mp ht'
  rw [ht', Option.getD_some, List.getElem?_eq_getElem hlt, heq]

section Keep

variable {kept : List Nat} (hkept : ∀ i ∈ kept, i < states.size)

include hkept

/-- The state at a place of the list, renumbered. -/
theorem getElem?_keepStates (j : Nat) :
  (keepStates states kept)[j]? = (kept[j]?.bind (fun i => states[i]?)).map
    (fun s => { s with index := j, actions := s.actions.map (renumberAction kept) })
  := by
  rw [keepStates, Array.getElem?_mapIdx, List.getElem?_toArray, getElem?_filterMap_of_isSome]
  intro i hi
  rw [Array.getElem?_eq_getElem (hkept i hi)]
  rfl

/-- A renumbered state does the same if the targets of its shifts are kept. -/
theorem sameState_keepStates {i : Nat} {s : State} (hs : states[i]? = some s)
    (htargets : ∀ t ∈ targets states i, t ∈ kept) (j : Nat) :
  SameState states (keepStates states kept) s
    { s with index := j, actions := s.actions.map (renumberAction kept) }
  := by
  refine ⟨rfl, rfl, ?_⟩
  intro col
  rw [OrderedMap.get?_map]
  cases ha : s.actions.get? col with
  | none => apply Option.Rel.none
  | some a =>
      apply Option.Rel.some
      cases a with
      | reduce r => apply SameAction.reduce
      | shift t =>
          have ht := htargets t (mem_targets.mpr ⟨s, col, hs, ha⟩)
          have htarget := Array.getElem?_eq_getElem (hkept t ht)
          apply SameAction.shift htarget
          · rw [getElem?_keepStates hkept, getElem?_of_idxOf? ht, Option.bind_some, htarget,
              Option.map_some]
          · rfl

end Keep

/-- The states of a list are those that are reached, in their old order. -/
structure Keeps (states : Array State) (kept : List Nat) : Prop where
  mem : ∀ i, i ∈ kept ↔ i ∈ reachable states
  nodup : kept.Nodup
  first : kept[0]? = some 0

/-- The old numbers of the states that are kept, in their order. -/
def keptNumbers (states : Array State) : List Nat :=
  (List.range states.size).filter (fun i => decide (i ∈ reachable states))

theorem keeps_keptNumbers (h : 0 < states.size)
    (htargets : ∀ i, ∀ t ∈ targets states i, t < states.size) :
  Keeps states (keptNumbers states)
  := by
  obtain ⟨hzero, hfrontier⟩ := frontier_reachable h htargets
  refine ⟨?_, ?_, ?_⟩
  · intro i
    rw [keptNumbers, List.mem_filter, List.mem_range, decide_eq_true_eq]
    constructor
    · apply And.right
    · intro hi
      exact ⟨hfrontier.lt i hi, hi⟩
  · apply List.nodup_range.filter
  · obtain ⟨n, hn⟩ := Nat.exists_eq_succ_of_ne_zero (Nat.ne_of_gt h)
    rw [keptNumbers, hn, List.range_succ_eq_map, List.filter_cons_of_pos (by simpa using hzero)]
    rfl

/-- If as many states are kept as there are, they are all of them. -/
theorem keptNumbers_eq_range (h : (keptNumbers states).length = states.size) :
  keptNumbers states = List.range states.size
  := by
  apply List.filter_eq_self.mpr
  apply List.length_filter_eq_length_iff.mp
  apply h.trans List.length_range.symm

theorem dropUnreachable_eq (states : Array State) :
  dropUnreachable states
    = if (keptNumbers states).length = states.size then states
      else keepStates states (keptNumbers states)
  := rfl

/-- Either all states are reached and stay as they are, or those that are reached are kept. -/
theorem dropUnreachable_cases (h : 0 < states.size)
    (htargets : ∀ i, ∀ t ∈ targets states i, t < states.size) :
  (dropUnreachable states = states ∧ ∀ i < states.size, i ∈ reachable states)
    ∨ ∃ kept, Keeps states kept ∧ dropUnreachable states = keepStates states kept
  := by
  have hkept := keeps_keptNumbers h htargets
  rw [dropUnreachable_eq]
  split
  · next hlength =>
    left
    use rfl
    intro i hi
    rw [← hkept.mem, keptNumbers_eq_range hlength]
    apply List.mem_range.mpr hi
  · exact Or.inr ⟨_, hkept, rfl⟩

/-- The states that are kept do what they did, and the initial state stays the first. -/
theorem dropUnreachable_spec (h : 0 < states.size)
    (htargets : ∀ i, ∀ t ∈ targets states i, t < states.size) :
  0 < (dropUnreachable states).size
    ∧ ∀ (j : Nat) (s' : State), (dropUnreachable states)[j]? = some s' →
        ∃ (i : Nat) (s : State), (j = 0 → i = 0) ∧ states[i]? = some s
          ∧ SameState states (dropUnreachable states) s s'
  := by
  obtain ⟨-, hfrontier⟩ := frontier_reachable h htargets
  rcases dropUnreachable_cases h htargets with ⟨heq, -⟩ | ⟨kept, hkept, heq⟩
  · -- nothing is dropped
    rw [heq]
    use h
    intro j s hs
    use j, s, id, hs
    apply sameState_refl hs (htargets j)
  · rw [heq]
    have hlt : ∀ i ∈ kept, i < states.size := fun i hi => hfrontier.lt i ((hkept.mem i).mp hi)
    have hget := getElem?_keepStates hlt
    constructor
    · have h0 := hget 0
      rw [hkept.first, Option.bind_some, Array.getElem?_eq_getElem h, Option.map_some] at h0
      apply (Array.getElem?_eq_some_iff.mp h0).1
    · intro j s' hs'
      rw [hget] at hs'
      obtain ⟨s, hs, rfl⟩ := Option.map_eq_some_iff.mp hs'
      obtain ⟨i, hi, hs⟩ := Option.bind_eq_some_iff.mp hs
      refine ⟨i, s, ?_, hs, ?_⟩
      · rintro rfl
        rw [hkept.first] at hi
        apply (Option.some.inj hi).symm
      · apply sameState_keepStates hlt hs
        intro t ht
        have hi' := (hkept.mem i).mp (List.mem_of_getElem? hi)
        apply (hkept.mem t).mpr (hfrontier.mem_of_mem_targets hi' ht)

end Builder

end CaptureLR

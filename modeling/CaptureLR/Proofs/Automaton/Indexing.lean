import CaptureLR.Proofs.Automaton.Ending

/-!
# The index of cores

Kernels have their cores in strict order, so states of the same cores have the same list of cores,
and the index finds them by this list: it has the numbers of all of them, oldest first. A kernel is
inserted where a scan of all states would put it. This is so in the middle of an expansion too, and
whatever was inserted and merged before.
-/

namespace CaptureLR

namespace Builder

variable {startRule : Nat} {g : Grammar} {b b' : Builder} {i : Nat} {k : List Item}
  {lane : List Column}

/-! ### Builders in the middle of an expansion -/

/-- The builders that come about when kernels are inserted, actions of states are changed and the
state that comes next is taken, in whatever order. -/
inductive Arises (startRule : Nat) : Builder → Prop
  | initial : Arises startRule (.initial startRule)
  | insert {b : Builder} (h : Arises startRule b) (items : List Item) (lane : List Column) :
      Arises startRule (b.insert startRule (kernelOf items) lane).1
  | alter {b : Builder} (h : Arises startRule b) (i : Nat) (f : Actions → Actions) :
      Arises startRule (b.alter i f)
  | pop {b b' : Builder} {i : Nat} (h : Arises startRule b) (hp : b.pop = some (i, b')) :
      Arises startRule b'

/-- An expansion inserts the kernels of successors and changes the actions of one state. -/
theorem Arises.expand (h : Arises startRule b) (he : b.expand g startRule i = .ok b') :
  Arises startRule b'
  := by
  apply expand_induction_successors (P := Arises startRule) _ _ h he
  · intro b f hb
    apply hb.alter
  · intro s _ b x _ hb
    apply hb.insert

/-- The construction comes by none but these. -/
theorem Reached.arises (h : Reached g startRule b) :
  Arises startRule b
  := by
  induction h with
  | initial => exact .initial
  | step _ hp he ih => apply (ih.pop hp).expand he

theorem Steps.reached {n : Nat} (h : Steps g startRule n b b') (hb : Reached g startRule b) :
  Reached g startRule b'
  := by
  induction h with
  | refl => apply hb
  | step hp he _ ih => apply ih (hb.step hp he)

theorem Reached.run (h : Reached g startRule b) {fuel : Nat}
    (hrun : (b.run g startRule fuel).toOption = some b') :
  Reached g startRule b'
  := by
  have hsteps := run_steps g startRule fuel b
  cases heq : b.run g startRule fuel with
  | error halt =>
      rw [heq] at hrun
      cases hrun
  | ok b₁ =>
      rw [heq] at hrun hsteps
      cases hrun
      obtain ⟨n, -, hsteps, -⟩ := hsteps
      apply hsteps.reached h

/-! ### The numbers of states with some cores -/

/-- The cores of the states, in the order of the states. -/
def coreLists (b : Builder) : List (List Core) := b.states.toList.map (fun s => coresOf s.kernel)

/-- The numbers of the states with some cores, oldest first. -/
def statesWith (b : Builder) (cores : List Core) : List Nat := b.coreLists.idxsOf cores

/-- Changing an element changes nothing about which all that is asked stays the same. -/
theorem map_modify {α β : Type} {φ : α → β} {f : α → α} (hf : ∀ a, φ (f a) = φ a) (xs : Array α)
    (i : Nat) :
  (xs.modify i f).toList.map φ = xs.toList.map φ
  := by
  apply List.ext_getElem?
  intro j
  rw [Array.toList_modify, List.getElem?_map, List.getElem?_map, List.getElem?_modify]
  by_cases hij : i = j
  · cases xs.toList[j]? <;> simp [hij, hf]
  · simp [hij]

theorem coreLists_merge (b : Builder) (i : Nat) (k : List Item) :
  (b.merge i k).coreLists = b.coreLists
  := by
  cases hs : b.states[i]? with
  | none => rw [merge, hs]
  | some s =>
      rw [coreLists, states_merge_eq hs]
      apply map_modify
      intro s
      apply cores_mergeFollows

theorem coreLists_alter (b : Builder) (i : Nat) (f : Actions → Actions) :
  (b.alter i f).coreLists = b.coreLists
  := by
  apply map_modify
  intro s
  rfl

theorem coreLists_push (b : Builder) (startRule : Nat) (k : List Item) (lane : List Column) :
  (b.push startRule k lane).coreLists = b.coreLists ++ [coresOf k]
  := by
  rw [coreLists, coreLists, states_push, Array.toList_push, List.map_append, List.map_singleton]

theorem length_coreLists (b : Builder) :
  b.coreLists.length = b.states.size
  := by
  rw [coreLists, List.length_map, Array.length_toList]

/-- The state that is added comes last among those with its cores. -/
theorem statesWith_push (b : Builder) (startRule : Nat) (k : List Item) (lane : List Column)
    (cores : List Core) :
  (b.push startRule k lane).statesWith cores
    = if cores = coresOf k then b.statesWith cores ++ [b.states.size] else b.statesWith cores
  := by
  rw [statesWith, coreLists_push, List.idxsOf, List.findIdxs_append, List.findIdxs_singleton,
    length_coreLists, Nat.zero_add]
  by_cases h : cores = coresOf k
  · rw [if_pos h, if_pos (beq_iff_eq.mpr h.symm)]
    rfl
  · have hne : ¬ (coresOf k == cores) = true := fun he => h (beq_iff_eq.mp he).symm
    rw [if_neg h, if_neg hne, List.append_nil]
    rfl

/-! ### What the index has -/

/-- All kernels are in strict order, and the index lists the states with some cores, oldest first,
if there are such states. -/
structure Indexed (b : Builder) : Prop where
  ordered : ∀ s ∈ b.states, Ordered s.kernel
  byCores : ∀ cores, (b.byCores.get? cores).getD [] = b.statesWith cores
  nonempty : ∀ cores, b.byCores.get? cores ≠ some []

theorem ordered_iff_coreLists :
  (∀ s ∈ b.states, Ordered s.kernel) ↔ ∀ cores ∈ b.coreLists, cores.Pairwise Core.Before
  := by
  simp [coreLists, Ordered]

namespace Indexed

/-- It depends on the cores of the states only, and on the index. -/
theorem congr (h : b.Indexed) (hcores : b'.coreLists = b.coreLists)
    (hindex : b'.byCores = b.byCores) :
  b'.Indexed
  where
  ordered := by
    rw [ordered_iff_coreLists, hcores, ← ordered_iff_coreLists]
    apply h.ordered
  byCores := by
    rw [hindex]
    simp only [statesWith, hcores]
    apply h.byCores
  nonempty := by
    rw [hindex]
    apply h.nonempty

theorem empty :
  Builder.empty.Indexed
  := ⟨by simp [Builder.empty], fun _ => rfl, fun _ => nofun⟩

theorem push (h : b.Indexed) (hk : Ordered k) :
  (b.push startRule k lane).Indexed
  where
  ordered s hs := by
    obtain ⟨i, hi⟩ := Array.mem_iff_getElem?.mp hs
    rcases states_push_cases hi with ⟨-, rfl⟩ | hi
    · apply hk
    · apply h.ordered s (Array.mem_of_getElem? hi)
  byCores cores := by
    rw [statesWith_push, ← h.byCores]
    simp only [Builder.push, OrderedMap.get?_insert]
    by_cases hc : cores = coresOf k
    · subst hc
      rw [if_pos rfl, if_pos rfl, Option.getD_some]
    · rw [if_neg hc, if_neg hc]
  nonempty cores := by
    simp only [Builder.push, OrderedMap.get?_insert]
    split
    · simp
    · apply h.nonempty

theorem insert (h : b.Indexed) (hk : Ordered k) :
  (b.insert startRule k lane).1.Indexed
  := by
  simp only [Builder.insert]
  split
  · next i _ =>
    apply h.congr (coreLists_merge b i k)
    unfold merge
    cases b.states[i]? <;> rfl
  · apply h.push hk

theorem pop (h : b.Indexed) (hp : b.pop = some (i, b')) :
  b'.Indexed
  := by
  obtain ⟨dirty, -, rfl⟩ | ⟨-, -, -, rfl⟩ := pop_cases hp
  · exact h.congr rfl rfl
  · exact h.congr rfl rfl

end Indexed

/-- What the operations of a construction lead to is indexed. -/
theorem Arises.indexed (h : Arises startRule b) :
  b.Indexed
  := by
  induction h with
  | initial => apply Indexed.empty.insert (ordered_kernelOf _)
  | insert _ items lane ih => apply ih.insert (ordered_kernelOf items)
  | @alter b _ i f ih => apply ih.congr (coreLists_alter b i f) rfl
  | pop _ hp ih => apply ih.pop hp

/-! ### Scanning all states -/

/-- The builder with a state for a kernel, and the number of the state: the first of all states that
the kernel may be merged with, or a new one. -/
def insertScanning (startRule : Nat) (b : Builder) (k : List Item) (lane : List Column) :
    Builder × Nat :=
  match b.states.findIdx? (fun s => weaklyCompatible s.kernel k) with
  | some i => (b.merge i k, i)
  | none => (b.push startRule k lane, b.states.size)

/-- To seek the first place of something, it is enough to go through the places of what it can
be. -/
theorem find?_findIdxs {α : Type} {p r : α → Bool} {q : Nat → Bool} {xs : List α}
    (hr : ∀ x ∈ xs, r x = true → p x = true) (hq : ∀ i x, xs[i]? = some x → q i = r x) :
  (xs.findIdxs p).find? q = xs.findIdx? r
  := by
  cases hfirst : xs.findIdx? r with
  | none =>
      rw [List.findIdx?_eq_none_iff] at hfirst
      rw [List.find?_eq_none]
      intro i hi
      obtain ⟨hlt, -⟩ := List.mem_findIdxs_iff_exists_getElem_pos.mp hi
      rw [hq i _ (List.getElem?_eq_getElem hlt), hfirst _ (List.getElem_mem hlt)]
      exact Bool.false_ne_true
  | some i =>
      obtain ⟨hlt, hri, hbefore⟩ := List.findIdx?_eq_some_iff_getElem.mp hfirst
      have hmem : i ∈ xs.findIdxs p :=
        List.mem_findIdxs_iff_exists_getElem_pos.mpr ⟨hlt, hr _ (List.getElem_mem hlt) hri⟩
      obtain ⟨before, after, heq⟩ := List.append_of_mem hmem
      rw [List.find?_eq_some_iff_append]
      refine ⟨?_, before, after, heq, ?_⟩
      · rw [hq i _ (List.getElem?_eq_getElem hlt), hri]
      · -- the places ascend, so those in front are smaller
        intro j hj
        have hascend : (xs.findIdxs p).Pairwise (· < ·) := List.pairwise_findIdxs
        rw [heq, List.pairwise_append] at hascend
        have hji : j < i := hascend.2.2 j hj i List.mem_cons_self
        have hrj := hbefore j hji
        rw [hq j _ (List.getElem?_eq_getElem (Nat.lt_trans hji hlt))]
        simpa using hrj

/-- Among the states of its cores a kernel finds the one that it finds among all states. -/
theorem find?_statesWith (b : Builder) (k : List Item) :
  (b.statesWith (coresOf k)).find? (b.accepts k)
    = b.states.findIdx? (fun s => weaklyCompatible s.kernel k)
  := by
  have hlist : b.states.findIdx? (fun s => weaklyCompatible s.kernel k)
      = b.states.toList.findIdx? (fun s => weaklyCompatible s.kernel k) := List.findIdx?_toArray _ _
  rw [hlist, statesWith, coreLists, List.idxsOf, List.findIdxs_map]
  apply find?_findIdxs
  · intro s _ hs
    apply beq_iff_eq.mpr (cores_eq_of_weaklyCompatible hs)
  · intro i s hs
    rw [Array.getElem?_toList] at hs
    rw [accepts, hs]

theorem Indexed.insert_eq (h : b.Indexed) (startRule : Nat) (k : List Item) (lane : List Column) :
  b.insert startRule k lane = b.insertScanning startRule k lane
  := by
  simp only [Builder.insert, h.byCores, find?_statesWith]
  rfl

/-- A scan adds a state exactly if the kernel may be merged with none. -/
theorem size_insertScanning (b : Builder) (startRule : Nat) (k : List Item) (lane : List Column) :
  (b.insertScanning startRule k lane).1.states.size = b.states.size + 1
    ↔ ∀ s ∈ b.states, weaklyCompatible s.kernel k = false
  := by
  rw [← Array.findIdx?_eq_none_iff]
  unfold insertScanning
  cases b.states.findIdx? (fun s => weaklyCompatible s.kernel k) with
  | none => simp [states_push]
  | some i => simp [size_merge]

/-- At any time of a construction, also in the middle of an expansion, kernels have their cores in
strict order, and the index has for each list of cores the states with these cores, oldest first.
So a kernel is merged with the state that a scan of all states would find, and it gets a new state
exactly if it may be merged with none. -/
theorem insert_eq_insertScanning (h : Arises startRule b) :
  (∀ s ∈ b.states, Ordered s.kernel ∧ (coresOf s.kernel).Nodup)
    ∧ (∀ cores, (b.byCores.get? cores).getD [] = b.statesWith cores
        ∧ b.byCores.get? cores ≠ some [])
    ∧ ∀ k lane, b.insert startRule k lane = b.insertScanning startRule k lane
        ∧ ((b.insert startRule k lane).1.states.size = b.states.size + 1
          ↔ ∀ s ∈ b.states, weaklyCompatible s.kernel k = false)
  := by
  have hindexed := h.indexed
  refine ⟨?_, ?_, ?_⟩
  · intro s hs
    exact ⟨hindexed.ordered s hs, (hindexed.ordered s hs).nodup⟩
  · intro cores
    exact ⟨hindexed.byCores cores, hindexed.nonempty cores⟩
  · intro k lane
    rw [hindexed.insert_eq]
    exact ⟨rfl, size_insertScanning b startRule k lane⟩

/-- The end of the construction for the grammar whose states must be kept apart. -/
def crossed : Builder :=
  ((Builder.initial 0).run Grammar.crossed 0 20).toOption.getD (.initial 0)

theorem reached_crossed :
  Reached Grammar.crossed 0 crossed
  := by
  apply Reached.initial.run
  have hsome : ((Builder.initial 0).run Grammar.crossed 0 20).toOption = some crossed := by
    decide +kernel
  apply hsome

/-- The theorem where two states of the same cores were kept apart. -/
theorem insert_eq_insertScanning_crossed :
  Reached Grammar.crossed 0 crossed
    ∧ Arises 0 crossed
    ∧ crossed.statesWith [⟨5, 1⟩, ⟨6, 1⟩] = [6, 9]
    ∧ (∀ s ∈ crossed.states, Ordered s.kernel ∧ (coresOf s.kernel).Nodup)
    ∧ (∀ cores, (crossed.byCores.get? cores).getD [] = crossed.statesWith cores
        ∧ crossed.byCores.get? cores ≠ some [])
    ∧ ∀ k lane, crossed.insert 0 k lane = crossed.insertScanning 0 k lane
        ∧ ((crossed.insert 0 k lane).1.states.size = crossed.states.size + 1
          ↔ ∀ s ∈ crossed.states, weaklyCompatible s.kernel k = false)
  := by
  have harises := reached_crossed.arises
  refine ⟨reached_crossed, harises, ?_, insert_eq_insertScanning harises⟩
  obtain ⟨-, hindex, -⟩ := insert_eq_insertScanning harises
  rw [← (hindex _).1]
  decide +kernel

end Builder

end CaptureLR

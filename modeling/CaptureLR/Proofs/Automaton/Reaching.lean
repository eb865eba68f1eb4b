import CaptureLR.Proofs.Automaton.Agreement
import Mathlib.Logic.Relation

/-!
# Numbers of states and the shifts between them

The states of an automaton that is built carry the numbers of their places, and shifts lead from
the first state to all of them. A state is numbered when it is created, and again when states are
dropped; what is dropped are the states that no sequence of shifts leads to.
-/

open Relation (ReflTransGen)

namespace CaptureLR

namespace Builder

variable {g : Grammar} {startRule : Nat} {b b' : Builder} {states : Array State}

/-! ### Numbers -/

/-- Every state carries the number of its place. -/
def Numbered (states : Array State) : Prop :=
  ∀ (i : Nat) (s : State), states[i]? = some s → s.index = i

namespace Numbered

theorem alter (h : Numbered b.states) (i : Nat) (f : Actions → Actions) :
  Numbered (b.alter i f).states
  := by
  intro j t ht
  obtain ⟨s, actions, hs, rfl, -⟩ := states_alter_cases ht
  apply h j s hs

/-- A new state gets the number of its place, and a merge changes no number. -/
theorem insert (h : Numbered b.states) (k : List Item) (lane : List Column) :
  Numbered (b.insert startRule k lane).1.states
  := by
  intro j t ht
  rcases states_insert_cases ht with ht | ⟨s, hs, -, rfl⟩ | ⟨rfl, rfl⟩
  · apply h j t ht
  · apply h j s hs
  · rfl

theorem run (h : Numbered b.states) {fuel : Nat} (hrun : b.run g startRule fuel = .ok b') :
  Numbered b'.states
  := by
  apply run_induction (P := fun b => Numbered b.states) _ _ h hrun
  · intro b b' i hp hb
    rw [states_pop hp]
    apply hb
  · intro b b' i he hb
    apply expand_induction (P := fun b => Numbered b.states) _ _ hb he
    · intro b i f hb
      apply hb.alter
    · intro b k lane hb
      apply hb.insert

end Numbered

/-! ### Shifts -/

/-- A shift of one state leads to another one. -/
def Leads (states : Array State) (i j : Nat) : Prop :=
  ∃ (s : State) (col : Column), states[i]? = some s ∧ s.actions.get? col = some (.shift j)

theorem leads_iff {i j : Nat} :
  Leads states i j ↔ j ∈ targets states i
  := mem_targets.symm

/-- Following the shifts of the states on a stack comes by nothing that shifts do not lead to. -/
theorem leads_of_mem_reach {fuel : Nat} {stack : List Nat} {reached : OrderedSet Nat}
    (hstack : ∀ i ∈ stack, ReflTransGen (Leads states) 0 i)
    (hreached : ∀ i ∈ reached, ReflTransGen (Leads states) 0 i) :
  ∀ i ∈ reach states fuel stack reached, ReflTransGen (Leads states) 0 i
  := by
  induction fuel generalizing stack reached with
  | zero => apply hreached
  | succ fuel ih =>
      cases stack with
      | nil => apply hreached
      | cons i stack =>
          rw [List.forall_mem_cons] at hstack
          have hfresh : ∀ t ∈ (targets states i).filter (fun t => decide (t ∉ reached)),
              ReflTransGen (Leads states) 0 t := by
            intro t ht
            apply hstack.1.tail (leads_iff.mpr (List.mem_filter.mp ht).1)
          unfold reach
          apply ih
          · intro t ht
            rw [List.mem_append, List.mem_eraseDups] at ht
            rcases ht with ht | ht
            · apply hfresh t ht
            · apply hstack.2 t ht
          · intro t ht
            rcases OrderedSet.mem_insertMany.mp ht with ht | ht
            · apply hreached t ht
            · apply hfresh t ht

theorem leads_of_mem_reachable {i : Nat} (h : i ∈ reachable states) :
  ReflTransGen (Leads states) 0 i
  := by
  have hzero : ∀ i ∈ OrderedSet.singleton 0, ReflTransGen (Leads states) 0 i := by
    intro i hi
    rw [List.mem_singleton.mp hi]
  apply leads_of_mem_reach _ hzero i h
  intro i hi
  apply hzero i hi

section Keep

variable {kept : List Nat} (hkept : Keeps states kept) (hlt : ∀ i ∈ kept, i < states.size)

include hkept hlt

/-- A shift between states that are kept leads from the new place of the one to that of the
other. -/
theorem Leads.keepStates {i j i' j' : Nat} (h : Leads states i j) (hi : kept[i']? = some i)
    (hj : kept[j']? = some j) :
  Leads (Builder.keepStates states kept) i' j'
  := by
  obtain ⟨s, col, hs, ha⟩ := h
  refine ⟨{ s with index := i', actions := s.actions.map (renumberAction kept) }, col, ?_, ?_⟩
  · rw [getElem?_keepStates hlt, hi, Option.bind_some, hs, Option.map_some]
  · have hplace : kept.idxOf? j = some j' := by
      rw [List.idxOf?_eq_some_iff]
      obtain ⟨hlt', heq⟩ := List.getElem?_eq_some_iff.mp hj
      refine ⟨hlt', heq, ?_⟩
      intro k hk hkj
      have hne := hkept.nodup.getElem_inj_iff.mp (hkj.trans heq.symm)
      apply Nat.ne_of_lt hk hne
    rw [OrderedMap.get?_map, ha]
    simp only [Option.map_some, renumberAction, hplace, Option.getD_some]

/-- Shifts lead to every state that is kept, at its new place. -/
theorem leads_keepStates (hclosed : ∀ i ∈ kept, ∀ j, Leads states i j → j ∈ kept) {i j : Nat}
    (hj : kept[j]? = some i) :
  ReflTransGen (Leads (Builder.keepStates states kept)) 0 j
  := by
  -- along the shifts that led to the state at its old place
  have hpath := leads_of_mem_reachable ((hkept.mem i).mp (List.mem_of_getElem? hj))
  have hall : i ∈ kept ∧ ∀ j, kept[j]? = some i →
      ReflTransGen (Leads (Builder.keepStates states kept)) 0 j := by
    clear hj
    induction hpath with
    | refl =>
        use List.mem_of_getElem? hkept.first
        intro j hj
        obtain ⟨hlt₀, heq₀⟩ := List.getElem?_eq_some_iff.mp hkept.first
        obtain ⟨hltj, heqj⟩ := List.getElem?_eq_some_iff.mp hj
        rw [hkept.nodup.getElem_inj_iff.mp (heqj.trans heq₀.symm)]
    | tail _ hstep ih =>
        obtain ⟨hmem, ih⟩ := ih
        use hclosed _ hmem _ hstep
        intro j hj
        obtain ⟨k, hk⟩ := List.mem_iff_getElem?.mp hmem
        apply (ih k hk).tail (hstep.keepStates hkept hlt hk hj)
  apply hall.2 j hj

end Keep

/-- The states that are left carry the numbers of their places, and shifts lead to all of them. -/
theorem dropUnreachable_numbered (h : 0 < states.size) (hnumbered : Numbered states)
    (htargets : ∀ i, ∀ t ∈ targets states i, t < states.size) :
  Numbered (dropUnreachable states)
    ∧ ∀ j < (dropUnreachable states).size, ReflTransGen (Leads (dropUnreachable states)) 0 j
  := by
  obtain ⟨-, hfrontier⟩ := frontier_reachable h htargets
  rcases dropUnreachable_cases h htargets with ⟨heq, hall⟩ | ⟨kept, hkept, heq⟩
  · rw [heq]
    use hnumbered
    intro j hj
    apply leads_of_mem_reachable (hall j hj)
  · rw [heq]
    have hlt : ∀ i ∈ kept, i < states.size := fun i hi => hfrontier.lt i ((hkept.mem i).mp hi)
    have hget := getElem?_keepStates hlt
    constructor
    · intro j s' hs'
      rw [hget] at hs'
      obtain ⟨s, -, rfl⟩ := Option.map_eq_some_iff.mp hs'
      rfl
    · intro j hj
      have hs' := Array.getElem?_eq_getElem hj
      rw [hget] at hs'
      obtain ⟨s, hs, -⟩ := Option.map_eq_some_iff.mp hs'
      obtain ⟨i, hi, -⟩ := Option.bind_eq_some_iff.mp hs
      apply leads_keepStates hkept hlt _ hi
      intro i hi t ht
      apply (hkept.mem t).mpr
      apply hfrontier.mem_of_mem_targets ((hkept.mem i).mp hi) (leads_iff.mp ht)

end Builder

/-! ### Automata -/

namespace Automaton

variable {g : Grammar} {startRule : Nat} {a : Automaton}

/-- An automaton that is built consists of the states of a finished construction that are
reachable. -/
theorem exists_run_of_build (h : build g startRule = .ok a) :
  ∃ b, Builder.run g startRule g.constructionBound
      (Builder.empty.insert startRule (kernelOf [⟨⟨startRule, 0⟩, endContext⟩]) []).1 = .ok b
    ∧ a = ⟨g, Builder.dropUnreachable b.states, startRule⟩
  := by
  unfold build construct at h
  simp only at h
  split at h
  · next b hb => exact ⟨b, hb, (Except.ok.inj h).symm⟩
  · cases h
  · cases h

/-- In an automaton that is built, every state carries the number of its place, and shifts lead to
it from the first state. -/
theorem numbered_of_build (hg : g.ListsRules) (h : build g startRule = .ok a) :
  Builder.Numbered a.states ∧ ∀ i < a.states.size, ReflTransGen (Builder.Leads a.states) 0 i
  := by
  obtain ⟨b, hb, rfl⟩ := exists_run_of_build h
  have hrun := (Builder.invariant_initial g startRule).run hg g.constructionBound
  rw [hb] at hrun
  obtain ⟨hinvariant, hpop⟩ := hrun
  have hempty : Builder.Numbered Builder.empty.states := by
    intro i s hs
    cases hs
  have hnumbered := Builder.Numbered.run (hempty.insert _ _) hb
  obtain ⟨s₀, hs₀, -⟩ := Builder.statesWiden_run hb 0 _ rfl
  apply Builder.dropUnreachable_numbered (Array.getElem?_eq_some_iff.mp hs₀).1 hnumbered
  intro i t
  apply hinvariant.lt_of_mem_targets (Builder.done_of_pop_eq_none hpop).2

end Automaton

end CaptureLR

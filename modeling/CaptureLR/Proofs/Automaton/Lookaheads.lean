import CaptureLR.Proofs.Automaton.Paths
import CaptureLR.Proofs.Automaton.Harmless

/-!
# No lookahead is made up

A lookahead in the kernel of a state is that of a canonical state with the same cores, whatever
states are expanded, in whatever order and however often, and whatever weakly compatible states
are merged. So a state expects no more than all canonical states of its cores together.
-/

namespace CaptureLR

variable {g : Grammar} {startRule : Nat} {b b' : Builder} {s : State} {k : List Item}

/-! ### Lookaheads of merged states -/

/-- What a core is followed by in one of the canonical states that have just the given cores in
their kernels: its lookaheads if all of these states are merged. -/
def Grammar.unitedLookaheads (g : Grammar) (startRule : Nat) (cores : List Core) (c : Core) :
    Set Lookahead :=
  {l | ∃ path, (∀ d, AtKernel g startRule path d ↔ d ∈ cores) ∧ Expects g startRule path c l}

/-- The lookaheads of a kernel are those of canonical states that have its cores. -/
def State.IsGrounded (g : Grammar) (startRule : Nat) (s : State) : Prop :=
  ∀ i ∈ s.kernel, ∀ l ∈ i.follow,
    ∃ path, s.IsBehind g startRule path ∧ Expects g startRule path i.core l

/-- A kernel composed of canonical kernels has no lookaheads but theirs. -/
theorem State.isGrounded_of_isKernel (h : IsKernel g startRule s.kernel) :
  s.IsGrounded g startRule
  := by
  intro i hi l hl
  obtain ⟨paths, hp⟩ := h.composed
  obtain ⟨path, hpath, he⟩ := (hp.grants i.core l).mp ⟨i, hi, rfl, hl⟩
  use path, hp.cores path hpath, he

/-- A grounded state expects nothing that the merge of all canonical states of its cores does not
expect. -/
theorem State.IsGrounded.follow_subset (h : s.IsGrounded g startRule) {i : Item}
    (hi : i ∈ s.kernel) :
  {l | l ∈ i.follow} ⊆ g.unitedLookaheads startRule (coresOf s.kernel) i.core
  := by
  intro l hl
  apply h i hi l hl

/-! ### Expanding in any order -/

namespace Builder

/-- The builders that expanding any states in any order comes by. A state may be expanded again and
again, also if it is abandoned later; what a builder keeps besides its states is left open. -/
inductive Explored (g : Grammar) (startRule : Nat) : Builder → Prop
  | initial : Explored g startRule
      (Builder.empty.insert startRule (kernelOf [⟨⟨startRule, 0⟩, endContext⟩]) []).1
  | expand {b b' : Builder} {i : Nat} (h : Explored g startRule b)
      (he : b.expand g startRule i = .ok b') :
      Explored g startRule b'
  | reorder {b b' : Builder} (h : Explored g startRule b) (hs : b'.states = b.states) :
      Explored g startRule b'

/-- The construction takes the states in one of the orders. -/
theorem Reached.explored (h : Reached g startRule b) :
  Explored g startRule b
  := by
  induction h with
  | initial => exact .initial
  | step _ hp he ih => exact .expand (.reorder ih (states_pop hp)) he

/-- What holds of all states, whatever is expanded: it holds of a state however its actions change,
and still after a merge, if the inserted kernel and its lane are of the right kind. These are of that
kind if they are the initial ones or a symbol leads to them from a state of which it holds. -/
theorem Explored.forall_states {P : State → Prop} {Q : List Item → List Column → Prop}
    (hactions : ∀ s actions, P s → P { s with actions })
    (hmerge : ∀ s k lane, P s → Q k lane → weaklyCompatible s.kernel k = true →
      P { s with kernel := mergeFollows s.kernel k })
    (hnew : ∀ s : State, Q s.kernel s.lane → P s)
    (hinitial : Q (kernelOf [⟨⟨startRule, 0⟩, endContext⟩]) [])
    (hsuccessor : ∀ s x, P s → Shifts g (g.closure s.kernel) x →
      Q (successorKernel g s.kernel x) (s.lane ++ [x.toColumn]))
    (h : Explored g startRule b) :
  ∀ s ∈ b.states, P s
  := by
  have hinsert : ∀ (b : Builder) (k : List Item) (lane : List Column), Q k lane →
      (∀ s ∈ b.states, P s) → ∀ s ∈ (b.insert startRule k lane).1.states, P s := by
    intro b k lane hk hb t ht
    obtain ⟨j, hj⟩ := Array.mem_iff_getElem?.mp ht
    rcases states_insert_cases hj with hj | ⟨s, hs, hw, rfl⟩ | ⟨-, rfl⟩
    · apply hb t (Array.mem_of_getElem? hj)
    · apply hmerge s k lane (hb s (Array.mem_of_getElem? hs)) hk hw
    · apply hnew _ hk
  induction h with
  | initial =>
      apply hinsert _ _ _ hinitial
      intro s hs
      simp [Builder.empty] at hs
  | @expand b b' i _ he ih =>
      apply expand_induction_successors (P := fun b => ∀ s ∈ b.states, P s) _ _ ih he
      · intro b f hb t ht
        obtain ⟨j, hj⟩ := Array.mem_iff_getElem?.mp ht
        obtain ⟨s, actions, hs, rfl, -⟩ := states_alter_cases hj
        apply hactions s actions (hb s (Array.mem_of_getElem? hs))
      · intro s hs b x hx hb
        apply hinsert b _ _ _ hb
        apply hsuccessor s x (ih s (Array.mem_of_getElem? hs)) hx
  | reorder _ hs ih =>
      intro s h
      apply ih s (hs ▸ h)

/-- All states hold kernels composed of canonical kernels. -/
def HoldsKernels (g : Grammar) (startRule : Nat) (b : Builder) : Prop :=
  ∀ s ∈ b.states, IsKernel g startRule s.kernel

/-- Whatever is expanded, all kernels are composed of canonical kernels: the successors of a state
are computed from its kernel as it is when the state is expanded. -/
theorem Explored.holdsKernels (h : Explored g startRule b) (hg : g.ListsRules) :
  b.HoldsKernels g startRule
  := by
  apply Explored.forall_states (P := fun s => IsKernel g startRule s.kernel)
    (Q := fun k _ => IsKernel g startRule k) _ _ _ _ _ h
  · intro s actions hs
    apply hs
  · intro s k _ hs hk hw
    apply hs.merge hk hw
  · intro s hs
    apply hs
  · apply IsKernel.initial
  · intro s x hs hx
    apply hs.successor hg hx

end Builder

/-! ### Lookaheads of an automaton -/

/-- A lookahead in the kernel of a state of an automaton is there in a canonical state that has
the same cores in its kernel, so the state expects no more than the merge of all these canonical
states. This is so after every step of the construction, in whatever order the states are
expanded. -/
theorem Automaton.isGrounded_of_build {a : Automaton} (hg : g.Assembled)
    (h : Automaton.build g startRule = .ok a) :
  (∀ s ∈ a.states, s.IsGrounded g startRule)
    ∧ (∀ s ∈ a.states, ∀ i ∈ s.kernel,
        {l | l ∈ i.follow} ⊆ g.unitedLookaheads startRule (coresOf s.kernel) i.core)
    ∧ ∀ b, Builder.Explored g startRule b → ∀ s ∈ b.states, s.IsGrounded g startRule
  := by
  have hlists := hg.listsRules
  have hfinished : ∀ s ∈ a.states, s.IsGrounded g startRule := by
    intro s hs
    obtain ⟨i, hi⟩ := Array.mem_iff_getElem?.mp hs
    obtain ⟨k, hk⟩ := (Automaton.finished_of_build hlists h).states i s hi
    apply State.isGrounded_of_isKernel hk.isKernel
  refine ⟨hfinished, ?_, ?_⟩
  · intro s hs i hi
    apply (hfinished s hs).follow_subset hi
  · intro b hb s hs
    apply State.isGrounded_of_isKernel (hb.holdsKernels hlists s hs)

/-- The theorem at a grammar with a state that two canonical states were merged into. -/
theorem Automaton.isGrounded_barren :
  Grammar.barren.Assembled
    ∧ Automaton.build Grammar.barren 0 = .ok Automaton.barren
    ∧ (∀ s ∈ Automaton.barren.states, s.IsGrounded Grammar.barren 0)
    ∧ (∀ s ∈ Automaton.barren.states, ∀ i ∈ s.kernel,
        {l | l ∈ i.follow} ⊆ Grammar.barren.unitedLookaheads 0 (coresOf s.kernel) i.core)
    ∧ ∀ b, Builder.Explored Grammar.barren 0 b → ∀ s ∈ b.states, s.IsGrounded Grammar.barren 0
  := by
  use Grammar.assembled_barren, Automaton.build_barren
  apply Automaton.isGrounded_of_build Grammar.assembled_barren Automaton.build_barren

end CaptureLR

import CaptureLR.Proofs.Automaton.Harmless

/-!
# Constructions end

A construction expands the state that comes next until no state is left or the expansion finds a
conflict. However states are created, merged and expanded again on the way, it comes to one of these
two ends after a number of steps that the grammar bounds, and no construction is longer.
-/

namespace CaptureLR

variable {g : Grammar} {startRule : Nat}

namespace Builder

variable {b b' : Builder}

/-- The builder that a construction begins with. -/
def initial (startRule : Nat) : Builder :=
  (empty.insert startRule (kernelOf [⟨⟨startRule, 0⟩, endContext⟩]) []).1

/-! ### Runs as sequences of steps -/

/-- A run follows the steps of the construction. It tells how they end, or that there are as many of
them as the run was allowed. -/
theorem run_steps (g : Grammar) (startRule : Nat) (fuel : Nat) (b : Builder) :
  match b.run g startRule fuel with
  | .ok b' => ∃ n, n < fuel ∧ Steps g startRule n b b' ∧ b'.pop = none
  | .error (.conflict c b') => ∃ n b₁, n < fuel ∧ Steps g startRule n b b₁ ∧ b₁.Fails g startRule c b'
  | .error (.exhausted b') => Steps g startRule fuel b b'
  := by
  induction fuel generalizing b with
  | zero => apply Steps.refl
  | succ fuel ih =>
      unfold run
      cases hp : b.pop with
      | none => exact ⟨0, Nat.succ_pos fuel, .refl b, hp⟩
      | some p =>
          obtain ⟨state, b₁⟩ := p
          cases he : b₁.expand g startRule state with
          | error e =>
              obtain ⟨c, b'⟩ := e
              simp only [he]
              exact ⟨0, b, Nat.succ_pos fuel, .refl b, state, b₁, hp, he⟩
          | ok b₂ =>
              simp only [he]
              have hrest := ih b₂
              cases hrun : b₂.run g startRule fuel with
              | ok b' =>
                  rw [hrun] at hrest
                  obtain ⟨n, hn, hsteps, hdone⟩ := hrest
                  exact ⟨n + 1, Nat.succ_lt_succ hn, .step hp he hsteps, hdone⟩
              | error halt =>
                  rw [hrun] at hrest
                  cases halt with
                  | conflict c b' =>
                      obtain ⟨n, b₃, hn, hsteps, hfails⟩ := hrest
                      exact ⟨n + 1, b₃, Nat.succ_lt_succ hn, .step hp he hsteps, hfails⟩
                  | exhausted b' => exact .step hp he hrest

/-- Where a construction ends there are no more steps: nothing comes next, or it has a conflict. -/
def Ends (g : Grammar) (startRule : Nat) (b : Builder) : Prop :=
  b.pop = none ∨ ∃ c b', b.Fails g startRule c b'

/-- What comes next is determined, so no construction goes on behind its end. -/
theorem Steps.le_of_ends {m n : Nat} {b₁ b₂ : Builder} (h : Steps g startRule m b b₁)
    (h' : Steps g startRule n b b₂) (hends : b₂.Ends g startRule) :
  m ≤ n
  := by
  induction h generalizing n with
  | refl => apply Nat.zero_le
  | step hp he _ ih =>
      cases h' with
      | refl =>
          rcases hends with hnone | ⟨c, b', state, b₁, hp', he'⟩
          · cases hp.symm.trans hnone
          · cases hp.symm.trans hp'
            cases he.symm.trans he'
      | step hp' he' h' =>
          cases hp.symm.trans hp'
          cases he.symm.trans he'
          apply Nat.succ_le_succ (ih h')

end Builder

/-! ### The end of a construction -/

/-- A construction ends after a bounded number of steps, with no state left or with a conflict, and
this is what is told of it. No sequence of its steps is longer. -/
theorem Automaton.construct_ends (hg : g.Assembled) (hr : startRule < g.rules.size) :
  ∃ n b, n < g.constructionBound ∧ Builder.Steps g startRule n (.initial startRule) b
    ∧ (∀ m b', Builder.Steps g startRule m (.initial startRule) b' → m ≤ n)
    ∧ ((b.pop = none ∧ construct g startRule
          = ⟨b.states.size, ⟨g, Builder.dropUnreachable b.states, startRule⟩, none⟩)
      ∨ ∃ c b', b.Fails g startRule c b'
          ∧ construct g startRule = ⟨b'.states.size, ⟨g, b'.states, startRule⟩, some (some c)⟩)
  := by
  have hrun := Builder.run_steps g startRule g.constructionBound (.initial startRule)
  have hhalts := (Builder.invariant_initial g startRule).run_halts hg.listsRules hr
    g.constructionBound (Nat.add_assoc _ _ _ ▸ Nat.le_add_right _ _)
  have hconstruct : construct g startRule
      = match (Builder.initial startRule).run g startRule g.constructionBound with
        | .ok b =>
            ⟨b.states.size, ⟨g, Builder.dropUnreachable b.states, startRule⟩, none⟩
        | .error (.conflict c b) => ⟨b.states.size, ⟨g, b.states, startRule⟩, some (some c)⟩
        | .error (.exhausted b) => ⟨b.states.size, ⟨g, b.states, startRule⟩, some none⟩ := rfl
  cases heq : (Builder.initial startRule).run g startRule g.constructionBound with
  | ok b =>
      rw [heq] at hrun
      obtain ⟨n, hn, hsteps, hdone⟩ := hrun
      refine ⟨n, b, hn, hsteps, ?_, Or.inl ⟨hdone, ?_⟩⟩
      · intro m b' h
        apply h.le_of_ends hsteps (Or.inl hdone)
      · rw [hconstruct, heq]
  | error halt =>
      cases halt with
      | conflict c b' =>
          rw [heq] at hrun
          obtain ⟨n, b, hn, hsteps, hfails⟩ := hrun
          refine ⟨n, b, hn, hsteps, ?_, Or.inr ⟨c, b', hfails, ?_⟩⟩
          · intro m b' h
            apply h.le_of_ends hsteps (Or.inr ⟨_, _, hfails⟩)
          · rw [hconstruct, heq]
      | exhausted b => exact absurd heq (hhalts b)

/-- The construction for the grammar whose states must be kept apart ends. -/
theorem Automaton.construct_ends_crossed :
  Grammar.crossed.Assembled ∧ 0 < Grammar.crossed.rules.size
    ∧ ∃ n b, n < Grammar.crossed.constructionBound
      ∧ Builder.Steps Grammar.crossed 0 n (.initial 0) b
      ∧ (∀ m b', Builder.Steps Grammar.crossed 0 m (.initial 0) b' → m ≤ n)
      ∧ ((b.pop = none ∧ construct Grammar.crossed 0
            = ⟨b.states.size, ⟨Grammar.crossed, Builder.dropUnreachable b.states, 0⟩, none⟩)
        ∨ ∃ c b', b.Fails Grammar.crossed 0 c b'
            ∧ construct Grammar.crossed 0
              = ⟨b'.states.size, ⟨Grammar.crossed, b'.states, 0⟩, some (some c)⟩)
  := by
  have hr : 0 < Grammar.crossed.rules.size := by decide +kernel
  exact ⟨Grammar.assembled_crossed, hr, Automaton.construct_ends Grammar.assembled_crossed hr⟩

end CaptureLR

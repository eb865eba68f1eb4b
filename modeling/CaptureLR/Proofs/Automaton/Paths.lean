import CaptureLR.Proofs.Automaton.Agreement
import CaptureLR.Proofs.Automaton.Expecting

/-!
# States and the ways to them

A state of a finished automaton stands behind a path if it has the cores of the canonical state
that the path leads to. Its actions then do only what the cores allow, and shifts lead to states
behind longer paths. If no kernel is ever mute, the states also know all lookaheads of the
canonical states, and they do all that is called for.
-/

namespace CaptureLR

variable {g : Grammar} {startRule : Nat} {a : Automaton} {states : Array State} {s : State}
  {k : List Item} {path : List Symbol} {c : Core} {l : Lookahead} {x : Symbol} {t : Nat}

/-- A state has the cores of the canonical state that a path leads to. -/
def State.IsBehind (g : Grammar) (startRule : Nat) (path : List Symbol) (s : State) : Prop :=
  ∀ c, AtKernel g startRule path c ↔ c ∈ coresOf s.kernel

/-- A state has the lookaheads of the canonical state that a path leads to. -/
def State.Knows (g : Grammar) (startRule : Nat) (path : List Symbol) (s : State) : Prop :=
  ∀ c l, Expects g startRule path c l → Grants s.kernel c l

namespace State

theorem IsBehind.calledFor_iff (h : s.IsBehind g startRule path) :
  CalledFor g s.kernel c ↔ AtClosure g startRule path c
  := (atClosure_iff h).symm

theorem Knows.followedBy (h : s.Knows g startRule path) (hb : s.IsBehind g startRule path)
    (he : ExpectsInside g startRule path c l) :
  FollowedBy g s.kernel c l
  := by
  rw [followedBy_iff]
  rcases expectsInside_iff.mp he with ⟨d, hd, hp⟩ | ⟨d, hd, hs⟩
  · exact Or.inl ⟨d, h d l hd, hp⟩
  · exact Or.inr ⟨d, hb.calledFor_iff.mpr hd, hs⟩

/-- A state that has the cores of the kernel called for stands behind the longer path. -/
theorem IsBehind.of_cores (h : s.IsBehind g startRule path) (hg : g.ListsRules)
    (hk : Ordered s.kernel) {target : State}
    (hc : coresOf target.kernel = coresOf (successorKernel g s.kernel x)) :
  target.IsBehind g startRule (path ++ [x])
  := by
  intro c
  rw [hc]
  apply atKernel_concat_iff hg hk.nodup h

namespace Finished

/-- A shift leads to a state behind the longer path. -/
theorem isBehind_shift (h : s.Finished g startRule states k) (hg : g.ListsRules)
    (hb : s.IsBehind g startRule path) (ha : s.actions.get? x.toColumn = some (.shift t)) :
  (∃ c, AtClosure g startRule path c ∧ c.symbol? g = some x)
    ∧ ∃ target : State, states[t]? = some target ∧ target.IsBehind g startRule (path ++ [x])
  := by
  have hj := h.justified.widen hg h.born.ordered h.widens
  have hk := h.isKernel.ordered
  obtain ⟨y, hcol, hshift, target, htarget, hcores⟩ := hj.shift _ t ha
  obtain rfl := Symbol.toColumn_injective hcol
  obtain ⟨c, hc, hx⟩ := (shifts_closure hg hk).mp hshift
  use ⟨c, hb.calledFor_iff.mp hc, hx⟩, target, htarget
  apply hb.of_cores hg hk hcores

/-- A reduction is that of a complete rule, under something that the rule expects behind some
path. -/
theorem atClosure_reduce (h : s.Finished g startRule states k) (hg : g.ListsRules)
    (hb : s.IsBehind g startRule path) {r : Nat}
    (ha : s.actions.get? l.toColumn = some (.reduce r)) :
  ∃ d, AtClosure g startRule path ⟨r, d⟩ ∧ (⟨r, d⟩ : Core).symbol? g = none
    ∧ ∃ path', ExpectsInside g startRule path' ⟨r, d⟩ l
  := by
  have hj := h.justified.widen hg h.born.ordered h.widens
  obtain ⟨⟨r, d⟩, l', hc, hs, rfl, hcol⟩ :=
    (reduces_closure hg h.isKernel.ordered).mp (hj.reduce _ r ha)
  obtain rfl := Lookahead.toColumn_injective hcol
  use d, hb.calledFor_iff.mp hc.calledFor, hs
  obtain ⟨paths, hp⟩ := h.isKernel.composed
  obtain ⟨path', -, he⟩ := hp.followedBy_iff.mp hc
  use path'

/-- A state accepts exactly if the start rule is complete behind its path. -/
theorem accepting_iff (h : s.Finished g startRule states k) (hb : s.IsBehind g startRule path) :
  s.accepting = true ↔ AtKernel g startRule path ⟨startRule, 1⟩
  := by
  rw [h.accepting, hb]

/-- What stands behind the dot of a core is shifted, whatever the kernel was when the state was
expanded. -/
theorem exists_target (h : s.Finished g startRule states k) (hg : g.ListsRules)
    (hb : s.IsBehind g startRule path) (hc : AtClosure g startRule path c)
    (hx : c.symbol? g = some x) :
  ∃ t, s.actions.get? x.toColumn = some (.shift t)
  := by
  have hshift : Shifts g (g.closure s.kernel) x :=
    (shifts_closure hg h.isKernel.ordered).mpr ⟨c, hb.calledFor_iff.mpr hc, hx⟩
  obtain ⟨t, -, ht, -⟩ :=
    h.answers.shift x trivial ((h.widens.shifts_iff hg h.born.ordered).mp hshift)
  exact ⟨t, ht⟩

/-- What stands behind the dot of a core is shifted, to a state that expects what is expected by the
cores that have the symbol behind their dots. -/
theorem exists_successor (h : s.Finished g startRule states s.kernel) (hg : g.ListsRules)
    (hb : s.IsBehind g startRule path) (hc : AtClosure g startRule path c)
    (hx : c.symbol? g = some x) :
  ∃ (t : Nat) (target : State), s.actions.get? x.toColumn = some (.shift t)
    ∧ states[t]? = some target ∧ target.IsBehind g startRule (path ++ [x])
    ∧ ∀ d l, FollowedBy g s.kernel d l → d.symbol? g = some x → Grants target.kernel d.advance l
  := by
  have hk := h.isKernel.ordered
  have hshift : Shifts g (g.closure s.kernel) x :=
    (shifts_closure hg hk).mpr ⟨c, hb.calledFor_iff.mpr hc, hx⟩
  obtain ⟨t, target, ht, htarget, hw⟩ := h.answers.shift x trivial hshift
  use t, target, ht, htarget, hb.of_cores hg hk hw.cores
  intro d l hd hx'
  apply hw.grants
  apply (grants_successorKernel hg hk.nodup).mpr
  exact ⟨d, hd, hx', rfl⟩

/-- What stands behind the dot of a core is shifted, and what was known remains known. -/
theorem exists_shift (h : s.Finished g startRule states s.kernel) (hg : g.ListsRules)
    (hb : s.IsBehind g startRule path) (hc : AtClosure g startRule path c)
    (hx : c.symbol? g = some x) :
  ∃ (t : Nat) (target : State), s.actions.get? x.toColumn = some (.shift t)
    ∧ states[t]? = some target ∧ target.IsBehind g startRule (path ++ [x])
    ∧ (s.Knows g startRule path → target.Knows g startRule (path ++ [x]))
  := by
  obtain ⟨t, target, ht, htarget, hb', hgrants⟩ := h.exists_successor hg hb hc hx
  use t, target, ht, htarget, hb'
  intro hknows c l he
  obtain ⟨d, hd, hx', rfl⟩ := expects_concat.mp he
  apply hgrants d l (hknows.followedBy hb hd) hx'

/-- A complete rule is reduced under what it expects. -/
theorem reduce_of_expectsInside (h : s.Finished g startRule states s.kernel) (hg : g.ListsRules)
    (hb : s.IsBehind g startRule path) (hknows : s.Knows g startRule path)
    (he : ExpectsInside g startRule path c l) (hs : c.symbol? g = none) :
  s.actions.get? l.toColumn = some (.reduce c.rule)
  := by
  apply h.answers.reduce
  apply (reduces_closure hg h.isKernel.ordered).mpr
  use c, l, hknows.followedBy hb he

end Finished

end State

namespace Automaton.Finished

/-- The first state stands before all symbols and knows what is expected there. -/
theorem isBehind_nil (h : a.Finished g startRule) :
  ∃ s : State, a.states[0]? = some s ∧ s.IsBehind g startRule [] ∧ s.Knows g startRule []
  := by
  obtain ⟨s, hs, hw⟩ := h.initial
  have hinitial := Composed.initial g startRule
  refine ⟨s, hs, ?_, ?_⟩
  · intro c
    rw [hw.cores]
    apply hinitial.cores [] rfl
  · intro c l he
    apply hw.grants
    apply (hinitial.grants c l).mpr
    use [], rfl

/-- If every core of the canonical states expects something, every state was expanded from its
own kernel. -/
theorem finished_kernel (h : a.Finished g startRule)
    (hexpects : ∀ path c, AtKernel g startRule path c → ∃ l, Expects g startRule path c l) {i : Nat}
    (hs : a.states[i]? = some s) :
  s.Finished g startRule a.states s.kernel
  := by
  obtain ⟨k, hk⟩ := h.states i s hs
  obtain rfl := hk.current.resolve_right (hk.born.not_mute hexpects)
  apply hk

end Automaton.Finished

end CaptureLR

import CaptureLR.Proofs.Automaton.Construction
import CaptureLR.Proofs.Automaton.Dropping
import CaptureLR.Report

/-!
# Actions and item sets of a finished automaton

The actions of a finished state agree with its closure, but for lookaheads that came into its
kernel unnoticed. This happens only where the kernel was mute before: it had a complete item, and
no lookahead was known of any complete item. A state whose reductions were all missing then looks
as if it had not been expanded yet. If every core of the canonical states expects something, no
kernel is ever mute.
-/

namespace CaptureLR

variable {g : Grammar} {startRule : Nat} {a : Automaton} {states states' : Array State}
  {k : List Item} {s s' : State}

/-! ### Finished states -/

/-- A finished state: it was expanded for the last time from a kernel that is still its own or that
is mute. -/
structure State.Finished (g : Grammar) (startRule : Nat) (states : Array State) (s : State)
    (k : List Item) : Prop where
  isKernel : IsKernel g startRule s.kernel
  accepting : s.accepting = true ↔ ⟨startRule, 1⟩ ∈ coresOf s.kernel
  born : IsKernel g startRule k
  widens : Widens k s.kernel
  justified : Justified g states k s.actions
  answers : Answers g states k (fun _ => True) s.actions
  current : s.kernel = k ∨ Mute g k

namespace Builder.SameState

/-- What justifies the actions of a state justifies those of the renumbered one. -/
theorem justified (h : SameState states states' s s') (hj : Justified g states k s.actions) :
  Justified g states' k s'.actions
  where
  reduce col r hr := hj.reduce col r (h.symm.get?_reduce hr)
  shift col t' ht' := by
    obtain ⟨t, target', target, ht, htarget', htarget, hk⟩ := h.symm.exists_shift ht'
    obtain ⟨x, hx, hshift, target, heq, hc⟩ := hj.shift col t ht
    obtain rfl := Option.some.inj (htarget.symm.trans heq)
    exact ⟨x, hx, hshift, target', htarget', hk ▸ hc⟩

/-- What the actions of a state answer those of the renumbered one answer. -/
theorem answers (h : SameState states states' s s') {symbols : Symbol → Prop}
    (ha : Answers g states k symbols s.actions) :
  Answers g states' k symbols s'.actions
  where
  reduce col r hr := h.get?_reduce (ha.reduce col r hr)
  shift x hx hshift := by
    obtain ⟨t, target, ht, htarget, hw⟩ := ha.shift x hx hshift
    obtain ⟨t', target, target', ht', heq, htarget', hk⟩ := h.exists_shift ht
    obtain rfl := Option.some.inj (htarget.symm.trans heq)
    exact ⟨t', target', ht', htarget', hk ▸ hw⟩

end Builder.SameState

namespace Builder.Invariant

variable {b : Builder} {i : Nat}

/-- Shifts lead to states that are there. -/
theorem lt_of_mem_targets (h : b.Invariant g startRule) (hdone : b.states.size ≤ b.next) {t : Nat}
    (ht : t ∈ targets b.states i) :
  t < b.states.size
  := by
  obtain ⟨s, col, hs, ha⟩ := mem_targets.mp ht
  have hlt := Nat.lt_of_lt_of_le (Array.getElem?_eq_some_iff.mp hs).1 hdone
  obtain ⟨k, hk⟩ := h.settled i s hlt hs
  obtain ⟨-, -, -, target, htarget, -⟩ := hk.justified.shift col t ha
  apply (Array.getElem?_eq_some_iff.mp htarget).1

/-- A state that does what a state of a builder with nothing left to do does is finished. -/
theorem exists_finished (h : b.Invariant g startRule) (hpop : b.pop = none)
    (hs : b.states[i]? = some s) (hsame : SameState b.states states' s s') :
  ∃ k, s'.Finished g startRule states' k
  := by
  obtain ⟨hdirty, hdone⟩ := done_of_pop_eq_none hpop
  have hlt := Nat.lt_of_lt_of_le (Array.getElem?_eq_some_iff.mp hs).1 hdone
  obtain ⟨k, hk⟩ := h.settled i s hlt hs
  refine ⟨k, ?_, ?_, hk.isKernel, ?_, hsame.justified hk.justified, hsame.answers hk.answers, ?_⟩
  · rw [hsame.kernel]
    apply h.coherent.isKernel i s hs
  · rw [hsame.accepting, hsame.kernel]
    apply h.coherent.accepting i s hs
  · rw [hsame.kernel]
    apply hk.widens
  · rw [hsame.kernel]
    apply hk.current.resolve_left
    rw [hdirty]
    apply List.not_mem_nil

end Builder.Invariant

/-- The states of a finished automaton are finished, and the first of them is the initial one. -/
structure Automaton.Finished (g : Grammar) (startRule : Nat) (a : Automaton) : Prop where
  grammar_eq : a.grammar = g
  startRule_eq : a.startRule = startRule
  initial : ∃ s : State, a.states[0]? = some s
    ∧ Widens (kernelOf [⟨⟨startRule, 0⟩, endContext⟩]) s.kernel
  states : ∀ (i : Nat) (s : State), a.states[i]? = some s →
    ∃ k, s.Finished g startRule a.states k

/-- An automaton that is built is finished. -/
theorem Automaton.finished_of_build (hg : g.ListsRules) (h : Automaton.build g startRule = .ok a) :
  a.Finished g startRule
  := by
  -- the construction came to an end with a builder of settled states
  have hinitial := Builder.invariant_initial g startRule
  have hrun := hinitial.run hg g.constructionBound
  unfold Automaton.build Automaton.construct at h
  simp only at h
  cases hb : Builder.run g startRule g.constructionBound
      (Builder.empty.insert startRule (kernelOf [⟨⟨startRule, 0⟩, endContext⟩]) []).1 with
  | error halt =>
      rw [hb] at h
      cases halt with
      | conflict c b => cases h
      | exhausted b => cases h
  | ok b =>
      rw [hb] at hrun h
      obtain rfl : ⟨g, Builder.dropUnreachable b.states, startRule⟩ = a := Except.ok.inj h
      obtain ⟨hinvariant, hpop⟩ := hrun
      obtain ⟨s₀, hs₀, hw₀⟩ := Builder.statesWiden_run hb 0 _ rfl
      obtain ⟨hpos, hsame⟩ := Builder.dropUnreachable_spec (Array.getElem?_eq_some_iff.mp hs₀).1
        (fun i t => hinvariant.lt_of_mem_targets (Builder.done_of_pop_eq_none hpop).2)
      refine ⟨rfl, rfl, ?_, ?_⟩
      · have hs := Array.getElem?_eq_getElem hpos
        obtain ⟨i, s, hi, hs', hstate⟩ := hsame 0 _ hs
        rw [hi rfl, hs₀, Option.some.injEq] at hs'
        refine ⟨_, hs, ?_⟩
        rw [hstate.kernel, ← hs']
        apply hw₀
      · intro j s' hs'
        obtain ⟨i, s, -, hs, hstate⟩ := hsame j s' hs'
        apply hinvariant.exists_finished hpop hs hstate

/-! ### Agreement -/

namespace State

/-- The actions of a state agree with the items of its closure: it reduces under what a complete
item expects, it shifts what stands behind a dot, to a state with just the advanced items and all
that they expect, and no column is claimed twice. -/
structure Agrees (g : Grammar) (states : Array State) (s : State) : Prop where
  reduce : ∀ col r, s.actions.get? col = some (.reduce r) ↔ Reduces g (s.closure g) col r
  shift : ∀ col, (∃ t, s.actions.get? col = some (.shift t))
    ↔ ∃ x, col = x.toColumn ∧ Shifts g (s.closure g) x
  target : ∀ x t, s.actions.get? x.toColumn = some (.shift t) →
    ∃ target : State, states[t]? = some target
      ∧ (∀ c, c ∈ coresOf target.kernel
          ↔ ∃ i ∈ s.closure g, i.symbol? g = some x ∧ c = i.core.advance)
      ∧ ∀ i ∈ s.closure g, i.symbol? g = some x →
          ∃ j ∈ target.kernel, j.core = i.core.advance ∧ ∀ l ∈ i.follow, l ∈ j.follow
  apart : ∀ col r, Reduces g (s.closure g) col r →
    (∀ r', Reduces g (s.closure g) col r' → r' = r)
      ∧ ∀ x, Shifts g (s.closure g) x → col ≠ x.toColumn

/-- A lookahead in the closure of a state is missed: a complete item is not reduced under it, or
the state that an item is advanced to does not expect it. -/
inductive Misses (g : Grammar) (states : Array State) (s : State) : Prop
  | reduction {col : Column} {r : Nat} (hr : Reduces g (s.closure g) col r)
      (hno : s.actions.get? col ≠ some (.reduce r)) :
      Misses g states s
  | lookahead {i : Item} {x : Symbol} {t : Nat} {target : State} {l : Lookahead}
      (hi : i ∈ s.closure g) (hx : i.symbol? g = some x)
      (ht : s.actions.get? x.toColumn = some (.shift t)) (htarget : states[t]? = some target)
      (hl : l ∈ i.follow) (hno : ¬ Grants target.kernel i.core.advance l) :
      Misses g states s

/-- Nothing is missed in a state that agrees with its closure. -/
theorem Agrees.not_misses (h : s.Agrees g states) :
  ¬ s.Misses g states
  := by
  intro hmiss
  cases hmiss with
  | reduction hr hno => apply hno ((h.reduce _ _).mpr hr)
  | lookahead hi hx ht htarget hl hno =>
      obtain ⟨target, htarget', -, hgrants⟩ := h.target _ _ ht
      obtain rfl := Option.some.inj (htarget.symm.trans htarget')
      obtain ⟨j, hj, hcore, hfollow⟩ := hgrants _ hi hx
      apply hno ⟨j, hj, hcore, hfollow _ hl⟩

/-- The cores of the kernel that a symbol leads to are those of the closure advanced over it. -/
theorem mem_coresOf_successorKernel_closure (hg : g.ListsRules) (hn : (coresOf s.kernel).Nodup)
    {x : Symbol} {c : Core} :
  c ∈ coresOf (successorKernel g s.kernel x)
    ↔ ∃ i ∈ s.closure g, i.symbol? g = some x ∧ c = i.core.advance
  := by
  rw [mem_coresOf_successorKernel hg hn]
  simp only [← Grammar.mem_coresOf_closure hg hn, mem_coresOf]
  constructor
  · rintro ⟨_, ⟨i, hi, rfl⟩, hx, rfl⟩
    exact ⟨i, hi, hx, rfl⟩
  · rintro ⟨i, hi, hx, rfl⟩
    exact ⟨i.core, ⟨i, hi, rfl⟩, hx, rfl⟩

/-- A finished state in which nothing is missed agrees with its closure. -/
theorem Finished.agrees_of_not_misses (h : s.Finished g startRule states k) (hg : g.ListsRules)
    (hmiss : ¬ s.Misses g states) :
  s.Agrees g states
  := by
  have hborn := h.born.ordered
  have hj := h.justified.widen hg hborn h.widens
  have hn := h.isKernel.ordered.nodup
  have hreduce : ∀ col r, s.actions.get? col = some (.reduce r)
      ↔ Reduces g (s.closure g) col r := by
    intro col r
    constructor
    · apply hj.reduce col r
    · intro hr
      by_contra hno
      apply hmiss (.reduction hr hno)
  have hshift : ∀ x, Shifts g (s.closure g) x →
      ∃ t, s.actions.get? x.toColumn = some (.shift t) := by
    intro x hx
    obtain ⟨t, -, ht, -⟩ := h.answers.shift x trivial ((h.widens.shifts_iff hg hborn).mp hx)
    use t
  refine ⟨hreduce, ?_, ?_, ?_⟩
  · intro col
    constructor
    · rintro ⟨t, ht⟩
      obtain ⟨x, hcol, hx, -⟩ := hj.shift col t ht
      exact ⟨x, hcol, hx⟩
    · rintro ⟨x, rfl, hx⟩
      apply hshift x hx
  · intro x t ht
    obtain ⟨y, hcol, -, target, htarget, hcores⟩ := hj.shift _ t ht
    obtain rfl := Symbol.toColumn_injective hcol
    have hmem : ∀ c, c ∈ coresOf target.kernel
        ↔ ∃ i ∈ s.closure g, i.symbol? g = some x ∧ c = i.core.advance := by
      intro c
      rw [hcores, mem_coresOf_successorKernel_closure hg hn]
    use target, htarget, hmem
    intro i hi hx
    obtain ⟨j, hj, hcore⟩ := mem_coresOf.mp ((hmem _).mpr ⟨i, hi, hx, rfl⟩)
    use j, hj, hcore
    intro l hl
    by_contra hno
    apply hmiss (.lookahead hi hx ht htarget hl _)
    rintro ⟨j', hj', hcore', hl'⟩
    have htn : (coresOf target.kernel).Nodup := by
      rw [hcores]
      apply (ordered_successorKernel g s.kernel x).nodup
    obtain rfl := List.inj_on_of_nodup_map htn hj' hj (hcore'.trans hcore.symm)
    apply hno hl'
  · intro col r hr
    have ha := (hreduce col r).mpr hr
    constructor
    · intro r' hr'
      rw [(hreduce col r').mpr hr', Option.some.injEq, Action.reduce.injEq] at ha
      apply ha
    · rintro x hx rfl
      obtain ⟨t, ht⟩ := hshift x hx
      rw [ht] at ha
      cases ha

/-- A finished state agrees with its closure exactly if no lookahead is missed. -/
theorem Finished.agrees_iff (h : s.Finished g startRule states k) (hg : g.ListsRules) :
  s.Agrees g states ↔ ¬ s.Misses g states
  := by
  constructor
  · apply Agrees.not_misses
  · apply h.agrees_of_not_misses hg

/-- A finished state that agrees with its closure could have been expanded from its own kernel. -/
theorem Finished.of_agrees (h : s.Finished g startRule states k) (hg : g.ListsRules)
    (ha : s.Agrees g states) :
  s.Finished g startRule states s.kernel
  := by
  have hj := h.justified.widen hg h.born.ordered h.widens
  have hn := h.isKernel.ordered.nodup
  refine ⟨h.isKernel, h.accepting, h.isKernel, .refl _, hj, ⟨fun col r => (ha.reduce col r).mpr, ?_⟩,
    Or.inl rfl⟩
  intro x _ hx
  obtain ⟨t, ht⟩ := (ha.shift x.toColumn).mpr ⟨x, rfl, hx⟩
  obtain ⟨y, hcol, -, target, htarget, hcores⟩ := hj.shift _ t ht
  obtain rfl := Symbol.toColumn_injective hcol
  refine ⟨t, target, ht, htarget, hcores, ?_⟩
  intro c l hc
  obtain ⟨d, hd, hsymbol, rfl⟩ := (grants_successorKernel hg hn).mp hc
  obtain ⟨i, hi, rfl, hl⟩ := (Grammar.grants_closure hg hn).mpr hd
  obtain ⟨target', htarget', -, hfollow⟩ := ha.target x t ht
  obtain rfl := Option.some.inj (htarget.symm.trans htarget')
  obtain ⟨j, hj, hcore, hsub⟩ := hfollow i hi hsymbol
  exact ⟨j, hj, hcore, hsub l hl⟩

/-- Nothing is missed in a state that was expanded from its own kernel. -/
theorem Finished.not_misses (h : s.Finished g startRule states k) (hg : g.ListsRules)
    (hk : s.kernel = k) :
  ¬ s.Misses g states
  := by
  subst hk
  have hn := h.isKernel.ordered.nodup
  intro hmiss
  cases hmiss with
  | reduction hr hno => apply hno (h.answers.reduce _ _ hr)
  | @lookahead i x t target l hi hx ht htarget hl hno =>
      obtain ⟨t', target', ht', htarget', hw⟩ := h.answers.shift x trivial
        ⟨i.core, mem_coresOf.mpr ⟨i, hi, rfl⟩, hx⟩
      obtain ⟨rfl⟩ := Option.some.inj (ht.symm.trans ht')
      obtain rfl := Option.some.inj (htarget.symm.trans htarget')
      apply hno
      apply hw.grants
      apply (grants_successorKernel hg hn).mpr
      exact ⟨i.core, (Grammar.mem_follow_closure hg hn hi).mp hl, hx, rfl⟩

end State

/-- Kernels are not mute if every core of the canonical states expects something. -/
theorem IsKernel.not_mute (h : IsKernel g startRule k)
    (hexpects : ∀ path c, AtKernel g startRule path c → ∃ l, Expects g startRule path c l) :
  ¬ Mute g k
  := by
  rintro ⟨⟨c, hc, hs⟩, hsilent⟩
  obtain ⟨paths, hp⟩ := h.composed
  obtain ⟨path, hpath⟩ := hp.nonempty
  obtain ⟨l, hl⟩ := hexpects path c ((hp.cores path hpath c).mpr hc)
  apply hsilent c l _ hs
  apply hp.followedBy_iff.mpr
  exact ⟨path, hpath, .kernel hl⟩

/-- The states of a finished automaton agree with their closures exactly where no lookahead is
missed. One is missed only in a state that grew after it was expanded from a mute kernel; if every
core of the canonical states expects something, there is no such state. -/
theorem Automaton.agrees_iff_of_build (hg : g.Assembled)
    (h : Automaton.build g startRule = .ok a) :
  (∀ s ∈ a.states, s.Agrees g a.states ↔ ¬ s.Misses g a.states)
    ∧ (∀ s ∈ a.states, s.Misses g a.states → ∃ k, Widens k s.kernel ∧ s.kernel ≠ k ∧ Mute g k)
    ∧ ((∀ path c, AtKernel g startRule path c → ∃ l, Expects g startRule path c l) →
        ∀ s ∈ a.states, s.Agrees g a.states)
  := by
  have hlists := hg.listsRules
  have hfinished : ∀ s ∈ a.states, ∃ k, s.Finished g startRule a.states k := by
    intro s hs
    obtain ⟨i, hi, rfl⟩ := Array.getElem_of_mem hs
    apply (Automaton.finished_of_build hlists h).states i
    apply Array.getElem?_eq_getElem hi
  refine ⟨?_, ?_, ?_⟩
  · intro s hs
    obtain ⟨k, hk⟩ := hfinished s hs
    apply hk.agrees_iff hlists
  · intro s hs hmiss
    obtain ⟨k, hk⟩ := hfinished s hs
    have hne : s.kernel ≠ k := fun heq => hk.not_misses hlists heq hmiss
    exact ⟨k, hk.widens, hne, hk.current.resolve_left hne⟩
  · intro hexpects s hs
    obtain ⟨k, hk⟩ := hfinished s hs
    apply (hk.agrees_iff hlists).mpr
    apply hk.not_misses hlists
    apply hk.current.resolve_right (hk.born.not_mute hexpects)

/-- A grammar in which `x` is reduced before a nonterminal without rules, where nothing can follow,
and between terminals. -/
def Grammar.barren : Grammar :=
  let s : Nonterminal := ⟨1⟩
  let x : Nonterminal := ⟨2⟩
  let n : Nonterminal := ⟨3⟩
  ((((((Grammar.empty.addNonterminal "S" none).addNonterminal "X" none).addNonterminal "N" none
    ).addRule .start [.nonterminal s]
    ).addRule s [.nonterminal x, .nonterminal n]
    ).addRule x [.terminal "x"]
    ).addRule s [.terminal "a", .nonterminal x, .terminal "b"]
    |>.computeFirst

theorem Grammar.assembled_barren :
  Grammar.barren.Assembled
  := by
  apply Assembled.computeFirst
  iterate 4 apply Assembled.addRule
  iterate 3 apply Assembled.addNonterminal
  apply Assembled.empty

/-- The automaton that is built for the grammar. -/
def Automaton.barren : Automaton := (Automaton.construct Grammar.barren 0).automaton

theorem Automaton.build_barren :
  Automaton.build Grammar.barren 0 = .ok Automaton.barren
  := by
  have hhalt : (Automaton.construct Grammar.barren 0).halt = none := by decide +kernel
  rw [Automaton.build, Construction.result, hhalt]
  rfl

/-- The state behind `x`. It is reached with nothing that can follow first, and is not expanded
again when it is reached before `b`. -/
def State.barren : State := Automaton.barren.states[3]!

theorem State.mem_barren :
  State.barren ∈ Automaton.barren.states
  := by
  have hget : Automaton.barren.states[3]? = some State.barren := by decide +kernel
  apply Array.mem_of_getElem? hget

/-- The closure of the state calls for a reduction before `b`. -/
theorem State.reduces_barren :
  Reduces Grammar.barren (State.barren.closure Grammar.barren) (.terminal "b") 2
  := by
  have hitem : State.barren.closure Grammar.barren = [⟨⟨2, 1⟩, .singleton (.terminal "b")⟩] := by
    decide +kernel
  rw [hitem]
  exact ⟨⟨2, 1⟩, .terminal "b", ⟨_, List.mem_singleton.mpr rfl, rfl, List.mem_singleton.mpr rfl⟩,
    by decide +kernel, rfl, rfl⟩

/-- The theorem at a state that misses a lookahead. -/
theorem Automaton.agrees_iff_barren :
  Grammar.barren.Assembled
    ∧ Automaton.build Grammar.barren 0 = .ok Automaton.barren
    ∧ (∀ s ∈ Automaton.barren.states, s.Agrees Grammar.barren Automaton.barren.states
        ↔ ¬ s.Misses Grammar.barren Automaton.barren.states)
    ∧ (∀ s ∈ Automaton.barren.states, s.Misses Grammar.barren Automaton.barren.states →
        ∃ k, Widens k s.kernel ∧ s.kernel ≠ k ∧ Mute Grammar.barren k)
    ∧ ((∀ path c, AtKernel Grammar.barren 0 path c → ∃ l, Expects Grammar.barren 0 path c l) →
        ∀ s ∈ Automaton.barren.states, s.Agrees Grammar.barren Automaton.barren.states)
  := by
  use Grammar.assembled_barren, Automaton.build_barren
  apply Automaton.agrees_iff_of_build Grammar.assembled_barren Automaton.build_barren

/-- Not all states of all automata agree with their closures. -/
theorem Automaton.not_forall_agrees :
  ¬ ∀ (g : Grammar) (startRule : Nat) (a : Automaton), g.Assembled → g.firstPass = g →
      startRule < g.rules.size → Automaton.build g startRule = .ok a →
      ∀ s ∈ a.states, s.Agrees g a.states
  := by
  intro hall
  have hrest : Grammar.barren.firstPass = Grammar.barren := by decide +kernel
  have hrule : 0 < Grammar.barren.rules.size := by decide +kernel
  have hagrees := hall Grammar.barren 0 Automaton.barren Grammar.assembled_barren hrest hrule
    Automaton.build_barren State.barren State.mem_barren
  have hreduce := (hagrees.reduce (.terminal "b") 2).mpr State.reduces_barren
  have hnone : State.barren.actions.get? (.terminal "b") = none := by decide +kernel
  rw [hnone] at hreduce
  cases hreduce

end CaptureLR

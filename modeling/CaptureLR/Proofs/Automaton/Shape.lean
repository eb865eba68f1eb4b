import CaptureLR.Proofs.Automaton.Paths
import CaptureLR.Proofs.Automaton.Reaching
import CaptureLR.Proofs.Lowering.Owners

/-!
# The shape of finished automata

In an automaton of a grammar with a root, shifts lead from the first state to all states, and the
state that the root leads to is the only one that accepts. For the start rule is complete only
behind the root, and the root is all that leads there.
-/

open Relation (ReflTransGen)

namespace CaptureLR

variable {g : Grammar} {startRule : Nat} {a : Automaton} {states : Array State} {s : State}
  {k : List Item} {root : Nonterminal} {i : Nat}

/-- The shape of an automaton with a root: states carry the numbers of their places and are all
reached from the first one by shifts; only the state that the root leads to accepts, and its kernel
is the start rule, complete, before the end of the input; nothing is shifted under the end of the
input, nothing is reduced under a nonterminal, and nothing is done under the start symbol. -/
structure Automaton.IsShaped (a : Automaton) (root : Nonterminal) : Prop where
  index : ∀ (i : Nat) (s : State), a.states[i]? = some s → s.index = i
  target : ∀ i j, Builder.Leads a.states i j → j < a.states.size
  reached : ∀ i < a.states.size, ReflTransGen (Builder.Leads a.states) 0 i
  accepting : ∃ (first last : State) (t : Nat), a.states[0]? = some first
    ∧ first.actions.get? (.nonterminal root) = some (.shift t) ∧ a.states[t]? = some last
    ∧ last.kernel = [⟨⟨a.startRule, 1⟩, endContext⟩]
    ∧ ∀ (i : Nat) (s : State), a.states[i]? = some s → (s.accepting = true ↔ i = t)
  shift : ∀ s ∈ a.states, ∀ t, s.actions.get? .endOfInput ≠ some (.shift t)
  reduce : ∀ s ∈ a.states, ∀ n r, s.actions.get? (.nonterminal n) ≠ some (.reduce r)
  start : ∀ s ∈ a.states, s.actions.get? (.nonterminal .start) = none

/-! ### Actions -/

namespace State.Finished

/-- Shifts are over symbols, and each symbol stands behind a dot. -/
theorem exists_symbol_of_shift (h : s.Finished g startRule states k) (hg : g.ListsRules)
    {col : Column} {t : Nat} (ha : s.actions.get? col = some (.shift t)) :
  ∃ (x : Symbol) (c : Core), col = x.toColumn ∧ c.symbol? g = some x
  := by
  obtain ⟨x, rfl, hx, -⟩ := h.justified.shift col t ha
  obtain ⟨c, -, hc⟩ := (shifts_closure hg h.born.ordered).mp hx
  exact ⟨x, c, rfl, hc⟩

theorem shift_endOfInput_ne (h : s.Finished g startRule states k) (hg : g.ListsRules) (t : Nat) :
  s.actions.get? .endOfInput ≠ some (.shift t)
  := by
  intro ha
  obtain ⟨x, -, hcol, -⟩ := h.exists_symbol_of_shift hg ha
  cases x with
  | terminal => cases hcol
  | nonterminal => cases hcol

/-- Reductions are under lookaheads. -/
theorem reduce_nonterminal_ne (h : s.Finished g startRule states k) (hg : g.ListsRules)
    (n : Nonterminal) (r : Nat) :
  s.actions.get? (.nonterminal n) ≠ some (.reduce r)
  := by
  intro ha
  obtain ⟨c, l, -, -, -, hcol⟩ :=
    (reduces_closure hg h.born.ordered).mp (h.justified.reduce _ r ha)
  cases l with
  | terminal => cases hcol
  | endOfInput => cases hcol

/-- Nothing is done under the start symbol, which stands in no rule. -/
theorem get?_start (h : s.Finished g startRule states k) (hg : g.ListsRules)
    (hr : g.Rooted startRule root) :
  s.actions.get? (.nonterminal .start) = none
  := by
  cases ha : s.actions.get? (.nonterminal .start) with
  | none => rfl
  | some action =>
      cases action with
      | reduce r => cases h.reduce_nonterminal_ne hg .start r ha
      | shift t =>
          obtain ⟨x, c, hcol, hc⟩ := h.exists_symbol_of_shift hg ha
          cases x with
          | terminal => cases hcol
          | nonterminal n =>
              cases hcol
              cases hr.symbol_ne_start hc

end State.Finished

/-! ### The accepting state -/

/-- A list that repeats nothing and has one thing in it is that thing. -/
theorem eq_singleton_of_nodup {α : Type} {l : List α} {x : α} (hl : l.Nodup) (hx : x ∈ l)
    (h : ∀ y ∈ l, y = x) :
  l = [x]
  := by
  apply List.perm_singleton.mp
  apply (List.perm_ext_iff_of_nodup hl (List.nodup_singleton x)).mpr
  intro y
  rw [List.mem_singleton]
  constructor
  · apply h
  · rintro rfl
    apply hx

namespace Automaton.Finished

/-- Along the shifts that lead to it, a state stands behind a path: behind no symbol if it is the
first one, and behind a single one if the first state shifts it. -/
theorem exists_isBehind (h : a.Finished g startRule) (hg : g.ListsRules)
    (hreached : ReflTransGen (Builder.Leads a.states) 0 i) :
  ∃ (s : State) (path : List Symbol), a.states[i]? = some s ∧ s.IsBehind g startRule path
    ∧ (path = [] → i = 0)
    ∧ ∀ x, path = [x] → ∃ first : State, a.states[0]? = some first
        ∧ first.actions.get? x.toColumn = some (.shift i)
  := by
  induction hreached with
  | refl =>
      obtain ⟨s, hs, hb, -⟩ := h.isBehind_nil
      exact ⟨s, [], hs, hb, fun _ => rfl, nofun⟩
  | @tail i j _ hstep ih =>
      obtain ⟨s, path, hs, hb, hfirst, -⟩ := ih
      obtain ⟨s', col, hs', ha⟩ := hstep
      obtain rfl := Option.some.inj (hs.symm.trans hs')
      obtain ⟨k, hk⟩ := h.states i s hs
      obtain ⟨x, -, rfl, -⟩ := hk.exists_symbol_of_shift hg ha
      obtain ⟨-, target, htarget, hb'⟩ := hk.isBehind_shift hg hb ha
      refine ⟨target, path ++ [x], htarget, hb', ?_, ?_⟩
      · intro hnil
        cases List.append_ne_nil_of_right_ne_nil path (List.cons_ne_nil x []) hnil
      · intro y hy
        obtain ⟨rfl, hxy⟩ := List.append_eq_singleton_iff.mp hy |>.resolve_right (by simp)
        cases hxy
        obtain rfl := hfirst rfl
        exact ⟨s, hs, ha⟩

/-- A state behind the root has the start rule, complete, before the end of the input in its kernel
and nothing else, if it expects the end of the input at all. -/
theorem kernel_eq (hk : IsKernel g startRule s.kernel) (hg : g.Assembled)
    (hr : g.Rooted startRule root) (hb : s.IsBehind g startRule [.nonterminal root])
    (hend : Grants s.kernel ⟨startRule, 1⟩ .endOfInput) :
  s.kernel = [⟨⟨startRule, 1⟩, endContext⟩]
  := by
  have hcore : ∀ c ∈ coresOf s.kernel, c = ⟨startRule, 1⟩ := by
    intro c hc
    apply hr.eq_of_atClosure (.kernel ((hb c).mpr hc))
  have hfollow : ∀ c l, Grants s.kernel c l → l = .endOfInput := by
    intro c l hl
    obtain ⟨paths, hp⟩ := hk.composed
    obtain ⟨path, hpath, he⟩ := (hp.grants c l).mp hl
    -- the path of the canonical state is the root as well
    have hc : AtKernel g startRule path c := he.atKernel
    obtain rfl := hcore c ((hp.cores path hpath c).mp hc)
    obtain rfl := hr.eq_of_atKernel hg hc
    rw [← List.nil_append [Symbol.nonterminal root]] at he
    obtain ⟨d, hd, hx, -⟩ := expects_concat.mp he
    obtain rfl := hr.eq_of_symbol hx
    apply hr.eq_endOfInput_of_startRule hg hd
  obtain ⟨item, hitem, hc, hl⟩ := hend
  have hsingle : item = ⟨⟨startRule, 1⟩, endContext⟩ := by
    have hcontext : item.follow = endContext := by
      apply OrderedSet.ext
      apply eq_singleton_of_nodup item.follow.nodup hl
      intro l' hl'
      apply hfollow item.core l' ⟨item, hitem, rfl, hl'⟩
    rw [← hc, ← hcontext]
  rw [← hsingle]
  apply eq_singleton_of_nodup hk.ordered.nodup.of_map hitem
  intro j hj
  apply List.inj_on_of_nodup_map hk.ordered.nodup hj hitem
  rw [hc]
  apply hcore j.core (mem_coresOf.mpr ⟨j, hj, rfl⟩)

/-- The first state shifts the root, to a state that expects the end of the input behind it. -/
theorem exists_root (h : a.Finished g startRule) (hg : g.ListsRules)
    (hr : g.Rooted startRule root) :
  ∃ (first last : State) (t : Nat), a.states[0]? = some first
    ∧ first.actions.get? (.nonterminal root) = some (.shift t) ∧ a.states[t]? = some last
    ∧ last.IsBehind g startRule [.nonterminal root]
    ∧ Grants last.kernel ⟨startRule, 1⟩ .endOfInput
  := by
  obtain ⟨first, hfirst, hb, -⟩ := h.isBehind_nil
  obtain ⟨k, hk⟩ := h.states 0 first hfirst
  -- the kernel that the first state was expanded from expected the end of the input
  have hstart : ⟨startRule, 0⟩ ∈ coresOf k := by
    rw [← hk.widens.cores]
    apply (hb _).mp .start
  have hroot : (⟨startRule, 0⟩ : Core).symbol? g = some (.nonterminal root) := by
    rw [Core.symbol?, hr.expansion_eq]
    rfl
  have hgrants : Grants k ⟨startRule, 0⟩ .endOfInput := by
    obtain ⟨paths, hp⟩ := hk.born.composed
    obtain ⟨path, hpath⟩ := hp.nonempty
    obtain rfl := ((hp.cores path hpath _).mpr hstart).eq_nil_of_dot
    apply (hp.grants _ _).mpr
    exact ⟨[], hpath, .start⟩
  have hborn := hk.born.ordered
  have hfollowed : FollowedBy g k ⟨startRule, 0⟩ .endOfInput := by
    obtain ⟨item, hitem, hc, hl⟩ := hgrants
    rw [← hc]
    exact .item hitem hl
  have hshift : Shifts g (g.closure k) (.nonterminal root) :=
    (shifts_closure hg hborn).mpr ⟨_, hfollowed.calledFor, hroot⟩
  obtain ⟨t, last, ht, hlast, hw⟩ := hk.answers.shift _ trivial hshift
  obtain ⟨-, last', hlast', hb'⟩ := hk.isBehind_shift hg hb ht
  obtain rfl := Option.some.inj (hlast.symm.trans hlast')
  refine ⟨first, last, t, hfirst, ht, hlast, hb', ?_⟩
  apply hw.grants
  apply (grants_successorKernel hg hborn.nodup).mpr
  exact ⟨⟨startRule, 0⟩, hfollowed, hroot, rfl⟩

end Automaton.Finished

/-! ### The shape -/

/-- An automaton that is built for a grammar with a root has the shape. -/
theorem Automaton.isShaped_of_build (hg : g.Assembled) (hr : g.Rooted startRule root)
    (h : build g startRule = .ok a) :
  a.IsShaped root
  := by
  have hlists := hg.listsRules
  have hfinished := finished_of_build hlists h
  obtain ⟨hnumbered, hreached⟩ := numbered_of_build hlists h
  have hstates : ∀ s ∈ a.states, ∃ k, s.Finished g startRule a.states k := by
    intro s hs
    obtain ⟨i, hi⟩ := Array.mem_iff_getElem?.mp hs
    apply hfinished.states i s hi
  refine ⟨hnumbered, ?_, hreached, ?_, ?_, ?_, ?_⟩
  · rintro i j ⟨s, col, hs, ha⟩
    obtain ⟨k, hk⟩ := hfinished.states i s hs
    obtain ⟨-, -, -, target, htarget, -⟩ := hk.justified.shift col j ha
    apply (Array.getElem?_eq_some_iff.mp htarget).1
  · obtain ⟨first, last, t, hfirst, ht, hlast, hb, hend⟩ := hfinished.exists_root hlists hr
    obtain ⟨k, hk⟩ := hfinished.states t last hlast
    refine ⟨first, last, t, hfirst, ht, hlast, ?_, ?_⟩
    · rw [hfinished.startRule_eq]
      apply Finished.kernel_eq hk.isKernel hg hr hb hend
    · intro i s hs
      constructor
      · intro haccepting
        obtain ⟨s', path, hs', hb', -, hshift⟩ :=
          hfinished.exists_isBehind hlists (hreached i (Array.getElem?_eq_some_iff.mp hs).1)
        obtain rfl := Option.some.inj (hs.symm.trans hs')
        obtain ⟨k', hk'⟩ := hfinished.states i s hs
        have hpath := hr.eq_of_atKernel hg ((hk'.accepting_iff hb').mp haccepting)
        obtain ⟨first', hfirst', hi⟩ := hshift _ hpath
        obtain rfl := Option.some.inj (hfirst.symm.trans hfirst')
        cases ht.symm.trans hi
        rfl
      · rintro rfl
        obtain rfl := Option.some.inj (hlast.symm.trans hs)
        apply (hk.accepting_iff hb).mpr hr.atKernel_root
  · intro s hs t
    obtain ⟨k, hk⟩ := hstates s hs
    apply hk.shift_endOfInput_ne hlists
  · intro s hs n r
    obtain ⟨k, hk⟩ := hstates s hs
    apply hk.reduce_nonterminal_ne hlists
  · intro s hs
    obtain ⟨k, hk⟩ := hstates s hs
    apply hk.get?_start hlists hr

/-- The automaton of a language has the shape, its root being the nonterminal that captures the
root. -/
theorem Automaton.exists_isShaped_of_collect {l : Language} {c : ClassId} {classes : ClassTable}
    {v : Verbosity} (hc : ClassTable.collect l c = .ok classes)
    (ha : (Source.automaton ⟨l, classes⟩ c v).2 = .ok a) :
  ∃ n, a.grammar.expansion a.startRule = [.nonterminal n]
    ∧ a.grammar.capture? n = some ⟨false, "root", .node c⟩ ∧ a.IsShaped n
  := by
  unfold Source.automaton at ha
  split at ha
  · cases ha
  · next lg hlg =>
    have hcompiled := Source.compiled_of_grammar hlg
    have hbuild : build lg.grammar lg.startRule = .ok a := ha
    have hfinished := finished_of_build hcompiled.assembled.listsRules hbuild
    obtain ⟨-, d, owners, hlowered⟩ :=
      Source.isLowered_of_grammar (Source.isCollected_of_collect hc) hlg
    refine ⟨⟨1⟩, ?_, ?_, isShaped_of_build hcompiled.assembled hcompiled.rooted hbuild⟩
    · rw [hfinished.grammar_eq, hfinished.startRule_eq]
      apply hcompiled.rooted.expansion_eq
    · rw [hfinished.grammar_eq]
      apply hlowered.capture?_root

/-- The theorem for groups. -/
theorem Automaton.exists_isShaped_of_collect_group :
  ClassTable.collect .group ⟨0⟩ = .ok .group
    ∧ ∃ a, (Source.automaton ⟨.group, .group⟩ ⟨0⟩ .silent).2 = .ok a
      ∧ ∃ n, a.grammar.expansion a.startRule = [.nonterminal n]
        ∧ a.grammar.capture? n = some ⟨false, "root", .node ⟨0⟩⟩ ∧ a.IsShaped n
  := by
  obtain ⟨lg, a, hlg, hbuild, -⟩ := Parser.exists_automaton Parser.build_group rfl
  have ha : (Source.automaton ⟨.group, .group⟩ ⟨0⟩ .silent).2 = .ok a := by
    unfold Source.automaton
    rw [show Source.grammar ⟨.group, .group⟩ ⟨0⟩ = .ok lg from hlg]
    apply hbuild
  use ClassTable.collect_group, a, ha
  apply exists_isShaped_of_collect ClassTable.collect_group ha

end CaptureLR

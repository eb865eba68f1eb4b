import CaptureLR.Proofs.Parse.Soundness

/-!
# Tables that lack nothing

Whatever a source gives, the table of a generated parser has an entry for everything that a parse
looks up. A frame of the stack is below every expansion that is reduced, since the path to the top
state ends in the symbols of the expansion; and the frame that comes to the top stands where the
head of the rule was called for, so its state goes on with the head. States that were expanded
from a kernel that grew later are no exception, since only the cores of a kernel decide what is
shifted.
-/

namespace CaptureLR

variable {g : Grammar} {startRule : Nat} {a : Automaton} {m : Machine} {path : List Symbol}
  {σ : Type} {next : σ → Option (TokenItem × σ)} {source : σ} {c : Config σ}
  {trees : List DerivationTree}

/-- The table has all that a step needs: the state on top of the stack and, where a rule is
reduced, its description, a frame below the expansion, the class of what is captured and a state
to go on to with the head. -/
structure Machine.Supplies (m : Machine) (c : Config σ) : Prop where
  top : ∃ top below, c.frames = top :: below ∧ top.state < m.table.states.size
  reduction : ∀ top rule, m.About c top (.reduce rule) → ∃ r, m.table.reductions.get? rule = some r
    ∧ r.popCount < c.frames.length
    ∧ (∀ exposed, c.frames[r.popCount]? = some exposed →
      (m.table.successor? exposed.state r.into).isSome)
    ∧ ∀ cap id, r.capture = some cap → cap.kind = .node id → (m.classes.get? id).isSome

namespace Machine

/-- A capture of a known class does not fail. -/
theorem isOk_capture {state : Nat} {consumed : Array Token} {first stop : Nat}
    {position : Position} {slots : Slots} {cap : Capture}
    (h : ∀ id, cap.kind = .node id → (m.classes.get? id).isSome) :
  ∃ slots', m.capture state consumed first stop position slots cap = .ok slots'
  := by
  unfold capture
  cases hk : cap.kind with
  | token => exact ⟨_, rfl⟩
  | span => exact ⟨_, rfl⟩
  | node id =>
      obtain ⟨n, hn⟩ := Option.isSome_iff_exists.mp (h id hk)
      simp only [hn]
      exact ⟨_, rfl⟩

/-- A reduction that nothing is missing for leads to frames. -/
theorem isOk_reduce {r : Reduction} {state : Nat} {frames : List Frame} {consumed : Array Token}
    {position : Position} (hpop : r.popCount < frames.length)
    (hgoto : ∀ exposed, frames[r.popCount]? = some exposed →
      (m.table.successor? exposed.state r.into).isSome)
    (hclass : ∀ cap id, r.capture = some cap → cap.kind = .node id → (m.classes.get? id).isSome) :
  ∃ frames', m.reduce r state frames consumed position = .ok frames'
  := by
  have hdrop := List.drop_eq_getElem_cons hpop
  obtain ⟨target, htarget⟩ :=
    Option.isSome_iff_exists.mp (hgoto _ (List.getElem?_eq_getElem hpop))
  unfold reduce
  simp only [hdrop, htarget]
  cases hcap : r.capture with
  | none => exact ⟨_, rfl⟩
  | some cap =>
      obtain ⟨slots', hslots⟩ : ∃ slots', m.capture state consumed
          (((frames.take r.popCount).reverse.head?.map Frame.first).getD consumed.size)
          (((frames.take r.popCount).reverse.getLast?.map Frame.stop).getD consumed.size) position
          (Slots.joinAll ((frames.take r.popCount).reverse.map Frame.slots)) cap = .ok slots' :=
        isOk_capture (fun id => hclass cap id hcap)
      simp only [hslots]
      exact ⟨_, rfl⟩

/-- A step that all is supplied for does not end with an invalid table. -/
theorem Supplies.step_ne (h : m.Supplies c) (next : σ → Option (TokenItem × σ)) (state : Nat)
    (gap : TableGap) :
  m.step next c ≠ .done (.error (.invalidTable state gap))
  := by
  obtain ⟨⟨top, below, hframes, hlt⟩, hreduction⟩ := h
  intro hstep
  unfold step at hstep
  simp only [hframes, Array.getElem?_eq_getElem hlt] at hstep
  split at hstep
  · cases hstep
  · next haccepting =>
    split at hstep
    · cases hstep
    · split at hstep <;> cases hstep
    · next rule haction =>
      obtain ⟨r, hr, hpop, hgoto, hclass⟩ := hreduction top rule
        ⟨hframes, Array.getElem?_eq_getElem hlt, by simpa using haccepting, haction⟩
      rw [hframes] at hpop hgoto
      obtain ⟨frames', hframes'⟩ : ∃ frames', m.reduce r top.state (top :: below) c.consumed
          c.lookahead.start = .ok frames' := isOk_reduce hpop hgoto hclass
      simp only [hr, hframes'] at hstep
      cases hstep

end Machine

/-- A sound configuration has all it needs. -/
theorem Config.Sound.supplies (ha : a.Finished g startRule) (hg : g.Compiled startRule m.classes)
    (hm : m.table = .ofAutomaton a)
    (h : c.Sound g startRule ⟨1⟩ a m.classes next source path trees) :
  m.Supplies c
  where
  top := by
    obtain ⟨top, below, hframes, ⟨s, hs, -⟩, -⟩ := h.stands.stacked.exists_top
    use top, below, hframes
    rw [hm, Table.ofAutomaton, Array.size_map]
    apply (Array.getElem?_eq_some_iff.mp hs).1
  reduction top rule habout := by
    have hlists := hg.assembled.listsRules
    obtain ⟨hframes, hrow, haccepting, haction⟩ := habout
    obtain ⟨s, k, hs, hb, rfl⟩ := h.exists_state ha hm hframes hrow
    obtain ⟨d, hclosure, hcomplete, -⟩ := hs.atClosure_reduce hlists hb haction
    obtain ⟨front, rfl, hfront⟩ := hclosure.exists_front_expansion hcomplete
    rcases hfront.exists_rule with ⟨c', n, hc', hn, hrule⟩ | ⟨rfl, rfl⟩
    · obtain ⟨exposed, below, hpopped⟩ := h.stands.stacked.exists_popped
      have hlt : (g.expansion rule).length < c.frames.length := by
        apply List.length_lt_of_drop_ne_nil
        rw [hpopped.drop]
        apply List.cons_ne_nil
      refine ⟨⟨(g.expansion rule).length, n, g.capture? n⟩, ?_, hlt, ?_, hg.known n⟩
      · rw [hm, Table.ofAutomaton, ha.grammar_eq]
        apply Table.get?_reductionsOf_rule hg.assembled hrule
      · intro frame hframe
        obtain ⟨_, _, htop, ⟨s', hs', hb'⟩, -⟩ := hpopped.stacked.exists_top
        obtain ⟨rfl, -⟩ := List.cons.inj htop
        rw [← List.head?_drop, hpopped.drop, List.head?_cons] at hframe
        cases hframe
        -- the head of the rule was called for behind the exposed frame
        obtain ⟨k', hk'⟩ := ha.states _ s' hs'
        obtain ⟨target, htarget⟩ := hk'.exists_target hlists hb' hc' hn
        apply Option.isSome_iff_exists.mpr
        use target
        apply Table.successor?_eq_some.mpr
        rw [hm, Table.states_ofAutomaton, hs']
        exact ⟨_, rfl, htarget⟩
    · -- the start rule is complete in accepting states only
      rw [List.nil_append, hg.rooted.expansion_eq] at hb
      have hcontra := haccepting.symm.trans ((hs.accepting_iff hb).mpr hg.rooted.atKernel_root)
      cases hcontra

/-- The configurations of a parse are sound. -/
theorem Machine.Reached.exists_sound (ha : a.Finished g startRule)
    (hg : g.Compiled startRule m.classes) (hm : m.table = .ofAutomaton a)
    (h : m.Reached next source c) :
  ∃ path trees, c.Sound g startRule ⟨1⟩ a m.classes next source path trees
  := by
  obtain ⟨c₀, trees, hstart, hmoves⟩ := h.exists_moves
  obtain ⟨path, hsound⟩ :=
    (Config.sound_start ha ⟨1⟩ m.classes hstart).moves ha hg hm hmoves
  exact ⟨path, trees, hsound⟩

/-- A generated parser never finds its table invalid: whatever a source gives, errors included,
every configuration that the parse comes by has all it needs, and no parse ends with an invalid
table. -/
theorem Parser.parse_ne_invalidTable {l : Language} {root : ClassId} {config : ParserConfig}
    {p : Parser} (hbuild : (Parser.build l root config).2 = .ok p) (hp : p.generated = true)
    {σ : Type} (next : σ → Option (TokenItem × σ)) (source : σ) :
  (∀ c, p.machine.Reached next source c → p.machine.Supplies c)
    ∧ ∀ fuel state gap,
      p.machine.parse next fuel source ≠ some (.error (.invalidTable state gap))
  := by
  obtain ⟨lg, a, hgrammar, ha, htable⟩ := Parser.exists_automaton hbuild hp
  have hg := Source.compiled_of_grammar hgrammar
  have hfinished := Automaton.finished_of_build hg.assembled.listsRules ha
  have hsupplies : ∀ c, p.machine.Reached next source c → p.machine.Supplies c := by
    intro c hc
    obtain ⟨path, trees, hsound⟩ := hc.exists_sound (m := p.machine) hfinished hg htable
    apply hsound.supplies hfinished hg htable
  use hsupplies
  intro fuel state gap hparse
  rcases Machine.exists_step_of_parse hparse with ⟨e, -, he⟩ | ⟨c, hc, hdone⟩
  · cases he
  · apply (hsupplies c hc).step_ne next state gap hdone

/-- The theorem for groups. -/
theorem Parser.parse_group_ne_invalidTable :
  (Parser.build .group ⟨0⟩ {}).2 = .ok .group ∧ Parser.group.generated = true
    ∧ (∀ c, Parser.group.machine.Reached nextOfList Token.group c →
      Parser.group.machine.Supplies c)
    ∧ ∀ fuel state gap, Parser.group.machine.parse nextOfList fuel Token.group
      ≠ some (.error (.invalidTable state gap))
  := by
  use Parser.build_group, rfl
  apply Parser.parse_ne_invalidTable Parser.build_group rfl

end CaptureLR

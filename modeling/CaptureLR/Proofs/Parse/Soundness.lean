import CaptureLR.Proofs.Parse.Stacked
import CaptureLR.Proofs.Parse.Table

/-!
# Soundness of parsing

Whatever a generated parser accepts has a derivation tree, all tokens of the source are leaves of
the tree, and the value is that of the tree. That no token is left unread comes from the
lookaheads: a rule of the root is reduced under the end of the input only.
-/

namespace CaptureLR

open DerivationTree

variable {g : Grammar} {startRule : Nat} {a : Automaton} {path front : List Symbol}
  {root : Nonterminal}

/-- The state of a number stands behind a path. -/
def Automaton.Behind (g : Grammar) (startRule : Nat) (a : Automaton) (path : List Symbol)
    (i : Nat) : Prop :=
  ∃ s : State, a.states[i]? = some s ∧ s.IsBehind g startRule path

theorem Token.exists_kind {t : Token} {x : Symbol} (h : t.lookahead.toColumn = x.toColumn) :
  ∃ kind, t.kind = some kind ∧ x = .terminal kind
  := by
  unfold Token.lookahead at h
  cases hk : t.kind with
  | none =>
      rw [hk] at h
      cases x <;> cases h
  | some kind =>
      rw [hk] at h
      cases x with
      | terminal k =>
          cases h
          exact ⟨kind, rfl, rfl⟩
      | nonterminal n => cases h

theorem Token.kind_eq_none {t : Token} (h : t.lookahead = .endOfInput) :
  t.kind = none
  := by
  unfold Token.lookahead at h
  split at h
  · cases h
  · next hk => apply hk

/-- A rule that begins in a canonical state is a rule of the nonterminal behind a dot there, or it
is the start rule before all symbols. -/
theorem AtClosure.exists_rule {r : Nat} (h : AtClosure g startRule path ⟨r, 0⟩) :
  (∃ c n, AtClosure g startRule path c ∧ c.symbol? g = some (.nonterminal n) ∧ r ∈ g.rulesFor n)
    ∨ (path = [] ∧ r = startRule)
  := by
  generalize hd : (⟨r, 0⟩ : Core) = d at h
  cases h with
  | kernel h =>
      cases h with
      | start =>
          cases hd
          exact Or.inr ⟨rfl, rfl⟩
      | advance => cases hd
  | rule hc hn hr =>
      cases hd
      exact Or.inl ⟨_, _, hc, hn, hr⟩

/-- The symbols of a complete rule end the way to it. -/
theorem AtClosure.exists_front_expansion {r d : Nat} (h : AtClosure g startRule path ⟨r, d⟩)
    (hs : (⟨r, d⟩ : Core).symbol? g = none) :
  ∃ front, path = front ++ g.expansion r ∧ AtClosure g startRule front ⟨r, 0⟩
  := by
  obtain ⟨front, rfl, hf⟩ := h.exists_front
  use front
  rw [List.take_of_length_le (List.getElem?_eq_none_iff.mp hs)]
  exact ⟨rfl, hf⟩

/-- A tree of the start rule has the value of its only tree. -/
theorem DerivationTree.rootValue_start {classes : ClassTable} (hg : g.Compiled startRule classes)
    (behind : Position) (t : DerivationTree) :
  rootValue g classes behind (.node startRule [t]) = Machine.rootValue (t.slots g classes behind)
  := by
  have hhead : g.head startRule = .start := by rw [Grammar.head, hg.rooted.rule]
  simp only [rootValue, DerivationTree.slots, hhead, hg.plain, slotsOf, tokensOf,
    Slots.get?_join, OrderedMap.get?_empty, Slots.joined]
  rfl

/-! ### The invariant -/

/-- A configuration that a parse comes by: its frames stand for trees behind a path of the
automaton, the source gave the tokens consumed and the lookahead, and behind the root the lookahead
is the end of the input. -/
structure Config.Sound {σ : Type} (g : Grammar) (startRule : Nat) (root : Nonterminal)
    (a : Automaton) (classes : ClassTable) (next : σ → Option (TokenItem × σ)) (source : σ)
    (c : Config σ) (path : List Symbol) (trees : List DerivationTree) : Prop where
  stands : c.Stands g classes (a.Behind g startRule) path trees
  reads : ∀ ts behind, Ahead next c.lookahead c.lastEnd c.source ts behind →
    Reads next .start source (c.consumed.toList ++ ts) behind
  atEnd : path = [.nonterminal root] → c.lookahead.kind = none

section Soundness

variable {σ : Type} {next : σ → Option (TokenItem × σ)} {source : σ} {m : Machine} {c c' : Config σ}
  {trees trees' : List DerivationTree}

/-- The first configuration of a parse. -/
theorem Config.sound_start (ha : a.Finished g startRule) (root : Nonterminal)
    (classes : ClassTable) (h : Machine.start next source = .ok c) :
  c.Sound g startRule root a classes next source [] []
  := by
  unfold Machine.start at h
  split at h
  · cases h
  · next t lastEnd source' hf =>
    cases h
    obtain ⟨s, hs, hb, -⟩ := ha.isBehind_nil
    refine ⟨⟨.bottom ⟨s, hs, hb⟩, rfl⟩, ?_, ?_⟩
    · intro ts behind hahead
      apply reads_iff.mpr
      exact ⟨t, lastEnd, source', hf, hahead⟩
    · intro hpath
      cases hpath

namespace Config.Sound

variable (ha : a.Finished g startRule) (hg : g.Compiled startRule m.classes)
  (hm : m.table = .ofAutomaton a)

include ha hm

/-- The top state of a configuration. -/
theorem exists_state (h : c.Sound g startRule ⟨1⟩ a m.classes next source path trees) {top : Frame}
    {below : List Frame} {row : TableState} (hframes : c.frames = top :: below)
    (hrow : m.table.states[top.state]? = some row) :
  ∃ (s : State) (k : List Item), s.Finished g startRule a.states k
    ∧ s.IsBehind g startRule path ∧ row = ⟨s.accepting, s.actions⟩
  := by
  obtain ⟨top', _, hframes', ⟨s, hs, hb⟩, -⟩ := h.stands.stacked.exists_top
  rw [hframes] at hframes'
  cases hframes'
  rw [hm, Table.states_ofAutomaton, hs] at hrow
  cases hrow
  obtain ⟨k, hk⟩ := ha.states _ s hs
  exact ⟨s, k, hk, hb, rfl⟩

include hg

/-- A shift keeps a configuration sound. -/
theorem shift (h : c.Sound g startRule ⟨1⟩ a m.classes next source path trees) {top : Frame}
    {target : Nat} {t : Token} {lastEnd : Position} {source' : σ}
    (habout : m.About c top (.shift target))
    (hf : fetch next c.lastEnd c.source = .ok (t, lastEnd, source')) :
  ∃ path', (Machine.shifted c target t lastEnd source').Sound g startRule ⟨1⟩ a m.classes next
    source path' (.leaf c.lookahead :: trees)
  := by
  have hlists := hg.assembled.listsRules
  obtain ⟨hframes, hrow, -, haction⟩ := habout
  obtain ⟨s, k, hs, hb, rfl⟩ := h.exists_state ha hm hframes hrow
  -- the end of the input is never shifted
  obtain ⟨x, hcol, -⟩ := hs.justified.shift _ target haction
  obtain ⟨kind, hkind, rfl⟩ := Token.exists_kind hcol
  obtain ⟨-, s', hs', hb'⟩ := hs.isBehind_shift hlists hb (hcol ▸ haction)
  use path ++ [.terminal kind]
  constructor
  · apply h.stands.shifted hkind ⟨s', hs', hb'⟩
  · intro ts behind hahead
    have hahead' : Ahead next c.lookahead c.lastEnd c.source (c.lookahead :: ts) behind := by
      apply Ahead.token
      · rw [hkind]
        simp
      · apply reads_iff.mpr
        exact ⟨t, lastEnd, source', hf, hahead⟩
    have hreads := h.reads _ _ hahead'
    rw [Machine.shifted, Array.toList_push, List.append_assoc]
    apply hreads
  · intro hpath
    obtain ⟨-, hlast⟩ := List.append_inj' (hpath.trans (List.nil_append _).symm) rfl
    cases hlast

/-- A reduction keeps a configuration sound. -/
theorem reduce (h : c.Sound g startRule ⟨1⟩ a m.classes next source path trees) {top : Frame}
    {rule : Nat} {r : Reduction} {frames : List Frame} (habout : m.About c top (.reduce rule))
    (hr : m.table.reductions.get? rule = some r)
    (hf : m.reduce r top.state c.frames c.consumed c.lookahead.start = .ok frames) :
  ∃ path', Config.Sound g startRule ⟨1⟩ a m.classes next source { c with frames } path'
    (.node rule (trees.take r.popCount).reverse :: trees.drop r.popCount)
  := by
  have hlists := hg.assembled.listsRules
  obtain ⟨hframes, hrow, haccepting, haction⟩ := habout
  obtain ⟨s, k, hs, hb, rfl⟩ := h.exists_state ha hm hframes hrow
  obtain ⟨d, hclosure, hcomplete, path', hexpects⟩ := hs.atClosure_reduce hlists hb haction
  obtain ⟨front, rfl, hfront⟩ := hclosure.exists_front_expansion hcomplete
  rcases hfront.exists_rule with ⟨c', n, hc', hn, hrule⟩ | ⟨rfl, rfl⟩
  · rw [hm, Table.ofAutomaton, ha.grammar_eq, Table.get?_reductionsOf_rule hg.assembled hrule] at hr
    cases hr
    obtain ⟨exposed, frames', ⟨s', hs', hb'⟩, hreduce, hstands⟩ :=
      h.stands.exists_exposed hg.assembled hrule (hg.known n) top.state
    obtain ⟨target, hsucc, rfl⟩ := (hreduce frames).mp hf
    obtain ⟨row, hrow', hgoto⟩ := Table.successor?_eq_some.mp hsucc
    rw [hm, Table.states_ofAutomaton, hs'] at hrow'
    cases hrow'
    obtain ⟨k', hk'⟩ := ha.states _ s' hs'
    obtain ⟨-, s'', hs'', hb''⟩ := hk'.isBehind_shift (x := .nonterminal n) hlists hb' hgoto
    use front ++ [.nonterminal n]
    use hstands target ⟨s'', hs'', hb''⟩, h.reads
    intro hpath
    obtain ⟨-, hlast⟩ := List.append_inj' (hpath.trans (List.nil_append _).symm) rfl
    cases hlast
    apply Token.kind_eq_none
    apply hg.rooted.eq_endOfInput hg.assembled hrule hexpects
  · -- the start rule is complete in accepting states only
    rw [List.nil_append, hg.rooted.expansion_eq] at hb
    have hcontra := haccepting.symm.trans ((hs.accepting_iff hb).mpr hg.rooted.atKernel_root)
    cases hcontra

/-- Moves keep configurations sound. -/
theorem moves (h : c.Sound g startRule ⟨1⟩ a m.classes next source path trees)
    (hmoves : Relation.ReflTransGen (m.Moves next) (c, trees) (c', trees')) :
  ∃ path', c'.Sound g startRule ⟨1⟩ a m.classes next source path' trees'
  := by
  generalize hx : (c, trees) = x at hmoves
  generalize hy : (c', trees') = y at hmoves
  induction hmoves using Relation.ReflTransGen.head_induction_on generalizing c trees path with
  | refl =>
      cases hx
      cases hy
      exact ⟨path, h⟩
  | head hmove _ ih =>
      cases hx
      cases hmove with
      | shift habout hf =>
          obtain ⟨path', h'⟩ := h.shift ha hg hm habout hf
          apply ih h' rfl
      | reduce habout hr hf =>
          obtain ⟨path', h'⟩ := h.reduce ha hg hm habout hr hf
          apply ih h' rfl

/-- A configuration that accepts has read all tokens, and they are the leaves of a tree of the
root. -/
theorem accept (h : c.Sound g startRule ⟨1⟩ a m.classes next source path trees) {v : Value}
    (hdone : m.step next c = .done (.ok v)) :
  ∃ t, t.DerivesFrom g (.nonterminal ⟨1⟩) ∧ Reads next .start source t.tokens c.lookahead.start
    ∧ v = rootValue g m.classes c.lookahead.start (.node startRule [t])
  := by
  obtain ⟨top, below, row, hframes, hrow, haccepting, rfl⟩ := Machine.step_eq_ok_iff.mp hdone
  obtain ⟨s, k, hs, hb, rfl⟩ := h.exists_state ha hm hframes hrow
  obtain rfl := hg.rooted.eq_of_atKernel hg.assembled ((hs.accepting_iff hb).mp haccepting)
  have hstacked := h.stands.stacked
  rw [hframes] at hstacked
  obtain ⟨t, rfl, ht, hslots⟩ := hstacked.exists_tree
  refine ⟨t, ht, ?_, ?_⟩
  · have hreads := h.reads [] _ (.stopped (h.atEnd rfl))
    rw [h.stands.consumed, List.append_nil, List.reverse_singleton, tokensOf, tokensOf,
      List.append_nil] at hreads
    apply hreads
  · rw [rootValue_start hg, hslots]

end Config.Sound

end Soundness

/-- A parse that ends with a value has read the tokens of a tree of the root, and the value is what
this stands for. -/
theorem Parser.exists_root_of_parse {l : Language} {root : ClassId} {config : ParserConfig}
    {p : Parser} (hbuild : (Parser.build l root config).2 = .ok p) (hp : p.generated = true)
    {σ : Type} {next : σ → Option (TokenItem × σ)} {source : σ} {fuel : Nat} {v : Value}
    (hparse : p.machine.parse next fuel source = some (.ok v)) :
  ∃ lg t behind, Source.grammar ⟨l, p.classes⟩ root = .ok lg
    ∧ DeriveFrom lg.grammar (lg.grammar.expansion lg.startRule) [t]
    ∧ Reads next .start source (tokensOf [t]) behind
    ∧ v = rootValue lg.grammar p.classes behind (.node lg.startRule [t])
  := by
  obtain ⟨lg, a, hgrammar, ha, htable⟩ := Parser.exists_automaton hbuild hp
  have hg := Source.compiled_of_grammar hgrammar
  have hfinished := Automaton.finished_of_build hg.assembled.listsRules ha
  unfold Machine.parse at hparse
  split at hparse
  · cases hparse
  · next start hstart =>
    have hsound := Config.sound_start hfinished ⟨1⟩ p.machine.classes hstart
    obtain ⟨⟨last, trees⟩, hmoves, hdone⟩ := Machine.exists_moves_of_run hparse []
    obtain ⟨path, hsound'⟩ := hsound.moves hfinished hg htable hmoves
    obtain ⟨t, ht, hreads, rfl⟩ := hsound'.accept hfinished hg htable hdone
    refine ⟨lg, t, last.lookahead.start, hgrammar, ?_, ?_, rfl⟩
    · rw [hg.rooted.expansion_eq]
      exact ⟨ht, trivial⟩
    · rw [tokensOf, tokensOf, List.append_nil]
      apply hreads

/-- What a generated parser accepts has a derivation tree whose leaves are all tokens before the
end of the input, and the value is that of the tree. -/
theorem Parser.exists_tree_of_parse {l : Language} {root : ClassId} {config : ParserConfig}
    {p : Parser} (hbuild : (Parser.build l root config).2 = .ok p) (hp : p.generated = true)
    {σ : Type} {next : σ → Option (TokenItem × σ)} {source : σ} {fuel : Nat} {v : Value}
    (hparse : p.machine.parse next fuel source = some (.ok v)) :
  ∃ lg, Source.grammar ⟨l, p.classes⟩ root = .ok lg
    ∧ ∃ children behind, DeriveFrom lg.grammar (lg.grammar.expansion lg.startRule) children
      ∧ Reads next .start source (tokensOf children) behind
      ∧ v = rootValue lg.grammar p.classes behind (.node lg.startRule children)
  := by
  obtain ⟨lg, a, hgrammar, ha, htable⟩ := Parser.exists_automaton hbuild hp
  have hg := Source.compiled_of_grammar hgrammar
  have hfinished := Automaton.finished_of_build hg.assembled.listsRules ha
  use lg, hgrammar
  unfold Machine.parse at hparse
  split at hparse
  · cases hparse
  · next c hstart =>
    have hsound := Config.sound_start hfinished ⟨1⟩ p.machine.classes hstart
    obtain ⟨⟨c', trees⟩, hmoves, hdone⟩ := Machine.exists_moves_of_run hparse []
    obtain ⟨path, hsound'⟩ := hsound.moves hfinished hg htable hmoves
    obtain ⟨t, ht, hreads, hv⟩ := hsound'.accept hfinished hg htable hdone
    refine ⟨[t], c'.lookahead.start, ?_, ?_, hv⟩
    · rw [hg.rooted.expansion_eq]
      exact ⟨ht, trivial⟩
    · rw [tokensOf, tokensOf, List.append_nil]
      apply hreads

/-! ### Groups of one item -/

/-- A language whose only class is an item in parentheses. -/
def Language.group : Language where
  classes := #[⟨"Group", false, some (.sequence [.literal "(", .combinator ⟨0⟩, .literal ")"])⟩]
  combinators := #[⟨some "Item", .capture ⟨some "item", false, some (.pattern (.literal "x"))⟩⟩]

/-- The class of groups. -/
def ClassTable.group : ClassTable :=
  ⟨.ofList [(⟨0⟩, ⟨⟨0⟩, "Group", false, .ofList [("item", false)]⟩)]⟩

/-- The grammar of the language. -/
def LanguageGrammar.group : LanguageGrammar :=
  ((Source.grammar ⟨.group, .group⟩ ⟨0⟩).toOption).getD default

/-- The table of the grammar. -/
def Table.group : Table where
  states := #[
    ⟨false, .ofList [(.nonterminal ⟨2⟩, .shift 1), (.nonterminal ⟨1⟩, .shift 2),
      (.terminal "(", .shift 3)]⟩,
    ⟨false, .ofList [(.endOfInput, .reduce 0)]⟩,
    ⟨true, .ofList [(.endOfInput, .reduce 1)]⟩,
    ⟨false, .ofList [(.terminal "x", .shift 4), (.nonterminal ⟨3⟩, .shift 5)]⟩,
    ⟨false, .ofList [(.terminal ")", .reduce 2)]⟩,
    ⟨false, .ofList [(.terminal ")", .shift 6)]⟩,
    ⟨false, .ofList [(.endOfInput, .reduce 3)]⟩]
  reductions := .ofList [
    (0, ⟨1, ⟨1⟩, some ⟨false, "root", .node ⟨0⟩⟩⟩), (1, ⟨1, .start, none⟩),
    (2, ⟨1, ⟨3⟩, some ⟨false, "item", .token⟩⟩), (3, ⟨3, ⟨2⟩, none⟩)]

/-- The parser of groups. -/
def Parser.group : Parser := ⟨⟨0⟩, .group, .group, .characters, true⟩

theorem Language.walk_group :
  Language.group.walk "Group" ∅ ⟨∅, []⟩
      [.sequence [.literal "(", .combinator ⟨0⟩, .literal ")"]]
    = .ok ⟨.ofList [("item", false)], []⟩
  := by
  have hnew : (⟨0⟩ : CombinatorId) ∉ (∅ : OrderedSet CombinatorId) := by decide
  have hin : (⟨0⟩ : CombinatorId).index < Language.group.combinators.size := by decide
  rw [walk, List.append_nil, walk, walk, dif_neg hnew, dif_pos hin]
  simp only [Language.group, Found.addCombinator, Found.addProp, Found.addTarget, Combinator.parts]
  change walk _ _ _ _ [.literal "x", .literal ")"] = _
  rw [walk, walk, walk]
  rfl

theorem ClassTable.collect_group :
  ClassTable.collect .group ⟨0⟩ = .ok .group
  := by
  have hnew : ¬ ClassTable.empty.classes.contains ⟨0⟩ = true := by decide
  have hin : (⟨0⟩ : ClassId).index < Language.group.classes.size := by decide
  have hexamine : ClassTable.empty.examine .group Language.group.classes[0]
      = .ok ⟨.ofList [("item", false)], []⟩ := by
    apply Language.walk_group
  rw [collect, collectQueue, dif_neg hnew, dif_pos hin]
  simp only [hexamine, List.append_nil]
  rw [collectQueue]
  rfl

theorem Source.grammar_group :
  Source.grammar ⟨.group, .group⟩ ⟨0⟩ = .ok .group
  := by
  decide +kernel

theorem Parser.build_group :
  (Parser.build .group ⟨0⟩ {}).2 = .ok .group
  := by
  have hhalt : (Automaton.construct LanguageGrammar.group.grammar
      LanguageGrammar.group.startRule).halt = none := by decide +kernel
  have htable : Table.ofAutomaton (Automaton.construct LanguageGrammar.group.grammar
      LanguageGrammar.group.startRule).automaton = .group := by decide +kernel
  simp only [Parser.build, ClassTable.collect_group, makeTable, Source.automaton,
    Source.grammar_group, Construction.result, hhalt, htable]
  rfl

/-- The tokens of a group. -/
def Token.group : List Token :=
  [⟨some "(", ⟨0, 0, 0⟩, ⟨0, 1, 1⟩, .none⟩, ⟨some "x", ⟨0, 1, 1⟩, ⟨0, 2, 2⟩, .none⟩,
    ⟨some ")", ⟨0, 2, 2⟩, ⟨0, 3, 3⟩, .none⟩]

/-- The node of a group. -/
def Value.group : Value :=
  .node ⟨⟨0⟩, "Group", [("item", .token ⟨some "x", ⟨0, 1, 1⟩, ⟨0, 2, 2⟩, .none⟩)]⟩

/-- The theorem at a group. -/
theorem Parser.exists_tree_of_parse_group :
  (Parser.build .group ⟨0⟩ {}).2 = .ok .group ∧ Parser.group.generated = true
    ∧ Parser.group.machine.parse nextOfList 10 Token.group = some (.ok .group)
    ∧ ∃ lg, Source.grammar ⟨.group, Parser.group.classes⟩ ⟨0⟩ = .ok lg
      ∧ ∃ children behind, DeriveFrom lg.grammar (lg.grammar.expansion lg.startRule) children
        ∧ Reads nextOfList .start Token.group (tokensOf children) behind
        ∧ Value.group
          = rootValue lg.grammar Parser.group.classes behind (.node lg.startRule children)
  := by
  have hparse : Parser.group.machine.parse nextOfList 10 Token.group = some (.ok .group) := by rfl
  use Parser.build_group, rfl, hparse
  apply Parser.exists_tree_of_parse Parser.build_group rfl hparse

end CaptureLR

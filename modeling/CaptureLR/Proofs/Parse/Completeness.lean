import CaptureLR.Proofs.Lowering.Readings

/-!
# Completeness of parsing

In a grammar whose nonterminals all generate something, a generated parser reads the leaves of
every derivation tree of the start rule and comes to the value of the tree. The parse follows the
tree from left to right: behind the path to a core it shifts and reduces what stands behind the
dot, as long as the token that comes next is one that the core expects. Since the parse of a
source is unique, so is the tree.
-/

namespace CaptureLR

open DerivationTree

variable {σ : Type} {next : σ → Option (TokenItem × σ)} {source : σ} {g : Grammar}
  {startRule : Nat} {a : Automaton} {m : Machine} {path : List Symbol} {behind lastEnd : Position}
  {t : DerivationTree} {ts trees : List DerivationTree} {tokens rest : List Token}

/-! ### What comes next -/

/-- The lookahead that some tokens begin with, or the end of the input if there are none. -/
def lookaheadOf : List Token → Lookahead
  | [] => .endOfInput
  | t :: _ => t.lookahead

theorem Ahead.lookahead_eq {t : Token} (h : Ahead next t lastEnd source tokens behind) :
  t.lookahead = lookaheadOf tokens
  := by
  cases h with
  | stopped hk => rw [Token.lookahead, hk, lookaheadOf]
  | token => rfl

theorem Ahead.start_eq {t : Token} (h : Ahead next t lastEnd source [] behind) :
  t.start = behind
  := by
  cases h
  rfl

/-- What comes next is what the terminals of some tokens lead to, behind them what comes then. -/
theorem lookaheadOf_mem_leads {w : List Terminal} (hw : tokens.map Token.kind = w.map some) :
  lookaheadOf (tokens ++ rest) ∈ Grammar.leads (.singleton (lookaheadOf rest)) w
  := by
  cases w with
  | nil =>
      obtain rfl := List.map_eq_nil_iff.mp hw
      apply List.mem_singleton.mpr rfl
  | cons k w =>
      obtain ⟨t, tokens, rfl, hk, -⟩ := List.map_eq_cons_iff.mp hw
      have ht : t.lookahead = .terminal k := by rw [Token.lookahead, hk]
      apply List.mem_singleton.mpr ht

/-! ### Following a tree -/

/-- The state of a number stands behind a path and knows what is expected there. -/
def Automaton.BehindAll (g : Grammar) (startRule : Nat) (a : Automaton) (path : List Symbol)
    (i : Nat) : Prop :=
  ∃ s : State, a.states[i]? = some s ∧ s.IsBehind g startRule path ∧ s.Knows g startRule path

/-- A configuration stands for trees behind a path, with some tokens to come. -/
structure Config.Faces (g : Grammar) (startRule : Nat) (a : Automaton) (classes : ClassTable)
    (next : σ → Option (TokenItem × σ)) (c : Config σ) (path : List Symbol)
    (trees : List DerivationTree) (tokens : List Token) (behind : Position) : Prop where
  stands : c.Stands g classes (a.BehindAll g startRule) path trees
  ahead : Ahead next c.lookahead c.lastEnd c.source tokens behind

/-- Moves lead to a configuration that stands for trees, with some tokens to come. -/
def Config.Reaches (g : Grammar) (startRule : Nat) (a : Automaton) (m : Machine)
    (next : σ → Option (TokenItem × σ)) (x : Config σ × List DerivationTree) (path : List Symbol)
    (trees : List DerivationTree) (rest : List Token) (behind : Position) : Prop :=
  ∃ c, Relation.ReflTransGen (m.Moves next) x (c, trees)
    ∧ Config.Faces g startRule a m.classes next c path trees rest behind

/-- The leaves of a tree are read wherever the tree is called for and what comes behind it is
expected. -/
def DerivationTree.IsRead (g : Grammar) (startRule : Nat) (a : Automaton) (m : Machine)
    (next : σ → Option (TokenItem × σ)) (t : DerivationTree) : Prop :=
  ∀ (c : Config σ) (path : List Symbol) (trees : List DerivationTree) (core : Core) (s : Symbol)
    (rest : List Token) (behind : Position),
    Config.Faces g startRule a m.classes next c path trees (t.tokens ++ rest) behind →
    AtClosure g startRule path core → core.symbol? g = some s → t.DerivesFrom g s →
    (∀ n r, s = .nonterminal n → r ∈ g.rulesFor n →
      ExpectsInside g startRule path ⟨r, 0⟩ (lookaheadOf rest)) →
    Config.Reaches g startRule a m next (c, trees) (path ++ [s]) (t :: trees) rest behind

/-- The leaves of trees for what stands behind a dot are read if the rule expects what comes behind
them. -/
def DerivationTree.AreRead (g : Grammar) (startRule : Nat) (a : Automaton) (m : Machine)
    (next : σ → Option (TokenItem × σ)) (ts : List DerivationTree) : Prop :=
  ∀ (c : Config σ) (path : List Symbol) (trees : List DerivationTree) (r d : Nat)
    (rest : List Token) (behind : Position),
    Config.Faces g startRule a m.classes next c path trees (tokensOf ts ++ rest) behind →
    ExpectsInside g startRule path ⟨r, d⟩ (lookaheadOf rest) →
    DeriveFrom g ((g.expansion r).drop d) ts →
    Config.Reaches g startRule a m next (c, trees) (path ++ (g.expansion r).drop d)
        (ts.reverse ++ trees) rest behind
      ∧ ExpectsInside g startRule (path ++ (g.expansion r).drop d) ⟨r, d + ts.length⟩
        (lookaheadOf rest)

theorem DerivationTree.length_of_deriveFrom {ss : List Symbol} (h : DeriveFrom g ss ts) :
  ts.length = ss.length
  := by
  induction ss generalizing ts with
  | nil =>
      cases ts with
      | nil => rfl
      | cons t ts => cases h
  | cons s ss ih =>
      cases ts with
      | nil => cases h
      | cons t ts => rw [List.length_cons, List.length_cons, ih h.2]

theorem DerivationTree.areRead_nil :
  AreRead g startRule a m next []
  := by
  intro c path trees r d rest behind h hexpects hd
  cases hss : (g.expansion r).drop d with
  | cons s ss =>
      rw [hss] at hd
      cases hd
  | nil =>
      rw [List.append_nil]
      exact ⟨⟨c, .refl, h⟩, hexpects⟩

section Following

variable (ha : a.Finished g startRule) (hg : g.Compiled startRule m.classes)
  (hm : m.table = .ofAutomaton a) (hp : g.IsProductive)

include ha hg hp

/-- The state behind a path was expanded from its own kernel. -/
theorem Automaton.Finished.exists_state {i : Nat} (h : a.BehindAll g startRule path i) :
  ∃ s : State, a.states[i]? = some s ∧ s.Finished g startRule a.states s.kernel
    ∧ s.IsBehind g startRule path ∧ s.Knows g startRule path
  := by
  obtain ⟨s, hs, hb, hk⟩ := h
  refine ⟨s, hs, ?_, hb, hk⟩
  apply ha.finished_kernel _ hs
  intro path c hc
  apply hc.exists_expects hg.assembled hg.atRest hg.registered hp

include hm

/-- The top state does not accept as long as something is to be done that is not at the end of the
start rule. -/
theorem Config.Faces.exists_about {c : Config σ}
    (h : c.Faces g startRule a m.classes next path trees tokens behind) {core : Core}
    (hc : AtClosure g startRule path core) (hne : core ≠ ⟨startRule, 1⟩) :
  ∃ (top : Frame) (s : State), s.Finished g startRule a.states s.kernel
    ∧ s.IsBehind g startRule path ∧ s.Knows g startRule path
    ∧ ∀ action, s.actions.get? (lookaheadOf tokens).toColumn = some action → m.About c top action
  := by
  obtain ⟨top, below, hframes, hbehind, -⟩ := h.stands.stacked.exists_top
  obtain ⟨s, hs, hfinished, hb, hk⟩ := ha.exists_state hg hp hbehind
  use top, s, hfinished, hb, hk
  intro action haction
  have hrow : m.table.states[top.state]? = some ⟨s.accepting, s.actions⟩ := by
    rw [hm, Table.states_ofAutomaton, hs]
    rfl
  have haccepting : s.accepting = false := by
    by_contra hacc
    have hkernel := (hfinished.accepting_iff hb).mp (by simpa using hacc)
    obtain rfl := hg.rooted.eq_of_atKernel hg.assembled hkernel
    apply hne (hg.rooted.eq_of_atClosure hc)
  rw [← h.ahead.lookahead_eq] at haction
  exact ⟨hframes, hrow, haccepting, haction⟩

/-- A leaf is read by a shift. -/
theorem DerivationTree.isRead_leaf (t : Token) :
  (leaf t).IsRead g startRule a m next
  := by
  intro c path trees core s rest behind h hc hs ht hexpects
  cases s with
  | nonterminal n => cases ht
  | terminal k =>
      have hk : t.kind = some k := ht
      have hne : core ≠ ⟨startRule, 1⟩ := by
        rintro rfl
        rw [Core.symbol?, hg.rooted.expansion_eq] at hs
        cases hs
      obtain ⟨top, s, hfinished, hb, hknows, habout⟩ := h.exists_about ha hg hm hp hc hne
      obtain ⟨target, s', haction, hs', hb', hknows'⟩ :=
        hfinished.exists_shift hg.assembled.listsRules hb hc hs
      have hcolumn : (lookaheadOf ((leaf t).tokens ++ rest)).toColumn
          = (Symbol.terminal k).toColumn := by
        simp only [DerivationTree.tokens, List.singleton_append, lookaheadOf, Token.lookahead, hk]
        rfl
      rw [← hcolumn] at haction
      have hmove := habout _ haction
      obtain ⟨hstands, hahead⟩ := h
      generalize htokens : (leaf t).tokens ++ rest = tokens at hahead
      cases hahead with
      | stopped => simp [tokens] at htokens
      | token _ hreads =>
          obtain ⟨rfl, rfl⟩ := List.cons.inj htokens
          obtain ⟨t', lastEnd, source, hf, hahead⟩ := reads_iff.mp hreads
          refine ⟨_, .single (.shift hmove hf), ?_, hahead⟩
          apply hstands.shifted hk ⟨s', hs', hb', hknows' hknows⟩

omit ha hm hp in
/-- A tree and what stands behind it are read one after the other. -/
theorem DerivationTree.areRead_cons (ht : t.IsRead g startRule a m next)
    (hts : AreRead g startRule a m next ts) :
  AreRead g startRule a m next (t :: ts)
  := by
  intro c path trees r d rest behind h hexpects hd
  cases hss : (g.expansion r).drop d with
  | nil =>
      rw [hss] at hd
      cases hd
  | cons s ss =>
      rw [hss] at hd
      obtain ⟨hds, hdss⟩ := hd
      have hdrop : (g.expansion r).drop (d + 1) = ss := by
        rw [← List.tail_drop, hss, List.tail_cons]
      have hs : (⟨r, d⟩ : Core).symbol? g = some s := by
        rw [Core.symbol?, ← List.head?_drop, hss, List.head?_cons]
      -- what begins the other trees is expected by the rules of the first symbol
      have hfirst : ∀ n r', s = .nonterminal n → r' ∈ g.rulesFor n →
          ExpectsInside g startRule path ⟨r', 0⟩ (lookaheadOf (tokensOf ts ++ rest)) := by
        rintro n r' rfl hr'
        obtain ⟨w, hw, hgen⟩ := generates_of_deriveFrom hdss
        rw [← hdrop] at hgen
        apply hexpects.rule hg.assembled hg.atRest hs hr' hgen (lookaheadOf_mem_leads hw)
      rw [tokensOf, List.append_assoc] at h
      obtain ⟨c', hmoves, hc'⟩ := ht c path trees ⟨r, d⟩ s _ behind h hexpects.atClosure hs hds hfirst
      have hnext : ExpectsInside g startRule (path ++ [s]) ⟨r, d + 1⟩ (lookaheadOf rest) :=
        .kernel (.advance hexpects hs)
      obtain ⟨⟨c'', hmoves', hc''⟩, hexpects'⟩ := hts c' (path ++ [s]) (t :: trees) r (d + 1) rest
        behind hc' hnext (by rw [hdrop]; apply hdss)
      rw [hdrop, List.append_assoc, List.singleton_append] at hexpects' hc''
      rw [List.length_cons, List.reverse_cons, List.append_assoc, List.singleton_append]
      use ⟨c'', hmoves.trans hmoves', hc''⟩
      rw [Nat.add_right_comm] at hexpects'
      apply hexpects'

/-- A tree is read by reading its trees and reducing. -/
theorem DerivationTree.isRead_node {r : Nat} (hts : AreRead g startRule a m next ts) :
  (node r ts).IsRead g startRule a m next
  := by
  intro c path trees core s rest behind h hc hs ht hexpects
  cases s with
  | terminal k => cases ht
  | nonterminal n =>
      obtain ⟨hr, hd⟩ := ht
      have hr0 := hexpects n r rfl hr
      obtain ⟨⟨c', hmoves, hc'⟩, hexpects'⟩ := hts c path trees r 0 rest behind h hr0 hd
      rw [List.drop_zero, Nat.zero_add] at hexpects'
      rw [List.drop_zero] at hc'
      have hlength := length_of_deriveFrom hd
      have hcomplete : (⟨r, ts.length⟩ : Core).symbol? g = none := by
        rw [Core.symbol?, hlength, List.getElem?_eq_none (Nat.le_refl _)]
      have hne : (⟨r, ts.length⟩ : Core) ≠ ⟨startRule, 1⟩ := by
        intro heq
        obtain rfl : r = startRule := congrArg Core.rule heq
        obtain rfl := hg.rooted.eq_start_of_mem hg.assembled hr
        apply hg.rooted.symbol_ne_start hs
      obtain ⟨top, s, hfinished, hb, hknows, habout⟩ :=
        hc'.exists_about ha hg hm hp hexpects'.atClosure hne
      have haction := hfinished.reduce_of_expectsInside hg.assembled.listsRules hb hknows hexpects'
        hcomplete
      obtain ⟨exposed, frames, hexposed, hreduce, hstands⟩ :=
        hc'.stands.exists_exposed hg.assembled hr (hg.known n) top.state
      obtain ⟨s', hs', hfinished', hb', hknows'⟩ := ha.exists_state hg hp hexposed
      obtain ⟨target, s'', hgoto, hs'', hb'', hknows''⟩ :=
        hfinished'.exists_shift hg.assembled.listsRules hb' hc hs
      have hsucc : m.table.successor? exposed.state n = some target := by
        apply Table.successor?_eq_some.mpr
        rw [hm, Table.states_ofAutomaton, hs']
        exact ⟨_, rfl, hgoto⟩
      have hreduction : m.table.reductions.get? r
          = some ⟨(g.expansion r).length, n, g.capture? n⟩ := by
        rw [hm, Table.ofAutomaton, ha.grammar_eq]
        apply Table.get?_reductionsOf_rule hg.assembled hr
      have hmove : m.Moves next (c', ts.reverse ++ trees) _ := .reduce (habout _ haction) hreduction
        ((hreduce _).mpr ⟨target, hsucc, rfl⟩)
      have hstands' := hstands target ⟨s'', hs'', hb'', hknows'' hknows'⟩
      have hlength' : (g.expansion r).length = ts.reverse.length := by
        rw [List.length_reverse, hlength]
      rw [hlength', List.take_left, List.drop_left, List.reverse_reverse] at hmove hstands'
      exact ⟨_, hmoves.tail hmove, hstands', hc'.ahead⟩

end Following

mutual

/-- The leaves of every tree are read where it is called for. -/
theorem DerivationTree.isRead (ha : a.Finished g startRule) (hg : g.Compiled startRule m.classes)
    (hm : m.table = .ofAutomaton a) (hp : g.IsProductive) :
    ∀ t : DerivationTree, t.IsRead g startRule a m next
  | .leaf t => isRead_leaf ha hg hm hp t
  | .node _ ts => isRead_node ha hg hm hp (areRead ha hg hm hp ts)

/-- The leaves of all trees are read where they are called for. -/
theorem DerivationTree.areRead (ha : a.Finished g startRule) (hg : g.Compiled startRule m.classes)
    (hm : m.table = .ofAutomaton a) (hp : g.IsProductive) :
    ∀ ts : List DerivationTree, AreRead g startRule a m next ts
  | [] => areRead_nil
  | t :: ts => areRead_cons hg (isRead ha hg hm hp t) (areRead ha hg hm hp ts)

end

/-- The leaves of trees of the start rule are read to the end, and the value of the trees is
accepted. -/
theorem Machine.exists_moves_of_reads (ha : a.Finished g startRule)
    (hg : g.Compiled startRule m.classes) (hm : m.table = .ofAutomaton a) (hp : g.IsProductive)
    (hts : DeriveFrom g (g.expansion startRule) ts)
    (hreads : Reads next .start source (tokensOf ts) behind) :
  ∃ c, Machine.start next source = .ok c ∧ ∃ c',
    Relation.ReflTransGen (m.Moves next) (c, []) (c', ts.reverse)
      ∧ m.step next c'
        = .done (.ok (DerivationTree.rootValue g m.classes behind (.node startRule ts)))
  := by
  obtain ⟨t, lastEnd, source', hf, hahead⟩ := reads_iff.mp hreads
  obtain ⟨s, hs, hb, hk⟩ := ha.isBehind_nil
  have hstart : Machine.start next source = .ok ⟨[⟨0, 0, 0, ∅⟩], #[], t, lastEnd, source'⟩ := by
    rw [Machine.start, hf]
  refine ⟨_, hstart, ?_⟩
  have hfaces : Config.Faces g startRule a m.classes next
      ⟨[⟨0, 0, 0, ∅⟩], #[], t, lastEnd, source'⟩ [] [] (tokensOf ts ++ []) behind := by
    rw [List.append_nil]
    exact ⟨⟨.bottom ⟨s, hs, hb, hk⟩, rfl⟩, hahead⟩
  obtain ⟨⟨c, hmoves, hc⟩, -⟩ := areRead ha hg hm hp ts _ [] [] startRule 0 [] behind hfaces
    (.kernel .start) hts
  rw [List.append_nil] at hmoves hc
  use c, hmoves
  -- the top state accepts behind the root
  rw [List.drop_zero, List.nil_append, hg.rooted.expansion_eq] at hc
  obtain ⟨top, below, hframes, ⟨s', hs', hb', -⟩, -⟩ := hc.stands.stacked.exists_top
  obtain ⟨k, hfinished⟩ := ha.states _ s' hs'
  have haccepting : s'.accepting = true := by
    apply (hfinished.accepting_iff hb').mpr
    apply hg.rooted.atKernel_root
  have hstacked := hc.stands.stacked
  rw [hframes] at hstacked
  obtain ⟨t', ht', -, hslots⟩ := hstacked.exists_tree
  obtain rfl : ts = [t'] := by simpa using ht'
  apply Machine.step_eq_ok_iff.mpr
  refine ⟨top, below, ⟨s'.accepting, s'.actions⟩, hframes, ?_, haccepting, ?_⟩
  · rw [hm, Table.states_ofAutomaton, hs']
    rfl
  · rw [rootValue_start hg, hslots, hc.ahead.start_eq]

/-! ### Trees of one sequence of terminals -/

/-- A token of which only the kind is left. -/
def Token.bare (t : Token) : Token := ⟨t.kind, .start, .start, .none⟩

namespace DerivationTree

mutual

/-- The tree with nothing left of its leaves but their kinds. -/
def bare : DerivationTree → DerivationTree
  | .leaf t => .leaf t.bare
  | .node r ts => .node r (bareOf ts)

/-- The trees with nothing left of their leaves but their kinds. -/
def bareOf : List DerivationTree → List DerivationTree
  | [] => []
  | t :: ts => t.bare :: bareOf ts

end

mutual

theorem tokens_bare : ∀ t : DerivationTree, t.bare.tokens = t.tokens.map Token.bare
  | .leaf _ => rfl
  | .node _ ts => tokensOf_bareOf ts

theorem tokensOf_bareOf : ∀ ts : List DerivationTree,
    tokensOf (bareOf ts) = (tokensOf ts).map Token.bare
  | [] => rfl
  | t :: ts => by
      rw [bareOf, tokensOf, tokensOf, List.map_append, tokens_bare t, tokensOf_bareOf ts]

end

mutual

/-- What is left of a tree derives from the same symbol. -/
theorem derivesFrom_bare : ∀ {s : Symbol} {t : DerivationTree},
    t.DerivesFrom g s → t.bare.DerivesFrom g s
  | .terminal _, .leaf _, h => h
  | .nonterminal _, .node _ _, h => ⟨h.1, deriveFrom_bareOf h.2⟩

theorem deriveFrom_bareOf : ∀ {ss : List Symbol} {ts : List DerivationTree},
    DeriveFrom g ss ts → DeriveFrom g ss (bareOf ts)
  | [], [], _ => trivial
  | _ :: _, _ :: _, h => ⟨derivesFrom_bare h.1, deriveFrom_bareOf h.2⟩

end

end DerivationTree

/-- Trees of the start rule with the same leaves are the same. -/
theorem DerivationTree.eq_of_tokensOf_eq (ha : a.Finished g startRule)
    (hg : g.Compiled startRule m.classes) (hm : m.table = .ofAutomaton a) (hp : g.IsProductive)
    {ts' : List DerivationTree} (hts : DeriveFrom g (g.expansion startRule) ts)
    (hts' : DeriveFrom g (g.expansion startRule) ts') (h : tokensOf ts = tokensOf ts') :
  ts = ts'
  := by
  have hkinds : ∀ t ∈ tokensOf ts, t.kind ≠ none := by
    intro t ht hk
    obtain ⟨w, hw, -⟩ := generates_of_deriveFrom hts
    have hmem := List.mem_map_of_mem (f := Token.kind) ht
    rw [hw, hk] at hmem
    simp at hmem
  obtain ⟨behind, hreads⟩ := exists_reads_nextOfList hkinds .start
  obtain ⟨c, hc, c', hmoves, hdone⟩ := Machine.exists_moves_of_reads ha hg hm hp hts hreads
  rw [h] at hreads
  obtain ⟨d, hd, d', hmoves', hdone'⟩ := Machine.exists_moves_of_reads ha hg hm hp hts' hreads
  rw [h, hd] at hc
  cases hc
  have heq := Machine.eq_of_moves hmoves hdone hmoves' hdone'
  apply List.reverse_injective
  apply congrArg Prod.snd heq

/-- The parser of a language whose nonterminals all generate something reads every sentence: if a
source gives the leaves of a derivation tree of the start rule, the parse comes to the value of
the tree. No sequence of terminals has two such trees. -/
theorem Parser.parse_of_tree {l : Language} {root : ClassId} {config : ParserConfig} {p : Parser}
    {lg : LanguageGrammar} (hbuild : (Parser.build l root config).2 = .ok p)
    (hgenerated : p.generated = true) (hgrammar : Source.grammar ⟨l, p.classes⟩ root = .ok lg)
    (hproductive : lg.grammar.IsProductive) :
  (∀ (σ : Type) (next : σ → Option (TokenItem × σ)) (source : σ) (children : List DerivationTree)
      (behind : Position), DeriveFrom lg.grammar (lg.grammar.expansion lg.startRule) children →
      Reads next .start source (tokensOf children) behind →
      ∃ n, ∀ fuel, n ≤ fuel → p.machine.parse next fuel source
        = some (.ok (rootValue lg.grammar p.classes behind (.node lg.startRule children))))
    ∧ ∀ children children' : List DerivationTree,
      DeriveFrom lg.grammar (lg.grammar.expansion lg.startRule) children →
      DeriveFrom lg.grammar (lg.grammar.expansion lg.startRule) children' →
      (tokensOf children).map Token.kind = (tokensOf children').map Token.kind →
      bareOf children = bareOf children'
  := by
  obtain ⟨lg', a, hgrammar', ha, htable⟩ := Parser.exists_automaton hbuild hgenerated
  rw [hgrammar] at hgrammar'
  cases hgrammar'
  have hg := Source.compiled_of_grammar hgrammar
  have hfinished := Automaton.finished_of_build hg.assembled.listsRules ha
  constructor
  · intro σ next source children behind hc hreads
    obtain ⟨c, hstart, c', hmoves, hdone⟩ := Machine.exists_moves_of_reads (m := p.machine)
      hfinished hg htable hproductive hc hreads
    obtain ⟨n, hn⟩ := Machine.exists_run_of_moves hmoves hdone
    use n
    intro fuel hle
    rw [Machine.parse, hstart]
    apply hn fuel hle
  · intro children children' hc hc' hkinds
    apply DerivationTree.eq_of_tokensOf_eq (m := p.machine) hfinished hg htable hproductive
      (deriveFrom_bareOf hc) (deriveFrom_bareOf hc')
    have hbare : ∀ ts : List Token,
        ts.map Token.bare = (ts.map Token.kind).map (⟨·, .start, .start, .none⟩) := by
      intro ts
      rw [List.map_map]
      rfl
    rw [tokensOf_bareOf, tokensOf_bareOf, hbare, hbare, hkinds]

/-! ### Groups and nested lists -/

/-- The token of a character in the first line. -/
def Token.character (k : Terminal) (column : Nat) : Token :=
  ⟨some k, ⟨0, column, column⟩, ⟨0, column + 1, column + 1⟩, .none⟩

/-- All nonterminals of the grammar of groups generate something. -/
theorem LanguageGrammar.isProductive_group :
  LanguageGrammar.group.grammar.IsProductive
  := by
  let item : DerivationTree := .node 2 [.leaf (.character "x" 1)]
  let group : DerivationTree := .node 3 [.leaf (.character "(" 0), item, .leaf (.character ")" 2)]
  apply Grammar.isProductive_of_deriveFrom [.node 1 [.node 0 [group]], .node 0 [group], group, item]
  decide +kernel

/-- All nonterminals of the grammar of nested lists generate something. -/
theorem LanguageGrammar.isProductive_nested :
  LanguageGrammar.nested.grammar.IsProductive
  := by
  let letter : DerivationTree := .node 2 [.leaf (.character "x" 0)]
  let list : DerivationTree :=
    .node 11 [.leaf (.character "(" 0), .node 6 [], .leaf (.character ")" 1)]
  apply Grammar.isProductive_of_deriveFrom [.node 1 [.node 0 [list]], .node 0 [list], list,
    .node 6 [], .node 3 [letter], letter, .node 4 [list], .node 8 []]
  decide +kernel

/-- The parser of nested lists. -/
def Parser.nested : Parser where
  root := ⟨0⟩
  classes := .nested
  table := .ofAutomaton (Automaton.construct LanguageGrammar.nested.grammar
    LanguageGrammar.nested.startRule).automaton
  tokenizer := .characters
  generated := true

theorem Parser.build_nested :
  (Parser.build .nested ⟨0⟩ {}).2 = .ok .nested
  := by
  have hhalt : (Automaton.construct LanguageGrammar.nested.grammar
      LanguageGrammar.nested.startRule).halt = none := by decide +kernel
  simp only [Parser.build, ClassTable.collect_nested, makeTable, Source.automaton,
    Source.grammar_nested, Construction.result, hhalt, Parser.nested, Option.getD_none]

/-- The tokens of a list of a letter and a list without items, with a comma behind the last. -/
def Token.nested : List Token :=
  ["(", "x", ",", "(", ")", ",", ")"].mapIdx fun column k => .character k column

/-- The tree of the list. -/
def DerivationTree.nested : DerivationTree :=
  let inner := node 11 [leaf (.character "(" 3), node 6 [], leaf (.character ")" 4)]
  let first := node 3 [node 2 [leaf (.character "x" 1)]]
  let second := node 5 [node 4 [inner]]
  let others := node 9 [leaf (.character "," 2), second, node 10 [leaf (.character "," 5)]]
  node 0 [node 11 [leaf (.character "(" 0), node 7 [first, others], leaf (.character ")" 6)]]

/-- The node of the list, with the node of the list in it. -/
def Value.nested : Value :=
  .node ⟨⟨0⟩, "List", [("items", .array [.token (.character "x" 1),
    .node ⟨⟨0⟩, "List", [("items", .array [])]⟩])]⟩

theorem DerivationTree.rootValue_nested :
  rootValue LanguageGrammar.nested.grammar Parser.nested.classes ⟨0, 7, 7⟩
      (.node LanguageGrammar.nested.startRule [.nested])
    = .nested
  := by
  have hcapture : ∀ r < 12,
      LanguageGrammar.nested.grammar.capture? (LanguageGrammar.nested.grammar.head r)
        = match r with
          | 0 => some ⟨false, "root", .node ⟨0⟩⟩
          | 2 => some ⟨true, "items", .token⟩
          | 4 => some ⟨true, "items", .node ⟨0⟩⟩
          | _ => none := by decide +kernel
  generalize LanguageGrammar.nested.grammar = g at hcapture
  simp (disch := decide) only [rootValue, LanguageGrammar.nested, DerivationTree.nested, slots,
    slotsOf, hcapture]
  rfl

/-- The theorem for nested lists, with the tree of one. -/
theorem Parser.parse_of_tree_nested :
  (Parser.build .nested ⟨0⟩ {}).2 = .ok .nested ∧ Parser.nested.generated = true
    ∧ Source.grammar ⟨.nested, Parser.nested.classes⟩ ⟨0⟩ = .ok .nested
    ∧ LanguageGrammar.nested.grammar.IsProductive
    ∧ DeriveFrom LanguageGrammar.nested.grammar
      (LanguageGrammar.nested.grammar.expansion LanguageGrammar.nested.startRule) [.nested]
    ∧ Reads nextOfList .start Token.nested (tokensOf [.nested]) ⟨0, 7, 7⟩
    ∧ (∃ n, ∀ fuel, n ≤ fuel →
      Parser.nested.machine.parse nextOfList fuel Token.nested = some (.ok .nested))
    ∧ ∀ children, DeriveFrom LanguageGrammar.nested.grammar
        (LanguageGrammar.nested.grammar.expansion LanguageGrammar.nested.startRule) children →
      (tokensOf children).map Token.kind = Token.nested.map Token.kind →
      bareOf children = bareOf [.nested]
  := by
  have hderive : DeriveFrom LanguageGrammar.nested.grammar
      (LanguageGrammar.nested.grammar.expansion LanguageGrammar.nested.startRule) [.nested] := by
    decide +kernel
  have hreads : Reads nextOfList .start Token.nested (tokensOf [.nested]) ⟨0, 7, 7⟩ := by
    iterate 7 refine .token rfl (by decide) ?_
    exact .exhausted rfl
  obtain ⟨hparse, hunique⟩ := Parser.parse_of_tree Parser.build_nested rfl Source.grammar_nested
    LanguageGrammar.isProductive_nested
  obtain ⟨n, hn⟩ := hparse _ nextOfList Token.nested [.nested] _ hderive hreads
  refine ⟨Parser.build_nested, rfl, Source.grammar_nested, LanguageGrammar.isProductive_nested,
    hderive, hreads, ⟨n, ?_⟩, ?_⟩
  · intro fuel hle
    rw [hn fuel hle, DerivationTree.rootValue_nested]
  · intro children hchildren hkinds
    have htokens : tokensOf [.nested] = Token.nested := rfl
    rw [← htokens] at hkinds
    apply hunique children [.nested] hchildren hderive hkinds

end CaptureLR

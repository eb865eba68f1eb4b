import CaptureLR.Proofs.Lowering.Readings
import CaptureLR.Proofs.Parse.Completeness
import CaptureLR.Proofs.Parse.Validity

/-!
# Where errors are found

A parse fails at the first token that no sentence can go on with. The tokens that a parse has
shifted begin a sentence, since the path to the top state can be completed where all nonterminals
generate something. If the token that a parse fails at could be read as well, a sentence that goes
on with it would be parsed up to the same configuration, and would fail there too.
-/

namespace CaptureLR

open DerivationTree

variable {g : Grammar} {startRule : Nat} {a : Automaton} {m : Machine} {path : List Symbol}
  {c : Core} {u w : List Terminal}

/-! ### Beginnings of sentences -/

/-- A sequence of terminals begins something that the start symbol generates. -/
def Grammar.Continues (g : Grammar) (u : List Terminal) : Prop :=
  ∃ v, g.Generates [.nonterminal .start] (u ++ v)

theorem Grammar.Continues.take (h : g.Continues w) (k : Nat) :
  g.Continues (w.take k)
  := by
  obtain ⟨v, hv⟩ := h
  use w.drop k ++ v
  rw [← List.append_assoc, List.take_append_drop]
  apply hv

/-- What stands behind a dot generates something. -/
theorem Grammar.IsProductive.exists_generates_drop (hp : g.IsProductive)
    (hreg : ∀ r n, .nonterminal n ∈ g.expansion r → (g.info? n).isSome) (r d : Nat) :
  ∃ w, g.Generates ((g.expansion r).drop d) w
  := by
  apply hp.exists_generates
  intro n hn
  apply hreg r n (List.mem_of_mem_drop hn)

mutual

/-- What is generated on the way to a core and behind its dot begins a sentence. -/
theorem AtKernel.exists_generates (hp : g.IsProductive)
    (hreg : ∀ r n, .nonterminal n ∈ g.expansion r → (g.info? n).isSome) :
    ∀ {path : List Symbol} {c : Core} {u x : List Terminal}, AtKernel g startRule path c →
    g.Generates path u → g.Generates ((g.expansion c.rule).drop c.dot) x →
    ∃ v, g.Generates (g.expansion startRule) (u ++ x ++ v)
  | _, _, u, x, .start, hu, hx => by
      cases hu
      use []
      rw [List.append_nil]
      apply hx
  | _, _, u, x, .advance (c := c) hc hs, hu, hx => by
      obtain ⟨u, y, rfl, hu, hy⟩ := Grammar.generates_append_iff.mp hu
      obtain ⟨v, hv⟩ := hc.exists_generates hp hreg hu (x := y ++ x) (by
        rw [Core.drop_of_symbol hs]
        apply hy.append hx)
      use v
      rw [← List.append_assoc] at hv
      apply hv

/-- What is generated on the way to a core that is called for and behind its dot begins a
sentence. -/
theorem AtClosure.exists_generates (hp : g.IsProductive)
    (hreg : ∀ r n, .nonterminal n ∈ g.expansion r → (g.info? n).isSome) :
    ∀ {path : List Symbol} {c : Core} {u x : List Terminal}, AtClosure g startRule path c →
    g.Generates path u → g.Generates ((g.expansion c.rule).drop c.dot) x →
    ∃ v, g.Generates (g.expansion startRule) (u ++ x ++ v)
  | _, _, _, _, .kernel hc, hu, hx => hc.exists_generates hp hreg hu hx
  | _, _, u, x, .rule (c := c) hc hn hr, hu, hx => by
      obtain ⟨y, hy⟩ := hp.exists_generates_drop hreg c.rule (c.dot + 1)
      obtain ⟨v, hv⟩ := hc.exists_generates hp hreg hu (x := x ++ y) (by
        rw [Core.drop_of_symbol hn]
        apply Grammar.Generates.nonterminal hr hx hy)
      use y ++ v
      rw [← List.append_assoc, List.append_assoc] at hv
      apply hv

end

/-! ### Parses -/

section Parses

variable {σ : Type} {next : σ → Option (TokenItem × σ)} {source : σ} {c : Config σ}

/-- The start symbol generates what the start rule does. -/
theorem Grammar.continues_of_generates (hstart : g.expansionsOf .start = [g.expansion startRule])
    {v : List Terminal} (h : g.Generates (g.expansion startRule) (u ++ v)) :
  g.Continues u
  := by
  use v
  rw [generates_nonterminal_iff, hstart]
  exact ⟨_, List.mem_singleton_self _, h⟩

/-- The tokens that a parse has shifted begin a sentence. -/
theorem Config.Sound.exists_continues (ha : a.Finished g startRule)
    (hg : g.Compiled startRule m.classes) (hp : g.IsProductive)
    (hstart : g.expansionsOf .start = [g.expansion startRule]) {trees : List DerivationTree}
    (h : c.Sound g startRule ⟨1⟩ a m.classes next source path trees) :
  ∃ u, c.consumed.toList.map Token.kind = u.map some ∧ g.Continues u
  := by
  obtain ⟨u, hu, hgen⟩ := generates_of_deriveFrom h.stands.stacked.deriveFrom
  rw [← h.stands.consumed] at hu
  use u, hu
  obtain ⟨top, below, -, ⟨s, hs, hb⟩, -⟩ := h.stands.stacked.exists_top
  obtain ⟨k, hfinished⟩ := ha.states _ s hs
  obtain ⟨i, hi⟩ := List.exists_mem_of_ne_nil _ hfinished.isKernel.nonempty
  have hkernel := (hb i.core).mpr (List.mem_map_of_mem hi)
  obtain ⟨x, hx⟩ := hp.exists_generates_drop hg.registered i.core.rule i.core.dot
  obtain ⟨v, hv⟩ := hkernel.exists_generates hp hg.registered hgen hx
  apply Grammar.continues_of_generates hstart (v := x ++ v)
  rw [← List.append_assoc]
  apply hv

/-- What a source gives behind the tokens that a parse has shifted is the lookahead and what comes
behind it. -/
theorem Machine.Reached.exists_ahead (ha : a.Finished g startRule)
    (hg : g.Compiled startRule m.classes) (hm : m.table = .ofAutomaton a)
    (h : m.Reached next source c) {tokens : List Token} {behind : Position}
    (hreads : Reads next .start source tokens behind) :
  ∃ ts, Ahead next c.lookahead c.lastEnd c.source ts behind
    ∧ tokens = c.consumed.toList ++ ts
  := by
  induction h with
  | @start c h =>
      obtain ⟨t, lastEnd, source', hf, hahead⟩ := reads_iff.mp hreads
      rw [Machine.start, hf] at h
      cases h
      exact ⟨tokens, hahead, rfl⟩
  | @step c c' h hs ih =>
      obtain ⟨ts, hahead, htokens⟩ := ih
      obtain ⟨trees, hmove⟩ := Machine.exists_moves hs []
      cases hmove with
      | @shift _ _ top target t lastEnd source' habout hf =>
          -- the lookahead is among the tokens shifted, so it is not the end of the input
          obtain ⟨path, trees, hsound⟩ := (h.step hs).exists_sound ha hg hm
          obtain ⟨w, hw, -⟩ := generates_of_deriveFrom hsound.stands.stacked.deriveFrom
          rw [← hsound.stands.consumed, Machine.shifted, Array.toList_push, List.map_append] at hw
          cases hahead with
          | stopped hk =>
              have hmem : Token.kind c.lookahead ∈ w.map some := by
                rw [← hw]
                apply List.mem_append_right _ (List.mem_singleton_self _)
              rw [hk] at hmem
              simp at hmem
          | @token ts _ hk hreads' =>
              obtain ⟨t', lastEnd', source'', hf', hahead'⟩ := reads_iff.mp hreads'
              rw [hf] at hf'
              cases hf'
              use ts, hahead'
              rw [Machine.shifted, Array.toList_push, List.append_assoc, List.singleton_append]
              apply htokens
      | reduce => exact ⟨ts, hahead, htokens⟩

/-- A parse does not fail at a token that a sentence goes on with. -/
theorem Machine.Reached.not_continues (ha : a.Finished g startRule)
    (hg : g.Compiled startRule m.classes) (hm : m.table = .ofAutomaton a) (hp : g.IsProductive)
    (hstart : g.expansionsOf .start = [g.expansion startRule]) (h : m.Reached next source c)
    {e : ParseError} (hstep : m.step next c = .done (.error (.parse e)))
    (hu : (c.consumed.toList ++ [c.lookahead]).map Token.kind = u.map some) :
  ¬ g.Continues u
  := by
  rintro ⟨v, hv⟩
  rw [Grammar.generates_nonterminal_iff, hstart] at hv
  obtain ⟨_, he, hgen⟩ := hv
  cases List.mem_singleton.mp he
  -- the sentence as tokens, of which the first are those that the parse has fetched
  have hkinds : (c.consumed.toList ++ c.lookahead
      :: v.map (fun k => ⟨some k, .start, .start, .none⟩)).map Token.kind
      = (u ++ v).map some := by
    rw [List.append_cons, List.map_append, hu, List.map_map, List.map_append]
    rfl
  generalize v.map (fun k => Token.mk (some k) .start .start .none) = rest at hkinds
  obtain ⟨children, hderive, htokens⟩ := exists_deriveFrom hgen hkinds
  obtain ⟨d, hd, hframes, -, hlookahead, -⟩ := h.replay rest
  have hne : ∀ t ∈ tokensOf children, t.kind ≠ none := by
    intro t ht hk
    have hmem := List.mem_map_of_mem (f := Token.kind) ht
    rw [htokens, hkinds, hk] at hmem
    simp at hmem
  obtain ⟨behind, hreads⟩ := exists_reads_nextOfList hne .start
  obtain ⟨c₀, hc₀, d', hmoves, hdone⟩ := exists_moves_of_reads ha hg hm hp hderive hreads
  rw [← htokens] at hd
  obtain ⟨d₀, trees, hd₀, hmoves'⟩ := hd.exists_moves
  rw [hd₀] at hc₀
  cases hc₀
  -- the configuration of the sentence fails as well
  have hfails : m.step nextOfList d = .done (.error (.parse e)) := by
    apply step_eq_parse_iff.mpr
    rw [hframes, hlookahead]
    apply step_eq_parse_iff.mp hstep
  obtain ⟨rfl, -⟩ := Prod.mk.inj (eq_of_moves hmoves hdone hmoves' hfails)
  cases hfails.symm.trans hdone

end Parses

/-- A generated parser whose nonterminals all generate something shifts a token only if a sentence
goes on with it, and fails at the first token that no sentence goes on with, or at the end of the
input if there is none. -/
theorem Parser.error_position {l : Language} {root : ClassId} {config : ParserConfig} {p : Parser}
    {lg : LanguageGrammar} (hbuild : (Parser.build l root config).2 = .ok p)
    (hgenerated : p.generated = true) (hgrammar : Source.grammar ⟨l, p.classes⟩ root = .ok lg)
    (hproductive : lg.grammar.IsProductive) {σ : Type} {next : σ → Option (TokenItem × σ)}
    {source : σ} :
  (∀ c, p.machine.Reached next source c →
      ∃ u, c.consumed.toList.map Token.kind = u.map some ∧ lg.grammar.Continues u)
    ∧ ∀ (tokens : List Token) (behind : Position) (w : List Terminal) (fuel : Nat) (e : ParseError),
      Reads next .start source tokens behind → tokens.map Token.kind = w.map some →
      p.machine.parse next fuel source = some (.error (.parse e)) →
      (∃ k, tokens[k]? = some e.token ∧ (∀ j ≤ k, lg.grammar.Continues (w.take j))
          ∧ ¬ lg.grammar.Continues (w.take (k + 1)))
        ∨ (lg.grammar.Continues w ∧ e.token.kind = none ∧ e.token.start = behind)
  := by
  obtain ⟨lg', a, hgrammar', ha, htable⟩ := Parser.exists_automaton hbuild hgenerated
  rw [hgrammar] at hgrammar'
  cases hgrammar'
  have hg := Source.compiled_of_grammar hgrammar
  have hfinished := Automaton.finished_of_build hg.assembled.listsRules ha
  have hstart := Source.expansionsOf_start
    (Source.identifies_of_collect (Parser.collect_of_build hbuild)) hgrammar
  have hcontinues : ∀ c, p.machine.Reached next source c →
      ∃ u, c.consumed.toList.map Token.kind = u.map some ∧ lg.grammar.Continues u := by
    intro c hc
    obtain ⟨path, trees, hsound⟩ := hc.exists_sound (m := p.machine) hfinished hg htable
    apply hsound.exists_continues hfinished hg hproductive hstart
  use hcontinues
  intro tokens behind w fuel e hreads hw hparse
  rcases Machine.exists_step_of_parse hparse with ⟨e', -, he⟩ | ⟨c, hc, hstep⟩
  · cases he
  · obtain ⟨u, hu, hcont⟩ := hcontinues c hc
    obtain ⟨ts, hahead, rfl⟩ := hc.exists_ahead (m := p.machine) hfinished hg htable hreads
    obtain ⟨top, below, row, -, -, -, -, rfl⟩ := Machine.step_eq_parse_iff.mp hstep
    have hlength : c.consumed.toList.length = u.length := by
      rw [← List.length_map (f := Token.kind), hu, List.length_map]
    rw [List.map_append, hu] at hw
    obtain ⟨u', v, rfl, hu', hv⟩ := List.map_eq_append_iff.mp hw.symm
    obtain rfl : u = u' := (List.map_injective_iff.mpr (Option.some_injective _) hu').symm
    cases hahead with
    | stopped hk =>
        right
        obtain rfl := List.map_eq_nil_iff.mp hv
        rw [List.append_nil]
        exact ⟨hcont, hk, rfl⟩
    | @token ts _ hk hreads' =>
        left
        obtain ⟨k, v, rfl, hkind, -⟩ := List.map_eq_cons_iff.mp hv
        use u.length
        rw [← hlength, List.getElem?_append_right (Nat.le_refl _), Nat.sub_self]
        refine ⟨rfl, ?_, ?_⟩
        · intro j hj
          rw [hlength] at hj
          rw [List.take_append_of_le_length hj]
          apply hcont.take
        · rw [hlength, List.take_length_add_append]
          apply hc.not_continues (m := p.machine) hfinished hg htable hproductive hstart hstep
          rw [List.map_append, hu, List.map_append]
          simp [hkind]

/-- A group that ends too early. -/
def Token.unclosed : List Token := Token.group.take 2

/-- The theorem at a group that ends too early. -/
theorem Parser.error_position_unclosed :
  (Parser.build .group ⟨0⟩ {}).2 = .ok .group ∧ Parser.group.generated = true
    ∧ Source.grammar ⟨.group, Parser.group.classes⟩ ⟨0⟩ = .ok .group
    ∧ LanguageGrammar.group.grammar.IsProductive
    ∧ Reads nextOfList .start Token.unclosed Token.unclosed ⟨0, 2, 2⟩
    ∧ Token.unclosed.map Token.kind = ["(", "x"].map some
    ∧ Parser.group.machine.parse nextOfList 10 Token.unclosed
      = some (.error (.parse ⟨.endOfInput ⟨0, 2, 2⟩, [")"]⟩))
    ∧ (∀ c, Parser.group.machine.Reached nextOfList Token.unclosed c →
      ∃ u, c.consumed.toList.map Token.kind = u.map some
        ∧ LanguageGrammar.group.grammar.Continues u)
    ∧ ((∃ k, Token.unclosed[k]? = some (Token.endOfInput ⟨0, 2, 2⟩)
        ∧ (∀ j ≤ k, LanguageGrammar.group.grammar.Continues (["(", "x"].take j))
        ∧ ¬ LanguageGrammar.group.grammar.Continues (["(", "x"].take (k + 1)))
      ∨ (LanguageGrammar.group.grammar.Continues ["(", "x"]
        ∧ (Token.endOfInput ⟨0, 2, 2⟩).kind = none
        ∧ (Token.endOfInput ⟨0, 2, 2⟩).start = ⟨0, 2, 2⟩))
  := by
  have hreads : Reads nextOfList .start Token.unclosed Token.unclosed ⟨0, 2, 2⟩ :=
    .token rfl (by decide) (.token rfl (by decide) (.exhausted rfl))
  have hparse : Parser.group.machine.parse nextOfList 10 Token.unclosed
      = some (.error (.parse ⟨.endOfInput ⟨0, 2, 2⟩, [")"]⟩)) := by rfl
  obtain ⟨hcontinues, herror⟩ := @Parser.error_position _ _ _ _ _ Parser.build_group rfl
    Source.grammar_group LanguageGrammar.isProductive_group _ nextOfList Token.unclosed
  exact ⟨Parser.build_group, rfl, Source.grammar_group, LanguageGrammar.isProductive_group, hreads,
    rfl, hparse, hcontinues, herror _ _ _ _ _ hreads rfl hparse⟩

end CaptureLR

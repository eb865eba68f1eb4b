import CaptureLR.Parser
import CaptureLR.Proofs.Automaton.Paths
import CaptureLR.Proofs.Lowering.Patterns

/-!
# Tables of generated parsers

The table of an automaton has the actions of its states and a reduction for every rule. A parser
whose table was generated has the table of the automaton of the grammar of its language.
-/

namespace CaptureLR

namespace Table

theorem get?_reductionsOf (g : Grammar) (r : Nat) :
  (reductionsOf g).get? r
    = g.rules[r]?.map (fun rule => ⟨rule.expansion.length, rule.head, g.capture? rule.head⟩)
  := by
  rw [reductionsOf, NumberedMap.get?_ofList_mapIdx, Array.getElem?_toList]

/-- The reduction by a rule of a nonterminal. -/
theorem get?_reductionsOf_rule {g : Grammar} (hg : g.Assembled) {n : Nonterminal} {r : Nat}
    (hr : r ∈ g.rulesFor n) :
  (reductionsOf g).get? r = some ⟨(g.expansion r).length, n, g.capture? n⟩
  := by
  obtain ⟨e, he⟩ := hg.exists_rule hr
  rw [get?_reductionsOf, Grammar.expansion, he]
  rfl

theorem states_ofAutomaton (a : Automaton) (i : Nat) :
  (ofAutomaton a).states[i]? = a.states[i]?.map (fun s => ⟨s.accepting, s.actions⟩)
  := by
  rw [ofAutomaton, Array.getElem?_map]

theorem successor?_eq_some {t : Table} {i target : Nat} {n : Nonterminal} :
  t.successor? i n = some target
    ↔ ∃ row : TableState, t.states[i]? = some row
      ∧ row.actions.get? (.nonterminal n) = some (.shift target)
  := by
  rw [successor?, action?]
  cases t.states[i]? with
  | none => simp
  | some row =>
      simp only [Option.bind_some, Option.some.injEq, exists_eq_left']
      cases row.actions.get? (.nonterminal n) with
      | none => simp
      | some action => cases action <;> simp

end Table

namespace Parser

/-- The classes of a parser are those collected from the root. -/
theorem collect_of_build {l : Language} {root : ClassId} {config : ParserConfig} {p : Parser}
    (h : (build l root config).2 = .ok p) :
  ClassTable.collect l root = .ok p.classes
  := by
  unfold build at h
  cases hc : ClassTable.collect l root with
  | error e =>
      rw [hc] at h
      cases h
  | ok classes =>
      simp only [hc] at h
      generalize makeTable l root classes config = made at h
      obtain ⟨log, result⟩ := made
      cases result with
      | error e => cases h
      | ok table =>
          cases h
          rfl

/-- A parser whose table was generated has the table of the automaton of its grammar. -/
theorem exists_automaton {l : Language} {root : ClassId} {config : ParserConfig} {p : Parser}
    (h : (build l root config).2 = .ok p) (hp : p.generated = true) :
  ∃ lg a, Source.grammar ⟨l, p.classes⟩ root = .ok lg
    ∧ Automaton.build lg.grammar lg.startRule = .ok a ∧ p.table = .ofAutomaton a
  := by
  unfold build makeTable Source.automaton at h
  cases hc : ClassTable.collect l root with
  | error e =>
      rw [hc] at h
      cases h
  | ok classes =>
      rw [hc] at h
      cases ht : config.table with
      | some record =>
          rw [ht] at h
          cases hr : record.load classes with
          | error e =>
              simp only [hr] at h
              cases h
          | ok table =>
              simp only [hr] at h
              cases h
              cases hp
      | none =>
          rw [ht] at h
          cases hl : Source.grammar ⟨l, classes⟩ root with
          | error e =>
              simp only [hl] at h
              cases h
          | ok lg =>
              cases ha : (Automaton.construct lg.grammar lg.startRule).result with
              | error e =>
                  simp only [hl, ha] at h
                  cases h
              | ok a =>
                  simp only [hl, ha] at h
                  cases h
                  use lg, a, hl, ha

end Parser

end CaptureLR

import CaptureLR.Proofs.Parse.Soundness
import CaptureLR.Proofs.Table.Storing

/-!
# Parsers that load what was stored

The table of a generated parser leads somewhere wherever it does something, so it can be stored, and
the parser built from what was stored is the same but for how it came by its table. So it parses
everything in the same way, down to the terminals that an error says were expected.
-/

namespace CaptureLR

/-! ### Generated tables -/

section Generated

variable {g : Grammar} {startRule : Nat} {a : Automaton} {classes : ClassTable}

/-- A rule that is complete somewhere is a rule of the grammar. -/
theorem AtClosure.exists_reduction (hg : g.Compiled startRule classes) {path : List Symbol} {c : Core}
    (h : AtClosure g startRule path c) :
  ∃ r, (Table.reductionsOf g).get? c.rule = some r
  := by
  obtain ⟨front, -, hfront⟩ := h.exists_front
  rcases hfront.exists_rule with ⟨_, n, -, -, hrule⟩ | ⟨-, hstart⟩
  · exact ⟨_, Table.get?_reductionsOf_rule hg.assembled hrule⟩
  · rw [Table.get?_reductionsOf, hstart, hg.rooted.rule]
    exact ⟨_, rfl⟩

/-- The table of a finished automaton is checked. -/
theorem Table.isChecked_ofAutomaton (ha : a.Finished g startRule) (hg : g.Compiled startRule classes) :
  (ofAutomaton a).IsChecked classes
  := by
  have hrows : ∀ (i : Nat) (row : TableState), (ofAutomaton a).states[i]? = some row →
      ∃ (s : State) (k : List Item), s.Finished g startRule a.states k ∧ s.actions = row.actions := by
    intro i row hrow
    rw [states_ofAutomaton, Option.map_eq_some_iff] at hrow
    obtain ⟨s, hs, rfl⟩ := hrow
    obtain ⟨k, hk⟩ := ha.states i s hs
    exact ⟨s, k, hk, rfl⟩
  constructor
  · obtain ⟨s, hs, -⟩ := ha.initial
    rw [ofAutomaton, Array.size_map]
    apply (Array.getElem?_eq_some_iff.mp hs).1
  · intro i row col target hrow haction
    obtain ⟨s, k, hk, hactions⟩ := hrows i row hrow
    rw [← hactions] at haction
    obtain ⟨-, -, -, s', hs', -⟩ := hk.justified.shift col target haction
    rw [ofAutomaton, Array.size_map]
    apply (Array.getElem?_eq_some_iff.mp hs').1
  · intro i row col rule hrow haction
    obtain ⟨s, k, hk, hactions⟩ := hrows i row hrow
    rw [← hactions] at haction
    obtain ⟨c, l, hc, -, rfl, -⟩ := (reduces_closure hg.assembled.listsRules hk.born.ordered).mp
      (hk.justified.reduce col rule haction)
    obtain ⟨paths, hpaths⟩ := hk.born.composed
    obtain ⟨path, -, hexpects⟩ := hpaths.followedBy_iff.mp hc
    rw [ofAutomaton, ha.grammar_eq]
    apply hexpects.atClosure.exists_reduction hg
  · intro rule r cap id hr hcap hid
    rw [ofAutomaton, ha.grammar_eq, get?_reductionsOf, Option.map_eq_some_iff] at hr
    obtain ⟨x, -, rfl⟩ := hr
    apply hg.known x.head cap id hcap hid

end Generated

namespace Parser

variable {l : Language} {root : ClassId} {config config' : ParserConfig} {p : Parser}

/-- The table of a generated parser is checked. -/
theorem isChecked_of_build (hbuild : (build l root config).2 = .ok p) (hp : p.generated = true) :
  p.table.IsChecked p.classes
  := by
  obtain ⟨lg, a, hgrammar, ha, htable⟩ := exists_automaton hbuild hp
  have hg := Source.compiled_of_grammar hgrammar
  rw [htable]
  apply Table.isChecked_ofAutomaton (Automaton.finished_of_build hg.assembled.listsRules ha) hg

/-! ### Storing and loading -/

/-- The tokenizer of a parser is the one it is configured with. -/
theorem tokenizer_of_build (h : (build l root config).2 = .ok p) :
  p.root = root ∧ p.tokenizer = config.tokenizer.getD .characters
  := by
  unfold build at h
  simp only [collect_of_build h] at h
  generalize makeTable l root p.classes config = made at h
  obtain ⟨log, result⟩ := made
  cases result with
  | error e => cases h
  | ok table =>
      rw [← Except.ok.inj h]
      exact ⟨rfl, rfl⟩

/-- A parser that loads a stored table has this table, and all else is as it is for the generated
one. -/
theorem build_of_load (hbuild : (build l root config).2 = .ok p)
    (htokenizer : config'.tokenizer = config.tokenizer) {record : TableRecord}
    (htable : config'.table = some record) {table : Table} (hload : record.load p.classes = .ok table) :
  (build l root config').2 = .ok { p with table := table, generated := false }
  := by
  obtain ⟨rfl, heq⟩ := tokenizer_of_build hbuild
  rw [← htokenizer] at heq
  simp only [build, collect_of_build hbuild, makeTable, htable, hload, ← heq]

/-- A generated parser can store its table, and what it stores is loaded as the table. -/
theorem exists_record (hbuild : (build l root config).2 = .ok p) (hp : p.generated = true) :
  ∃ record, p.record = .ok record ∧ p.table.toRecord p.classes = .ok record
    ∧ record.load p.classes = .ok p.table
  := by
  have hchecked := isChecked_of_build hbuild hp
  obtain ⟨record, hrecord⟩ := hchecked.exists_record
  refine ⟨record, ?_, hrecord, ?_⟩
  · rw [Parser.record, if_pos hp, hrecord]
  · apply hchecked.load_of_toRecord (.collected (collect_of_build hbuild)) hrecord

/-- A generated parser can store its table. What it stored is read back from its text, and from the
text of its compact form, and the parsers built with it for the same language, root and tokenizer
give the same result for every text, or with any source of tokens. -/
theorem parse_eq_of_record (hbuild : (build l root config).2 = .ok p) (hp : p.generated = true) :
  ∃ record, p.record = .ok record
    ∧ record.compact.expand = .ok record
    ∧ (p.table.IsRepresentable → TableRecord.ofText record.text = .ok record
      ∧ CompactTable.ofText record.compact.text = .ok record.compact)
    ∧ ∀ config' : ParserConfig, config'.tokenizer = config.tokenizer → config'.table = some record →
      ∃ p', (build l root config').2 = .ok p' ∧ p'.generated = false
        ∧ (∀ text, p'.parse? text = p.parse? text)
        ∧ ∀ {σ : Type} (next : σ → Option (TokenItem × σ)) (fuel : Nat) (source : σ),
          p'.machine.parse next fuel source = p.machine.parse next fuel source
  := by
  obtain ⟨record, hrecord, hstored, hload⟩ := exists_record hbuild hp
  refine ⟨record, hrecord, Table.expand_compact_of_toRecord hstored, ?_, ?_⟩
  · intro hrepresentable
    have hnumbers := hrepresentable.record hstored
    exact ⟨TableRecord.ofText_text hnumbers, CompactTable.ofText_text hnumbers.compact⟩
  · intro config' htokenizer htable
    refine ⟨{ p with generated := false }, ?_, rfl, fun _ => rfl, fun _ _ _ => rfl⟩
    apply build_of_load hbuild htokenizer htable hload

end Parser

/-! ### The table of groups -/

theorem Table.isRepresentable_group :
  Table.group.IsRepresentable
  := by
  constructor
  · decide
  · decide

/-- The theorem for groups. -/
theorem Parser.parse_eq_of_record_group :
  (Parser.build .group ⟨0⟩ {}).2 = .ok .group ∧ Parser.group.generated = true
    ∧ Table.group.IsRepresentable
    ∧ ∃ record, Parser.group.record = .ok record
      ∧ record.compact.expand = .ok record
      ∧ TableRecord.ofText record.text = .ok record
      ∧ CompactTable.ofText record.compact.text = .ok record.compact
      ∧ ∃ p', (Parser.build .group ⟨0⟩ { table := some record }).2 = .ok p' ∧ p'.generated = false
        ∧ (∀ text, p'.parse? text = Parser.group.parse? text)
        ∧ ∀ {σ : Type} (next : σ → Option (TokenItem × σ)) (fuel : Nat) (source : σ),
          p'.machine.parse next fuel source = Parser.group.machine.parse next fuel source
  := by
  use Parser.build_group, rfl, Table.isRepresentable_group
  obtain ⟨record, hrecord, hcompact, htexts, hload⟩ :=
    Parser.parse_eq_of_record Parser.build_group rfl
  obtain ⟨htext, hcompactText⟩ := htexts Table.isRepresentable_group
  exact ⟨record, hrecord, hcompact, htext, hcompactText, hload { table := some record } rfl rfl⟩

end CaptureLR

import CaptureLR.Proofs.Lowering.Captures
import CaptureLR.Proofs.Parse.Nodes
import CaptureLR.Proofs.Parse.Soundness

/-!
# The fields of parsed nodes

Every node in the value of a parse has all fields of its class. An array among them holds all
elements captured for it exactly if nothing was captured for it on its own. That is sure where each
class whose captures flow into the class of the node has the property for an array or not at all;
classes are checked one by one, so it does not hold of all languages for which a parser is made.
-/

namespace CaptureLR

open Grammar DerivationTree

/-! ### What is taken in a class -/

/-- The rules of a nonterminal have its expansions, with first sets or without. -/
theorem Grammar.expansion_mem_expansionsOf {g : Grammar} {n : Nonterminal} {r : Nat}
    (h : r ∈ g.computeFirst.rulesFor n) :
  g.computeFirst.expansion r ∈ g.expansionsOf n
  := by
  rw [← expansionsOf_computeFirst]
  apply List.mem_map_of_mem h

section Takings

variable {l : Language} {root c : ClassId} {d : Draft} {startRule : Nat} {classes : ClassTable}
  {prop : String}

mutual

/-- What is taken below a nonterminal that belongs to a class is gathered by the class. -/
theorem gathers_of_mem_takings (h : d.Lowered l root)
    (hg : d.grammar.computeFirst.Compiled startRule classes) :
    ∀ {behind : Position} {t : DerivationTree} {n : Nonterminal} {s : Slot},
    t.DerivesFrom d.grammar.computeFirst (.nonterminal n) → d.Belongs l c n →
    s ∈ t.takings d.grammar.computeFirst classes prop behind → l.Gathers c prop s.isMany
  | _, leaf _, _, _, _, _, hs => by
      rw [takings] at hs
      cases hs
  | behind, node r children, n, s, ht, hb, hs => by
      rw [DerivesFrom] at ht
      obtain ⟨hr, hchildren⟩ := ht
      have hsame := sameRules_computeFirst d.grammar
      have hchosen := mem_takings_node hs
      rw [hg.assembled.head_eq hr, hsame.capture?] at hchosen
      rcases hchosen with ⟨cap, hcap, rfl, hmany⟩ | ⟨hs, hvisible⟩
      · rw [hmany]
        apply h.gathers hb hcap
      · apply gathers_of_mem_takingsOf h hg hchildren _ hs
        intro m hm
        apply h.belongs_of_mem _ (expansion_mem_expansionsOf hr) hm hb
        -- all classes that are captured are in the table
        intro cap id hcap hk
        have hknown := hg.known n cap id ((hsame.capture? n).trans hcap) hk
        rw [hvisible cap id hcap hk] at hknown
        cases hknown

/-- What is taken below nonterminals that belong to a class is gathered by the class. -/
theorem gathers_of_mem_takingsOf (h : d.Lowered l root)
    (hg : d.grammar.computeFirst.Compiled startRule classes) :
    ∀ {behind : Position} {cs : List DerivationTree} {ss : List Symbol} {s : Slot},
    DeriveFrom d.grammar.computeFirst ss cs → (∀ m, .nonterminal m ∈ ss → d.Belongs l c m) →
    s ∈ takingsOf d.grammar.computeFirst classes prop behind cs → l.Gathers c prop s.isMany
  | _, [], _, _, _, _, hs => by
      rw [takingsOf] at hs
      cases hs
  | _, t :: cs, [], _, hcs, _, _ => by simp [DeriveFrom] at hcs
  | behind, t :: cs, x :: ss, s, hcs, hss, hs => by
      rw [DeriveFrom] at hcs
      rw [takingsOf, List.mem_append] at hs
      rcases hs with hs | hs
      · cases x with
        | terminal kind =>
            cases t with
            | leaf token =>
                rw [takings] at hs
                cases hs
            | node r children => simp [DerivesFrom] at hcs
        | nonterminal m =>
            apply gathers_of_mem_takings h hg hcs.1 (hss m List.mem_cons_self) hs
      · apply gathers_of_mem_takingsOf h hg hcs.2 (fun m hm => hss m (List.mem_cons_of_mem _ hm)) hs

end

end Takings

/-! ### What nodes hold -/

/-- A node holds what was taken for its class in some trees that are followed by a position. It has
all fields of the class, and one that is an array holds all elements taken for it exactly if nothing
was taken for it on its own, as where no class whose captures flow into that of the node has it for
a field on its own. -/
structure Node.Holds (l : Language) (g : Grammar) (classes : ClassTable) (behind : Position)
    (cs : List DerivationTree) (c : NodeClass) (n : Node) : Prop where
  nodeClass : classes.get? n.nodeClass = some c
  taken : IsNode g classes c behind cs n
  declared : ∀ prop b, c.fields.get? prop = some b → (n.get? prop).isSome
  array : ∀ prop, c.fields.get? prop = some true →
    (n.get? prop = some (.array (Slot.elementsOf (takingsOf g classes prop behind cs)))
      ↔ Slot.AreMany (takingsOf g classes prop behind cs))
  agreeing : ∀ prop, (∀ d c', l.Flows n.nodeClass d → classes.get? d = some c' →
    c'.fields.get? prop ≠ some false) → Slot.AreMany (takingsOf g classes prop behind cs)

section Holds

variable {l : Language} {root : ClassId} {classes : ClassTable} {lg : LanguageGrammar}
  (hc : ClassTable.collect l root = .ok classes)
  (hgrammar : Source.grammar ⟨l, classes⟩ root = .ok lg)

include hc hgrammar

/-- What is taken for a class that is captured in some trees is gathered by the class. -/
theorem DerivationTree.MakesIn.gathers {behind behind' : Position} {ts cs : List DerivationTree}
    {ss : List Symbol} {c : NodeClass} (hts : DeriveFrom lg.grammar ss ts)
    (hm : MakesIn lg.grammar classes behind ts c behind' cs) :
  classes.get? c.id = some c
    ∧ ∀ prop, ∀ s ∈ takingsOf lg.grammar classes prop behind' cs, l.Gathers c.id prop s.isMany
  := by
  have hs := Source.identifies_of_collect hc
  have hg := Source.compiled_of_grammar hgrammar
  obtain ⟨d, hd, hsame⟩ := Source.exists_lowered hs hgrammar
  obtain ⟨m, r, cap, id, hr, hcs, hcap, hk, hid⟩ := hm.exists_rule hts
  obtain rfl : c.id = id := hs id c hid
  refine ⟨hid, ?_⟩
  intro prop s hmem
  rw [hsame] at hg hr hcs hcap hmem
  rw [hg.assembled.head_eq hr, (sameRules_computeFirst d.grammar).capture?] at hcap
  -- the trees are those of the nonterminal of the class
  obtain ⟨inner, hinner, hexpansions⟩ := hd.exists_inner hcap hk
  have hexpansion := expansion_mem_expansionsOf hr
  rw [hexpansions, List.mem_singleton] at hexpansion
  apply gathers_of_mem_takingsOf hd hg hcs _ hmem
  intro m hm
  rw [hexpansion, List.mem_singleton] at hm
  cases hm
  exact .ofClass .refl hinner

/-- A node made where a class is captured in some trees holds what was taken for the class. -/
theorem DerivationTree.MakesIn.holds {behind behind' : Position} {ts cs : List DerivationTree}
    {ss : List Symbol} {c : NodeClass} {n : Node} (hts : DeriveFrom lg.grammar ss ts)
    (hm : MakesIn lg.grammar classes behind ts c behind' cs)
    (hn : IsNode lg.grammar classes c behind' cs n) :
  n.Holds l lg.grammar classes behind' cs c
  := by
  obtain ⟨hid, hgathers⟩ := hm.gathers hc hgrammar hts
  have hrepresents : ∀ prop, Slot.Represents (takingsOf lg.grammar classes prop behind' cs)
      ((slotsOf lg.grammar classes behind' ∅ cs).get? prop) :=
    fun prop => represents_slotsOf lg.grammar classes prop behind' ∅ cs (.none rfl)
  have hnode : n.nodeClass = c.id := by rw [hn.2, Node.ofCaptures]
  constructor
  · rw [hnode, hid]
  · apply hn
  · intro prop b hb
    rw [hn.2]
    apply Node.isSome_get?_ofCaptures hb
  · intro prop hprop
    rw [hn.2]
    apply Node.get?_eq_array_iff (hrepresents prop) hprop
  · intro prop hagree s hmem
    obtain ⟨d, c', hf, hc', hfield⟩ :=
      ClassTable.exists_field_of_gathers hc hid (hgathers prop s hmem)
    have hne := hagree d c' (hnode ▸ hf) hc'
    rw [hfield] at hne
    cases hmany : s.isMany with
    | false => cases hne (congrArg some hmany)
    | true => rfl

/-- A node in the value of a tree of the start rule was made where its class is captured in the trees
of the root, and it holds what was taken for the class there. -/
theorem DerivationTree.exists_holds_of_contains {behind : Position} {ts : List DerivationTree}
    {n : Node} (hts : DeriveFrom lg.grammar (lg.grammar.expansion lg.startRule) ts)
    (hn : (rootValue lg.grammar classes behind (.node lg.startRule ts)).Contains n) :
  ∃ c behind' cs, MakesIn lg.grammar classes behind ts c behind' cs
    ∧ n.Holds l lg.grammar classes behind' cs c
  := by
  have hg := Source.compiled_of_grammar hgrammar
  obtain ⟨c, behind', cs, hm, hnode⟩ := exists_makes_of_contains hn
  cases hm with
  | here hcap =>
      -- the start rule captures nothing
      rw [Grammar.head, hg.rooted.rule] at hcap
      cases hg.plain.symm.trans hcap
  | inside hm => exact ⟨c, behind', cs, hm, hm.holds hc hgrammar hts hnode⟩

end Holds

/-- Every node in the value of a parse was made where its class is captured in the trees of the
parse, and it holds what was taken for the class there. -/
theorem Parser.exists_holds_of_parse {l : Language} {root : ClassId} {config : ParserConfig}
    {p : Parser} (hbuild : (Parser.build l root config).2 = .ok p) (hp : p.generated = true)
    {σ : Type} {next : σ → Option (TokenItem × σ)} {source : σ} {fuel : Nat} {v : Value}
    (hparse : p.machine.parse next fuel source = some (.ok v)) :
  ∃ lg, Source.grammar ⟨l, p.classes⟩ root = .ok lg
    ∧ ∃ children behind, DeriveFrom lg.grammar (lg.grammar.expansion lg.startRule) children
      ∧ Reads next .start source (tokensOf children) behind
      ∧ v = rootValue lg.grammar p.classes behind (.node lg.startRule children)
      ∧ ∀ n, v.Contains n → ∃ c behind' cs,
        MakesIn lg.grammar p.classes behind children c behind' cs
          ∧ n.Holds l lg.grammar p.classes behind' cs c
  := by
  obtain ⟨lg, a, hgrammar, ha, htable⟩ := Parser.exists_automaton hbuild hp
  have hc := Parser.collect_of_build hbuild
  have hg := Source.compiled_of_grammar hgrammar
  have hfinished := Automaton.finished_of_build hg.assembled.listsRules ha
  use lg, hgrammar
  unfold Machine.parse at hparse
  split at hparse
  · cases hparse
  · next start hstart =>
    have hsound := Config.sound_start hfinished ⟨1⟩ p.machine.classes hstart
    obtain ⟨⟨last, trees⟩, hmoves, hdone⟩ := Machine.exists_moves_of_run hparse []
    obtain ⟨path, hsound'⟩ := hsound.moves hfinished hg htable hmoves
    obtain ⟨t, ht, hreads, rfl⟩ := hsound'.accept hfinished hg htable hdone
    have hchildren : DeriveFrom lg.grammar (lg.grammar.expansion lg.startRule) [t] := by
      rw [hg.rooted.expansion_eq]
      exact ⟨ht, trivial⟩
    refine ⟨[t], last.lookahead.start, hchildren, ?_, rfl, ?_⟩
    · rw [tokensOf, tokensOf, List.append_nil]
      apply hreads
    · intro n hn
      apply exists_holds_of_contains hc hgrammar hchildren hn

/-! ### Parts with a field of the whole -/

/-- A language in which a whole takes what is captured in its part, for the same property: the whole
captures for an array, and so does the part, or it captures on its own. -/
def Language.parted (isArray : Bool) : Language where
  classes := #[⟨"Whole", false, some (.sequence [.combinator ⟨0⟩, .combinator ⟨1⟩])⟩,
    ⟨"Part", false, some (.combinator ⟨2⟩)⟩]
  combinators := #[⟨none, .capture ⟨some "x", true, some (.pattern (.literal "a"))⟩⟩,
    ⟨none, .capture ⟨none, false, some (.nodeClass ⟨1⟩)⟩⟩,
    ⟨none, .capture ⟨some "x", isArray, some (.pattern (.literal "b"))⟩⟩]

/-- The classes of the language. -/
def ClassTable.parted (isArray : Bool) : ClassTable :=
  ⟨.ofList [(⟨0⟩, ⟨⟨0⟩, "Whole", false, .ofList [("x", true)]⟩),
    (⟨1⟩, ⟨⟨1⟩, "Part", false, .ofList [("x", isArray)]⟩)]⟩

/-- The grammar of the language. -/
def LanguageGrammar.parted (isArray : Bool) : LanguageGrammar :=
  ((Source.grammar ⟨.parted isArray, .parted isArray⟩ ⟨0⟩).toOption).getD default

/-- The table of the grammar. -/
def Table.parted (isArray : Bool) : Table where
  states := #[
    ⟨false, .ofList [(.nonterminal ⟨2⟩, .shift 1), (.nonterminal ⟨1⟩, .shift 2),
      (.terminal "a", .shift 3), (.nonterminal ⟨3⟩, .shift 4)]⟩,
    ⟨false, .ofList [(.endOfInput, .reduce 0)]⟩,
    ⟨true, .ofList [(.endOfInput, .reduce 1)]⟩,
    ⟨false, .ofList [(.terminal "b", .reduce 2)]⟩,
    ⟨false, .ofList [(.nonterminal ⟨5⟩, .shift 5), (.nonterminal ⟨4⟩, .shift 6),
      (.terminal "b", .shift 7), (.nonterminal ⟨6⟩, .shift 8)]⟩,
    ⟨false, .ofList [(.endOfInput, .reduce 3)]⟩,
    ⟨false, .ofList [(.endOfInput, .reduce 4)]⟩,
    ⟨false, .ofList [(.endOfInput, .reduce 5)]⟩,
    ⟨false, .ofList [(.endOfInput, .reduce 6)]⟩]
  reductions := .ofList [
    (0, ⟨1, ⟨1⟩, some ⟨false, "root", .node ⟨0⟩⟩⟩), (1, ⟨1, .start, none⟩),
    (2, ⟨1, ⟨3⟩, some ⟨true, "x", .token⟩⟩), (3, ⟨1, ⟨4⟩, none⟩), (4, ⟨2, ⟨2⟩, none⟩),
    (5, ⟨1, ⟨6⟩, some ⟨isArray, "x", .token⟩⟩), (6, ⟨1, ⟨5⟩, none⟩)]

/-- The parser of the language. -/
def Parser.parted (isArray : Bool) : Parser :=
  ⟨⟨0⟩, .parted isArray, .parted isArray, .characters, true⟩

theorem Language.walk_whole (isArray : Bool) :
  (Language.parted isArray).walk "Whole" ∅ ⟨∅, []⟩
      [.sequence [.combinator ⟨0⟩, .combinator ⟨1⟩]]
    = .ok ⟨.ofList [("x", true)], [⟨1⟩]⟩
  := by
  have hfirst : (⟨0⟩ : CombinatorId) ∉ (∅ : OrderedSet CombinatorId) := by decide
  have hsecond : (⟨1⟩ : CombinatorId) ∉ OrderedSet.insert (∅ : OrderedSet CombinatorId) ⟨0⟩ := by
    decide
  have hin : ∀ i < 3, i < (Language.parted isArray).combinators.size := fun _ => id
  rw [walk, List.append_nil, walk, dif_neg hfirst, dif_pos (hin 0 (by decide))]
  change (Language.parted isArray).walk _ _ _ [.literal "a", .combinator ⟨1⟩] = _
  rw [walk, walk, dif_neg hsecond, dif_pos (hin 1 (by decide))]
  change (Language.parted isArray).walk _ _ _ [] = _
  rw [walk]
  rfl

theorem Language.walk_part (isArray : Bool) :
  (Language.parted isArray).walk "Part" ∅ ⟨∅, []⟩ [.combinator ⟨2⟩]
    = .ok ⟨.ofList [("x", isArray)], []⟩
  := by
  have hnew : (⟨2⟩ : CombinatorId) ∉ (∅ : OrderedSet CombinatorId) := by decide
  have hin : 2 < (Language.parted isArray).combinators.size := Nat.lt_succ_self 2
  rw [walk, dif_neg hnew, dif_pos hin]
  change (Language.parted isArray).walk _ _ _ [.literal "b"] = _
  rw [walk, walk]
  rfl

theorem ClassTable.collect_parted (isArray : Bool) :
  ClassTable.collect (.parted isArray) ⟨0⟩ = .ok (.parted isArray)
  := by
  let whole : NodeClass := ⟨⟨0⟩, "Whole", false, .ofList [("x", true)]⟩
  have hwhole : ClassTable.empty.examine (.parted isArray)
      ⟨"Whole", false, some (.sequence [.combinator ⟨0⟩, .combinator ⟨1⟩])⟩
      = .ok ⟨.ofList [("x", true)], [⟨1⟩]⟩ := Language.walk_whole isArray
  have hpart : ClassTable.examine (.parted isArray) ⟨ClassTable.empty.classes.insert ⟨0⟩ whole⟩
      ⟨"Part", false, some (.combinator ⟨2⟩)⟩
      = .ok ⟨.ofList [("x", isArray)], []⟩ := Language.walk_part isArray
  rw [collect, collectQueue_cons (by decide) rfl hwhole]
  refine (collectQueue_cons (by decide) rfl hpart).trans ?_
  rw [List.nil_append, collectQueue]
  rfl

theorem Source.grammar_parted (isArray : Bool) :
  Source.grammar ⟨.parted isArray, .parted isArray⟩ ⟨0⟩ = .ok (.parted isArray)
  := by
  cases isArray <;> decide +kernel

theorem Parser.build_parted (isArray : Bool) :
  (Parser.build (.parted isArray) ⟨0⟩ {}).2 = .ok (.parted isArray)
  := by
  have hhalt : (Automaton.construct (LanguageGrammar.parted isArray).grammar
      (LanguageGrammar.parted isArray).startRule).halt = none := by
    cases isArray <;> decide +kernel
  have htable : Table.ofAutomaton (Automaton.construct (LanguageGrammar.parted isArray).grammar
      (LanguageGrammar.parted isArray).startRule).automaton = .parted isArray := by
    cases isArray <;> decide +kernel
  simp only [Parser.build, ClassTable.collect_parted, makeTable, Source.automaton,
    Source.grammar_parted, Construction.result, hhalt, htable]
  rfl

/-- The tokens of a whole and its part. -/
def Token.parted : List Token :=
  [⟨some "a", ⟨0, 0, 0⟩, ⟨0, 1, 1⟩, .none⟩, ⟨some "b", ⟨0, 1, 1⟩, ⟨0, 2, 2⟩, .none⟩]

/-- The node of the whole: its field is an array, or only the token of the part. -/
def Value.parted (isArray : Bool) : Value :=
  let b : Value := .token ⟨some "b", ⟨0, 1, 1⟩, ⟨0, 2, 2⟩, .none⟩
  .node ⟨⟨0⟩, "Whole", [("x",
    if isArray then .array [.token ⟨some "a", ⟨0, 0, 0⟩, ⟨0, 1, 1⟩, .none⟩, b] else b)]⟩

theorem Parser.parse_parted (isArray : Bool) :
  (Parser.parted isArray).machine.parse nextOfList 10 Token.parted
    = some (.ok (.parted isArray))
  := by
  cases isArray <;> rfl

/-- The theorem at a part that captures for an array, too. -/
theorem Parser.exists_holds_of_parse_parted :
  (Parser.build (.parted true) ⟨0⟩ {}).2 = .ok (.parted true)
    ∧ (Parser.parted true).generated = true
    ∧ (Parser.parted true).machine.parse nextOfList 10 Token.parted = some (.ok (.parted true))
    ∧ ∃ lg, Source.grammar ⟨.parted true, (Parser.parted true).classes⟩ ⟨0⟩ = .ok lg
      ∧ ∃ children behind, DeriveFrom lg.grammar (lg.grammar.expansion lg.startRule) children
        ∧ Reads nextOfList .start Token.parted (tokensOf children) behind
        ∧ Value.parted true
          = rootValue lg.grammar (Parser.parted true).classes behind (.node lg.startRule children)
        ∧ ∀ n, (Value.parted true).Contains n → ∃ c behind' cs,
          MakesIn lg.grammar (Parser.parted true).classes behind children c behind' cs
            ∧ n.Holds (.parted true) lg.grammar (Parser.parted true).classes behind' cs c
  := by
  use Parser.build_parted true, rfl, Parser.parse_parted true
  apply Parser.exists_holds_of_parse (Parser.build_parted true) rfl (Parser.parse_parted true)

/-- Not all fields that are arrays hold arrays. -/
theorem Parser.not_forall_holds_array :
  ¬ ∀ (l : Language) (root : ClassId) (config : ParserConfig) (p : Parser),
      (Parser.build l root config).2 = .ok p → p.generated = true →
      ∀ (σ : Type) (next : σ → Option (TokenItem × σ)) (source : σ) (fuel : Nat) (v : Value),
        p.machine.parse next fuel source = some (.ok v) →
        ∀ n, v.Contains n → ∀ c prop, p.classes.get? n.nodeClass = some c →
          c.fields.get? prop = some true → ∃ items, n.get? prop = some (.array items)
  := by
  intro hall
  -- the token of the part takes the place of the array of the whole
  obtain ⟨items, hitems⟩ := hall (.parted false) ⟨0⟩ {} (.parted false) (Parser.build_parted false)
    rfl (List Token) nextOfList Token.parted 10 (.parted false) (Parser.parse_parted false) _
    (.node _) _ "x" rfl rfl
  cases hitems

end CaptureLR

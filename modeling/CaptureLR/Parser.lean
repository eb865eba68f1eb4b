import CaptureLR.Lowering
import CaptureLR.Parse.Machine
import CaptureLR.Report
import CaptureLR.Table.Text
import CaptureLR.Token.Stream

/-!
# Parsers

A parser for a language is built from a root class: its table is generated, or loaded if a
stored one is given. A parser whose table was generated can store it.
-/

namespace CaptureLR

/-- How a parser is built. -/
structure ParserConfig where
  /-- How texts are cut into tokens; into characters if nothing is said. -/
  tokenizer : Option Tokenizer := none
  verbosity : Verbosity := .problemsOnly
  /-- The stored table to load. -/
  table : Option TableRecord := none
deriving Inhabited

/-- A parser for a language. -/
structure Parser where
  root : ClassId
  classes : ClassTable
  table : Table
  tokenizer : Tokenizer
  /-- Whether the table was generated, not loaded. -/
  generated : Bool
deriving Inhabited

/-! ### Building -/

namespace Source

/-- The automaton for a root, with the records of its construction. -/
def automaton (s : Source) (root : ClassId) (v : Verbosity) :
    List LogRecord × Except BuildError Automaton :=
  match s.grammar root with
  | .error e => ([], .error e)
  | .ok g =>
      let rules := g.grammar.rules.size
      let nonterminals := g.grammar.nonterminals.size
      let compiled : LogRecord :=
        ⟨.debug, s!"compiled {rules} rules over {nonterminals} nonterminals"⟩
      let construction := Automaton.construct g.grammar g.startRule
      ((if v.isVerbose then [compiled] else []) ++ construction.records v, construction.result)

end Source

namespace Parser

/-- The record that no tokenizer was given. -/
def tokenizerRecord : LogRecord :=
  ⟨.info, "No tokenizer given, so every character becomes its own token"⟩

/-- The record that a table is generated. -/
def generatingRecord (name : String) : LogRecord :=
  ⟨.info, s!"Generating the parser table for \"{name}\"; save it with `Parser::save_table` "
    ++ "and load it through `ParserConfig::precomputed_table` to skip this step"⟩

/-- The table of a language, whether it was generated, and the records of that. -/
def makeTable (l : Language) (root : ClassId) (classes : ClassTable) (config : ParserConfig) :
    List LogRecord × Except BuildError (Table × Bool) :=
  match config.table with
  | some record =>
      match record.load classes with
      | .error e => ([], .error (.table e))
      | .ok table => ([], .ok (table, false))
  | none =>
      let announced := if config.verbosity.reportsProblems
        then [generatingRecord ((l.name? root).getD "")] else []
      match Source.automaton ⟨l, classes⟩ root config.verbosity with
      | (records, .error e) => (announced ++ records, .error e)
      | (records, .ok a) => (announced ++ records, .ok (.ofAutomaton a, true))

/-- Builds a parser, with the records of that. -/
def build (l : Language) (root : ClassId) (config : ParserConfig) :
    List LogRecord × Except BuildError Parser :=
  let noTokenizer := if config.tokenizer.isNone && config.verbosity.reportsProblems
    then [tokenizerRecord] else []
  match ClassTable.collect l root with
  | .error e => (noTokenizer, .error e)
  | .ok classes =>
      match makeTable l root classes config with
      | (records, .error e) => (noTokenizer ++ records, .error e)
      | (records, .ok (table, generated)) =>
          (noTokenizer ++ records,
            .ok ⟨root, classes, table, config.tokenizer.getD .characters, generated⟩)

/-! ### Parsing -/

/-- The machine of a parser. -/
def machine (p : Parser) : Machine := ⟨p.table, p.classes⟩

end Parser

/-- A bound on the number of items that a tokenizer yields before its stream ends or repeats
the same item forever. -/
def Tokenizer.itemBound (text : String) : Tokenizer → Nat
  | replay items => items.length
  | _ => text.length + 1

namespace Parser

/-- The result of parsing a text; nothing if the parse goes on forever. -/
def parse? (p : Parser) (text : String) : Option ParseResult :=
  p.machine.parse TokenStream.next
    (Machine.stepBound p.table.states.size (p.tokenizer.itemBound text))
    (p.tokenizer.stream text)

/-! ### Storing the table -/

/-- The stored form of the table of a parser that generated it. -/
def record (p : Parser) : Except TableError TableRecord :=
  if p.generated then p.table.toRecord p.classes else .error .notGenerated

/-! ### Texts -/

/-- A truth value as the texts of parsers show it. -/
def boolText (b : Bool) : String := if b then "true" else "false"

/-- A parser in one line. -/
def display (p : Parser) : String :=
  s!"Parser \x7b root: ClassId({p.root.index}), classes: {p.classes.size}, "
    ++ s!"states: {p.table.states.size}, generated: {boolText p.generated} \x7d"

end Parser

namespace Verbosity

/-- The name of a verbosity. -/
def display : Verbosity → String
  | silent => "Silent"
  | problemsOnly => "ProblemsOnly"
  | verbose => "Verbose"

end Verbosity

/-- A configuration in one line. -/
def ParserConfig.display (c : ParserConfig) : String :=
  let tokenizer := if c.tokenizer.isSome then "Some(\"custom\")" else "None"
  s!"ParserConfig \x7b tokenizer: {tokenizer}, log_verbosity: {c.verbosity.display}, "
    ++ s!"precomputed_table: {Parser.boolText c.table.isSome} \x7d"

end CaptureLR

import CaptureLR.Capture
import CaptureLR.Symbol

/-!
# Grammars

A grammar has numbered rules and numbered nonterminals. A nonterminal has a name, perhaps a
capture, the numbers of its rules and its first set. Rules may mention nonterminals that are
not registered; such a nonterminal has no rules.
-/

namespace CaptureLR

/-- A rule that replaces a nonterminal by a sequence of symbols. -/
structure Rule where
  head : Nonterminal
  expansion : List Symbol
deriving DecidableEq, Inhabited, Repr

/-- What a grammar knows of a registered nonterminal. -/
structure NonterminalInfo where
  name : String
  capture : Option Capture
  /-- The numbers of its rules, ascending. -/
  rules : List Nat
  /-- What its derivations begin with. -/
  first : Context
deriving DecidableEq, Inhabited

/-- A context-free grammar over tokens, with captures. -/
structure Grammar where
  rules : Array Rule
  nonterminals : Array NonterminalInfo
deriving DecidableEq, Inhabited

namespace Grammar

/-- The grammar that has the start symbol and no rules. -/
def empty : Grammar := ⟨#[], #[⟨"(starting symbol)", none, [], ∅⟩]⟩

/-- The number that the next nonterminal gets. -/
def nextNonterminal (g : Grammar) : Nonterminal := ⟨g.nonterminals.size⟩

/-- The grammar with one more nonterminal, which has no rules yet. -/
def addNonterminal (g : Grammar) (name : String) (capture : Option Capture) : Grammar :=
  { g with nonterminals := g.nonterminals.push ⟨name, capture, [], ∅⟩ }

/-- The grammar with one more rule. A rule for a nonterminal that is not registered gets a
number but belongs to no nonterminal. -/
def addRule (g : Grammar) (head : Nonterminal) (expansion : List Symbol) : Grammar :=
  { rules := g.rules.push ⟨head, expansion⟩
    nonterminals :=
      g.nonterminals.modify head.index (fun n => { n with rules := n.rules ++ [g.rules.size] }) }

/-- What is known of a nonterminal, if it is registered. -/
def info? (g : Grammar) (n : Nonterminal) : Option NonterminalInfo := g.nonterminals[n.index]?

/-- The numbers of the rules of a nonterminal. -/
def rulesFor (g : Grammar) (n : Nonterminal) : List Nat :=
  match g.info? n with
  | some i => i.rules
  | none => []

/-- The name of a nonterminal. -/
def name (g : Grammar) (n : Nonterminal) : String :=
  match g.info? n with
  | some i => i.name
  | none => "?"

/-- The capture of a nonterminal, if it has one. -/
def capture? (g : Grammar) (n : Nonterminal) : Option Capture :=
  (g.info? n).bind NonterminalInfo.capture

/-- The first set of a nonterminal, if it is registered. -/
def first? (g : Grammar) (n : Nonterminal) : Option Context :=
  (g.info? n).map NonterminalInfo.first

/-- What a rule expands to; nothing for a rule that does not exist. -/
def expansion (g : Grammar) (rule : Nat) : List Symbol :=
  match g.rules[rule]? with
  | some r => r.expansion
  | none => []

/-- The head of a rule; the start symbol for a rule that does not exist. -/
def head (g : Grammar) (rule : Nat) : Nonterminal :=
  match g.rules[rule]? with
  | some r => r.head
  | none => .start

/-! ### Texts -/

/-- A column as messages show it. -/
def describe (g : Grammar) : Column → String
  | .terminal t => (Lookahead.terminal t).display
  | .nonterminal n => g.name n
  | .endOfInput => Lookahead.endOfInput.display

/-- The symbols of a sequence as messages show them, with a bullet for the dot if it stands
before one of them or behind the last. -/
def describeSymbols (g : Grammar) : (dot : Option Nat) → List Symbol → List String
  | some 0, [] => ["•"]
  | _, [] => []
  | some 0, s :: ss => "•" :: g.describe s.toColumn :: describeSymbols g none ss
  | some (d + 1), s :: ss => g.describe s.toColumn :: describeSymbols g (some d) ss
  | none, s :: ss => g.describe s.toColumn :: describeSymbols g none ss

/-- A sequence of symbols as messages show it. -/
def describeExpansion (g : Grammar) (ss : List Symbol) (dot : Option Nat) : String :=
  match g.describeSymbols dot ss with
  | [] => "ε"
  | parts => " ".intercalate parts

/-- A rule as messages show it. -/
def describeRule (g : Grammar) (rule : Nat) : String :=
  g.name (g.head rule) ++ " -> " ++ g.describeExpansion (g.expansion rule) none

/-- A number at the right end of a field of four columns. -/
def ruleNumber (rule : Nat) : String :=
  let digits := toString rule
  String.ofList (List.replicate (4 - digits.length) ' ') ++ digits

/-- The rules, one on a line. -/
def display (g : Grammar) : String :=
  String.join ((List.range g.rules.size).map
    (fun i => ruleNumber i ++ ": " ++ g.describeRule i ++ "\n"))

end Grammar

end CaptureLR

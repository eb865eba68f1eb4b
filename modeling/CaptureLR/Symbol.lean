import CaptureLR.Ordered.Set
import CaptureLR.Text.Quoted

/-!
# Grammar symbols

Terminals are the kinds of tokens, nonterminals are numbered. A rule is written with
symbols, a lookahead is a terminal or the end of the input, and the rows of a parse table
have a column for every symbol and for the end of the input.
-/

namespace CaptureLR

/-- A terminal is named by the kind of the tokens it stands for. -/
abbrev Terminal := String

/-- A nonterminal, by its number. -/
structure Nonterminal where
  index : Nat
deriving DecidableEq, Inhabited, Repr

/-- The start symbol. -/
def Nonterminal.start : Nonterminal := ⟨0⟩

/-- What a rule expands to is a sequence of these. -/
inductive Symbol where
  | terminal (t : Terminal)
  | nonterminal (n : Nonterminal)
deriving DecidableEq, Inhabited, Repr

/-- What the parser sees next: the kind of a token or the end of the input. -/
inductive Lookahead where
  | terminal (t : Terminal)
  | endOfInput
deriving DecidableEq, Inhabited, Repr

/-- What a row of a parse table is indexed by. -/
inductive Column where
  | terminal (t : Terminal)
  | nonterminal (n : Nonterminal)
  | endOfInput
deriving DecidableEq, Inhabited, Repr

/-- The lookaheads under which an item may be reduced. -/
abbrev Context := OrderedSet Lookahead

/-- The context of the end of the input alone. -/
def endContext : Context := .singleton .endOfInput

namespace Lookahead

/-- The terminal, if it is one. -/
def terminal? : Lookahead → Option Terminal
  | terminal t => some t
  | endOfInput => none

/-- A lookahead as messages show it. -/
def display : Lookahead → String
  | terminal t => quoted t
  | endOfInput => "(end of input)"

/-- The column of a lookahead. -/
def toColumn : Lookahead → Column
  | terminal t => .terminal t
  | endOfInput => .endOfInput

end Lookahead

/-- The column of a symbol. -/
def Symbol.toColumn : Symbol → Column
  | terminal t => .terminal t
  | nonterminal n => .nonterminal n

/-- The lookahead of a column that is none of a nonterminal. -/
def Column.lookahead? : Column → Option Lookahead
  | terminal t => some (.terminal t)
  | nonterminal _ => none
  | endOfInput => some .endOfInput

theorem Lookahead.lookahead?_toColumn (l : Lookahead) :
  l.toColumn.lookahead? = some l
  := by
  cases l <;> rfl

end CaptureLR

import CaptureLR.Grammar

/-!
# First sets

The first set of a nonterminal holds the terminals that can begin what it derives, and the end
of the input if it derives nothing at all. First sets are computed in passes over the rules
until a pass adds nothing.
-/

namespace CaptureLR

namespace Grammar

/-- What can stand first in a sequence of symbols that is followed by something of a context.
Behind a nonterminal that is not registered nothing can stand. -/
def firstOf (g : Grammar) (follow : Context) : List Symbol → Context
  | [] => follow
  | .terminal t :: _ => .singleton (.terminal t)
  | .nonterminal n :: ss =>
      match g.first? n with
      | none => ∅
      | some f =>
          let begins := f.filter (· ≠ .endOfInput)
          if .endOfInput ∈ f then begins ∪ firstOf g follow ss else begins

/-- The grammar with the first set of a nonterminal enlarged. -/
def enlargeFirst (g : Grammar) (n : Nonterminal) (c : Context) : Grammar :=
  { g with nonterminals := g.nonterminals.modify n.index (fun i => { i with first := i.first ∪ c }) }

/-- One pass: every rule in turn adds to the first set of its head what its expansion begins
with, so later rules see what earlier ones added. -/
def firstPass (g : Grammar) : Grammar :=
  g.rules.foldl (fun g r => g.enlargeFirst r.head (g.firstOf endContext r.expansion)) g

/-- Passes until one changes nothing, but no more than allowed. -/
def firstPasses : Nat → Grammar → Grammar
  | 0, g => g
  | n + 1, g =>
      let g' := g.firstPass
      if g' = g then g else firstPasses n g'

/-- The number of symbols in the expansions of all rules. -/
def symbolCount (g : Grammar) : Nat :=
  g.rules.toList.foldr (fun r n => r.expansion.length + n) 0

/-- The number of elements of all first sets. -/
def firstCount (g : Grammar) : Nat :=
  g.nonterminals.toList.foldr (fun i n => i.first.size + n) 0

/-- More passes than can add something: each of them adds to one of the first sets, and a first
set holds the end of the input, terminals of the rules and what the sets held before. -/
def firstBound (g : Grammar) : Nat :=
  g.nonterminals.size * (g.symbolCount + g.firstCount + 1) + 1

/-- The grammar with its first sets computed. -/
def computeFirst (g : Grammar) : Grammar := firstPasses g.firstBound g

end Grammar

end CaptureLR

import CaptureLR.Automaton
import CaptureLR.Ordered.Numbered

/-!
# Parse tables

What the parser needs of an automaton: for each state whether it accepts and what to do under
each column, and for each rule how many symbols it replaces, by which nonterminal, and what is
captured.
-/

namespace CaptureLR

/-- A row of a parse table. -/
structure TableState where
  accepting : Bool
  actions : Actions
deriving DecidableEq, Inhabited

/-- What a reduction by a rule does. -/
structure Reduction where
  /-- The number of symbols replaced. -/
  popCount : Nat
  /-- The nonterminal that replaces them. -/
  into : Nonterminal
  /-- What is captured, if something is. -/
  capture : Option Capture
deriving DecidableEq, Inhabited

/-- A parse table. -/
structure Table where
  states : Array TableState
  /-- The reductions by the numbers of their rules. -/
  reductions : NumberedMap Reduction
deriving DecidableEq, Inhabited

namespace Table

/-- The reductions by the rules of a grammar. -/
def reductionsOf (g : Grammar) : NumberedMap Reduction :=
  .ofList (g.rules.toList.mapIdx (fun i r => (i, ⟨r.expansion.length, r.head, g.capture? r.head⟩)))

/-- The table of an automaton. -/
def ofAutomaton (a : Automaton) : Table where
  states := a.states.map (fun s => ⟨s.accepting, s.actions⟩)
  reductions := reductionsOf a.grammar

/-- What to do in a state under a column. -/
def action? (t : Table) (state : Nat) (c : Column) : Option Action :=
  t.states[state]?.bind (fun s => s.actions.get? c)

/-- The state to go on to with a nonterminal. -/
def successor? (t : Table) (state : Nat) (n : Nonterminal) : Option Nat :=
  match t.action? state (.nonterminal n) with
  | some (.shift target) => some target
  | _ => none

/-- The terminals a state has actions for, in the order of the actions. -/
def expected (t : Table) (state : Nat) : List Terminal :=
  match t.states[state]? with
  | none => []
  | some s => s.actions.keys.filterMap (fun
      | .terminal t => some t
      | _ => none)

end Table

end CaptureLR

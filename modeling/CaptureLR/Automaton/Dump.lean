import CaptureLR.Automaton

/-!
# Dumps of automata

The text that shows a grammar, the states of its automaton with their closures and actions,
and a conflict if there is one.
-/

namespace CaptureLR

/-- A party to a conflict as messages show it. -/
def ConflictAction.describe (g : Grammar) : ConflictAction → String
  | .shift (some target) => s!"a transition to state {target}"
  | .shift none => "a transition to a new state"
  | .reduce rule => s!"a reduction by rule {rule} (" ++ g.describeRule rule ++ ")"

/-- An action as a dump shows it. -/
def Action.describe : Action → String
  | shift target => s!"go to {target}"
  | reduce rule => s!"reduce by rule {rule}"

/-- The lines of a dump that show a state: a heading, the items of its closure, its actions. -/
def State.dump (g : Grammar) (s : State) : String :=
  let lane := if s.lane.isEmpty then "ε" else " ".intercalate (s.lane.map g.describe)
  let accepting := if s.accepting then ", accepting" else ""
  s!"State {s.index}{accepting} (lane: {lane})\n"
    ++ String.join ((s.closure g).map (fun i => "    " ++ i.describe g ++ "\n"))
    ++ String.join (s.actions.toList.map
        (fun e => "  " ++ g.describe e.1 ++ " => " ++ e.2.describe ++ "\n"))

/-- The line of a dump that shows a conflict. -/
def Conflict.dump (g : Grammar) (c : Conflict) : String :=
  s!"Conflict in state {c.state} under " ++ g.describe c.under ++ ": "
    ++ c.existing.describe g ++ " conflicts with " ++ c.incoming.describe g ++ "\n"

/-- The dump of an automaton, with a conflict and its state shown at the end. -/
def Automaton.dump (a : Automaton) (conflict : Option Conflict) : String :=
  let rules := a.grammar.rules.size
  let states := a.states.size
  let actions := a.states.toList.foldr (fun s n => s.actions.size + n) 0
  "Grammar:\n" ++ a.grammar.display ++ "\n"
    ++ String.join (a.states.toList.map (State.dump a.grammar))
    ++ s!"{rules} rules, {states} states, {actions} actions\n"
    ++ match conflict with
      | none => ""
      | some c => c.dump a.grammar
          ++ match a.states[c.state]? with
            | none => ""
            | some s => s.dump a.grammar

end CaptureLR

import CaptureLR.Automaton.Dump
import CaptureLR.Error

/-!
# Reports of a build

While a parser is built, records are made of what happens, as many as the verbosity asks for.
-/

namespace CaptureLR

/-- How much is reported. -/
inductive Verbosity where
  | silent
  | problemsOnly
  | verbose
deriving DecidableEq, Inhabited, Repr

namespace Verbosity

/-- Whether problems are reported. -/
def reportsProblems : Verbosity → Bool
  | silent => false
  | _ => true

/-- Whether everything is reported. -/
def isVerbose : Verbosity → Bool
  | verbose => true
  | _ => false

end Verbosity

/-- The weight of a record. -/
inductive Level where
  | info
  | debug
  | error
deriving DecidableEq, Inhabited, Repr

/-- A report. -/
structure LogRecord where
  level : Level
  message : String
deriving DecidableEq, Inhabited, Repr

namespace Construction

/-- States are counted aloud whenever their number is a multiple of this. -/
def countingStep : Nat := 128

/-- The records of the states that were created. -/
def countRecords (c : Construction) : List LogRecord :=
  (List.range (c.created / countingStep)).map
    (fun i => ⟨.debug, toString ((i + 1) * countingStep) ++ " states created"⟩)

/-- The record of the states that were dropped, if some were. -/
def dropRecords (c : Construction) : List LogRecord :=
  let removed := c.created - c.automaton.states.size
  if removed = 0 then [] else [⟨.debug, s!"removing {removed} unreachable states"⟩]

/-- The records of a construction: how it went on, and a dump of the result if everything is
reported or of the conflict if problems are. -/
def records (v : Verbosity) (c : Construction) : List LogRecord :=
  let progress := if v.isVerbose then c.countRecords ++ c.dropRecords else []
  match c.halt with
  | none => progress ++ if v.isVerbose then [⟨.info, c.automaton.dump none⟩] else []
  | some (some conflict) =>
      progress ++ if v.reportsProblems then [⟨.error, c.automaton.dump (some conflict)⟩] else []
  | some none => progress

/-- The automaton, or what stopped its construction. -/
def result (c : Construction) : Except BuildError Automaton :=
  match c.halt with
  | none => .ok c.automaton
  | some (some conflict) =>
      let g := c.automaton.grammar
      .error (.conflict conflict.state (g.describe conflict.under)
        (conflict.existing.describe g) (conflict.incoming.describe g))
  | some none => .error .exhausted

end Construction

/-- The automaton of a grammar from a start rule, or the conflict that there is none. -/
def Automaton.build (g : Grammar) (startRule : Nat) : Except BuildError Automaton :=
  (Automaton.construct g startRule).result

end CaptureLR

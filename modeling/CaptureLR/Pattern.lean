import CaptureLR.Capture
import CaptureLR.Symbol

/-!
# Patterns

A pattern is a terminal, a sequence of patterns or a combinator: a choice, a repetition or a
match. Combinators are instances: a pattern names one by its number, so one instance can stand
in several places, and a match can be given its target later and so close a cycle.
-/

namespace CaptureLR

/-- An instance of a combinator, by its number. -/
structure CombinatorId where
  index : Nat
deriving DecidableEq, Inhabited, Repr

/-- What the body of a class is made of. -/
inductive Pattern where
  | literal (t : Terminal)
  /-- Patterns one after the other. -/
  | sequence (items : List Pattern)
  | combinator (id : CombinatorId)
deriving Inhabited, Repr

namespace Pattern

/-- The pattern of the empty text. -/
def empty : Pattern := sequence []

mutual

/-- The number of places in a pattern. -/
def weight : Pattern → Nat
  | literal _ => 1
  | sequence items => 1 + weightList items
  | combinator _ => 1

/-- The number of places in a list of patterns. -/
def weightList : List Pattern → Nat
  | [] => 0
  | p :: ps => p.weight + weightList ps

end

theorem weightList_append (ps qs : List Pattern) :
  weightList (ps ++ qs) = weightList ps + weightList qs
  := by
  induction ps with
  | nil => rw [List.nil_append, weightList, Nat.zero_add]
  | cons p ps ih => rw [List.cons_append, weightList, weightList, ih, Nat.add_assoc]

end Pattern

/-- What may follow the last element of a repetition. -/
inductive Trailing where
  | forbidden
  /-- The delimiter. -/
  | delimiter
  | pattern (p : Pattern)
deriving Inhabited, Repr

/-- What a match is read as: a node class, or a pattern. -/
inductive Target where
  | nodeClass (c : ClassId)
  | pattern (p : Pattern)
deriving Inhabited, Repr

/-- The parts of a repetition. -/
structure Repetition where
  element : Pattern
  delimiter : Pattern
  trailing : Trailing
  /-- The least number of elements. -/
  lower : Nat
  /-- The least number of elements that is too large. -/
  upper : Option Nat
deriving Inhabited, Repr

/-- The parts of a match. -/
structure Match where
  /-- The property the match is captured under, if it is captured. -/
  prop : Option String
  /-- Whether the capture is added to an array. -/
  isArray : Bool
  /-- What it is read as, once that is known. -/
  target : Option Target
deriving Inhabited, Repr

/-- What an instance of a combinator does. -/
inductive Shape where
  | choice (branches : List Pattern)
  | repetition (r : Repetition)
  | capture (m : Match)
deriving Inhabited, Repr

/-- An instance of a combinator. Only an instance with a name may stand in several places. -/
structure Combinator where
  name : Option String
  shape : Shape
deriving Inhabited, Repr

namespace Target

/-- The number of places in a target. -/
def weight : Target → Nat
  | nodeClass _ => 1
  | pattern p => 1 + p.weight

end Target

namespace Combinator

/-- The patterns that stand directly in a combinator, from left to right. A target that is a
class is none of them. -/
def parts (c : Combinator) : List Pattern :=
  match c.shape with
  | .choice branches => branches
  | .repetition r =>
      match r.trailing with
      | .pattern p => [r.element, r.delimiter, p]
      | _ => [r.element, r.delimiter]
  | .capture m =>
      match m.target with
      | some (.pattern p) => [p]
      | _ => []

/-- The number of places in a combinator. -/
def weight (c : Combinator) : Nat := 1 + Pattern.weightList c.parts

end Combinator

end CaptureLR

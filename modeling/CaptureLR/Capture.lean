/-!
# Captures

A nonterminal that was made for a capture carries its descriptor: the property the captured
value is stored under, whether it is an element of an array, and what the value is.
-/

namespace CaptureLR

/-- A node class, by the order of declaration. -/
structure ClassId where
  index : Nat
deriving DecidableEq, Inhabited, Repr

/-- A class as messages name it when it has no name. -/
def ClassId.display (c : ClassId) : String := s!"class #{c.index}"

/-- What is captured. -/
inductive CaptureKind where
  /-- A node of a class. -/
  | node (c : ClassId)
  /-- The first token of the span. -/
  | token
  /-- All tokens of the span. -/
  | span
deriving DecidableEq, Inhabited, Repr

/-- Where a captured value is stored, and what it is. -/
structure Capture where
  /-- Whether the value is added to an array. -/
  isArray : Bool
  /-- The property it is stored under. -/
  prop : String
  kind : CaptureKind
deriving DecidableEq, Inhabited, Repr

end CaptureLR

import CaptureLR.Capture
import CaptureLR.Ordered.Map

/-!
# Node classes

What a parser knows of a class: its name, whether it is hidden, and its fields, the properties
captured directly in its pattern.
-/

namespace CaptureLR

/-- The properties of a class; the value tells whether the property is an array. -/
abbrev Fields := OrderedMap String Bool

/-- A class of nodes. -/
structure NodeClass where
  id : ClassId
  name : String
  /-- Whether a node of the class is replaced by what it captured as `value`. -/
  hidden : Bool
  fields : Fields
deriving DecidableEq, Inhabited

/-- Whether the class stands for an array: it is hidden, and its `value` is an array. -/
def NodeClass.standsForArray (c : NodeClass) : Bool :=
  c.hidden && (c.fields.get? "value").getD false

end CaptureLR

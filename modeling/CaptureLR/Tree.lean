import CaptureLR.NodeClass
import CaptureLR.Token

/-!
# Syntax trees

What a parse captures is a value: a token, a node, an array of values, or nothing. A node has
a class and fields, the values captured for its properties in the order in which the
properties were first captured, followed by those of the class that were not captured.
-/

namespace CaptureLR

/-- A node over a type of field values. -/
structure NodeOf (ν : Type) where
  nodeClass : ClassId
  /-- The name of the class. -/
  name : String
  fields : List (String × ν)
deriving Inhabited

/-- The values of the fields of a node, in order. -/
def NodeOf.values {ν : Type} (n : NodeOf ν) : List ν := n.fields.map Prod.snd

/-- A captured value. -/
inductive Value where
  | token (t : Token)
  | node (n : NodeOf Value)
  | array (items : List Value)
  | absent
deriving Inhabited

/-- A node of a syntax tree. -/
abbrev Node := NodeOf Value

/-- The values captured for properties, in the order of the first captures. -/
abbrev Captures := OrderedMap String Value

namespace Value

/-- The token a value is. -/
def token? : Value → Option Token
  | token t => some t
  | _ => none

/-- The node a value is. -/
def node? : Value → Option Node
  | node n => some n
  | _ => none

/-- The elements of an array. -/
def array? : Value → Option (List Value)
  | array items => some items
  | _ => none

/-- Whether nothing was captured. -/
def isAbsent : Value → Bool
  | absent => true
  | _ => false

/-- The value of a property that was not captured. -/
def missing (isArray : Bool) : Value := if isArray then array [] else absent

mutual

/-- Whether two values are equal, the order of the fields of nodes apart. -/
def same : Value → Value → Bool
  | token s, token t => decide (s = t)
  | node m, node n => sameNode m n
  | array as, array bs => sameItems as bs
  | absent, absent => true
  | _, _ => false

/-- Whether two nodes are equal, the order of their fields apart. -/
def sameNode : Node → Node → Bool
  | ⟨c, name, fields⟩, n =>
      decide (c = n.nodeClass) && decide (name = n.name)
        && decide (fields.length = n.fields.length) && sameFields fields n.fields

/-- Whether two lists of values are equal, the order of the fields of nodes apart. -/
def sameItems : List Value → List Value → Bool
  | [], [] => true
  | a :: as, b :: bs => a.same b && sameItems as bs
  | _, _ => false

/-- Whether all fields of a list are among some others. -/
def sameFields : List (String × Value) → List (String × Value) → Bool
  | [], _ => true
  | (prop, v) :: fields, others =>
      (match others.lookup prop with
        | some w => v.same w
        | none => false)
      && sameFields fields others

end

mutual

/-- The number of values in a value. -/
def weight : Value → Nat
  | token _ => 1
  | node n => 1 + weightNode n
  | array items => 1 + weightItems items
  | absent => 1

/-- The number of values in a node. -/
def weightNode : Node → Nat
  | ⟨_, _, fields⟩ => weightFields fields

/-- The number of values in a list. -/
def weightItems : List Value → Nat
  | [] => 0
  | v :: vs => v.weight + weightItems vs

/-- The number of values in a list of fields. -/
def weightFields : List (String × Value) → Nat
  | [] => 0
  | (_, v) :: fields => v.weight + weightFields fields

end

theorem weightNode_eq (n : Node) :
  weightNode n = weightItems n.values
  := by
  obtain ⟨c, name, fields⟩ := n
  rw [weightNode, NodeOf.values]
  induction fields with
  | nil => rfl
  | cons e fields ih =>
      obtain ⟨prop, v⟩ := e
      rw [weightFields, ih]
      rfl

theorem weightItems_append (as bs : List Value) :
  weightItems (as ++ bs) = weightItems as + weightItems bs
  := by
  induction as with
  | nil => simp [weightItems]
  | cons a as ih => simp only [List.cons_append, weightItems, ih, Nat.add_assoc]

end Value

/-! ### Nodes -/

/-- The captures with the fields of a class that were not captured added at the end. -/
def fillFields (fields : Fields) (captures : Captures) : Captures :=
  fields.toList.foldl
    (fun cs f => if cs.contains f.1 then cs else cs.insert f.1 (.missing f.2)) captures

/-- The node of a class with what was captured in it. -/
def Node.ofCaptures (c : NodeClass) (captures : Captures) : Node :=
  ⟨c.id, c.name, (fillFields c.fields captures).toList⟩

namespace NodeOf

/-- The value of a property of a node. -/
def get? (n : Node) (prop : String) : Option Value := n.fields.lookup prop

/-- The token that a property of a node is. -/
def token? (n : Node) (prop : String) : Option Token := (n.get? prop).bind Value.token?

/-- The node that a property of a node is. -/
def node? (n : Node) (prop : String) : Option Node := (n.get? prop).bind Value.node?

/-- The elements of the array that a property of a node is; none if it is no array. -/
def array (n : Node) (prop : String) : List Value := ((n.get? prop).bind Value.array?).getD []

end NodeOf

/-- What a class captures becomes a node, or for a hidden class what it captured as `value`. -/
def NodeClass.value (c : NodeClass) (captures : Captures) : Value :=
  if c.hidden then (captures.get? "value").getD (.missing c.standsForArray)
  else .node (Node.ofCaptures c captures)

end CaptureLR

import CaptureLR.Tree.Walk

/-!
# The order of a walk

A walk by recursion on the tree: a node is visited before its fields, the fields and the
elements of arrays in their order, and each visit is shown the nodes around it.
-/

namespace CaptureLR

namespace Value

mutual

/-- The state of a visitor after a value with some nodes around it. -/
def visitIn {σ : Type} (visit : Visitor σ) (around : Array Node) : Value → σ → σ
  | token t, s => (visit s around (.token t)).2
  | node n, s => visitNode visit around n s
  | array items, s => visitItems visit around items s
  | absent, s => s

/-- The state of a visitor after a node, and what is in it if the visitor enters it. -/
def visitNode {σ : Type} (visit : Visitor σ) (around : Array Node) : Node → σ → σ
  | ⟨c, name, fields⟩, s =>
      match visit s around (.node ⟨c, name, fields⟩) with
      | (true, s) => visitFields visit (around.push ⟨c, name, fields⟩) fields s
      | (false, s) => s

/-- The state of a visitor after several values with the same nodes around them. -/
def visitItems {σ : Type} (visit : Visitor σ) (around : Array Node) : List Value → σ → σ
  | [], s => s
  | v :: vs, s => visitItems visit around vs (v.visitIn visit around s)

/-- The state of a visitor after the values of several fields. -/
def visitFields {σ : Type} (visit : Visitor σ) (around : Array Node) :
    List (String × Value) → σ → σ
  | [], s => s
  | (_, v) :: fields, s => visitFields visit around fields (v.visitIn visit around s)

end

/-- The fields of a node are visited as their values are. -/
theorem visitFields_eq
    {σ : Type} (visit : Visitor σ) (around : Array Node) (fields : List (String × Value)) (s : σ) :
  visitFields visit around fields s = visitItems visit around (fields.map Prod.snd) s
  := by
  induction fields generalizing s with
  | nil => rfl
  | cons e fields ih =>
      obtain ⟨prop, v⟩ := e
      rw [visitFields, ih]
      rfl

end Value

end CaptureLR

import CaptureLR.Tree

/-!
# Walking through syntax trees

A walk visits the nodes and tokens of a tree in the order of the text, a node before what is in
it, and shows the visitor the nodes around. The visitor decides whether the walk enters a node.
The values still to be visited wait on a stack, each with the number of nodes around it.
-/

namespace CaptureLR

/-- What is visited. -/
inductive Visit where
  | node (n : Node)
  | token (t : Token)
deriving Inhabited

/-- A visitor with a state. It is shown the nodes around a visit, the outermost first, and says
whether a node is to be entered. -/
abbrev Visitor (σ : Type) := σ → Array Node → Visit → Bool × σ

namespace Value

/-- The number of values in the values of a stack. -/
def weightStack (stack : List (Nat × Value)) : Nat := weightItems (stack.map Prod.snd)

/-- A stack with values on top of it that have so many nodes around them. -/
def stackOn (depth : Nat) (values : List Value) (stack : List (Nat × Value)) : List (Nat × Value) :=
  values.map (fun v => (depth, v)) ++ stack

theorem weightStack_stackOn (depth : Nat) (values : List Value) (stack : List (Nat × Value)) :
  weightStack (stackOn depth values stack) = weightItems values + weightStack stack
  := by
  rw [stackOn, weightStack, List.map_append, weightItems_append, List.map_map, weightStack]
  congr 2
  simp [Function.comp_def]

/-- The state of the visitor after the values of a stack. -/
def walkStack {σ : Type} (visit : Visitor σ) (ancestors : Array Node) :
    List (Nat × Value) → σ → σ
  | [], s => s
  | (depth, .token t) :: stack, s =>
      let around := ancestors.shrink depth
      walkStack visit around stack (visit s around (.token t)).2
  | (depth, .node n) :: stack, s =>
      let around := ancestors.shrink depth
      match visit s around (.node n) with
      | (true, s) =>
          walkStack visit (around.push n) (stackOn (depth + 1) n.values stack) s
      | (false, s) => walkStack visit around stack s
  | (depth, .array items) :: stack, s =>
      walkStack visit (ancestors.shrink depth) (stackOn depth items stack) s
  | (depth, .absent) :: stack, s => walkStack visit (ancestors.shrink depth) stack s
termination_by stack => weightStack stack
decreasing_by
  all_goals
    try rw [weightStack_stackOn]
    simp only [← weightNode_eq, weightStack, List.map_cons, weightItems, weight]
    omega

end Value

namespace NodeOf

/-- The state of the visitor after a walk through a tree from its root on. -/
def walk {σ : Type} (visit : Visitor σ) (root : Node) (s : σ) : σ :=
  Value.walkStack visit #[] [(0, .node root)] s

/-- A walk whose visitor is not shown the nodes around. -/
def walkPlain {σ : Type} (visit : σ → Visit → Bool × σ) (root : Node) (s : σ) : σ :=
  root.walk (fun s _ v => visit s v) s

end NodeOf

end CaptureLR

import CaptureLR.Item.Closure
import CaptureLR.Ordered.Map

/-!
# States of an automaton

A state has a kernel of items, the actions computed so far and an example of the symbols that
lead to it. States of the same cores can be merged by uniting their contexts; the merge is
weakly compatible if contexts of two items meet afterwards only if they met in one of the
states before.
-/

namespace CaptureLR

/-- What the parser does in a state under a column. -/
inductive Action where
  /-- Go on to a state. -/
  | shift (target : Nat)
  /-- Replace the expansion of a rule by its head. -/
  | reduce (rule : Nat)
deriving DecidableEq, Inhabited, Repr

/-- The actions of a state, in the order in which they were found. -/
abbrev Actions := OrderedMap Column Action

/-! ### Kernels -/

/-- The kernel with an item added, in the order of items. -/
def insertItem (item : Item) (kernel : List Item) : List Item := sortItems (addItem item kernel)

/-- The kernel of a list of items. -/
def kernelOf (items : List Item) : List Item := items.foldl (fun k i => insertItem i k) []

/-- The first kernel with the contexts of the second added, position by position. -/
def mergeFollows : List Item → List Item → List Item
  | a :: as, b :: bs => ⟨a.core, a.follow ∪ b.follow⟩ :: mergeFollows as bs
  | as, _ => as

/-- The contexts of two kernels, position by position. -/
def followPairs (a b : List Item) : List (Context × Context) :=
  List.zipWith (fun x y => (x.follow, y.follow)) a b

/-- Whether merging two positions of two kernels brings contexts together that were apart in
both: `p` and `q` hold the contexts of the two kernels at the two positions. -/
def harmless (p q : Context × Context) : Bool :=
  (!p.1.meets q.2 && !q.1.meets p.2) || p.1.meets q.1 || p.2.meets q.2

/-- Whether a condition holds of any two members of a list, the earlier one first. -/
def allPairs {α : Type} (r : α → α → Bool) : List α → Bool
  | [] => true
  | x :: xs => xs.all (r x) && allPairs r xs

/-- Whether two kernels have the same cores in the same order. -/
def isocore (a b : List Item) : Bool := decide (coresOf a = coresOf b)

/-- Whether two kernels may be merged: they have the same cores, and any two positions are
harmless. -/
def weaklyCompatible (a b : List Item) : Bool :=
  isocore a b && allPairs harmless (followPairs a b)

theorem allPairs_iff {α : Type} {r : α → α → Bool} {l : List α} :
  allPairs r l = true ↔ l.Pairwise (fun x y => r x y = true)
  := by
  induction l with
  | nil => simp [allPairs]
  | cons x xs ih => simp [allPairs, ih, List.pairwise_cons]

/-- Merging keeps the cores. -/
theorem cores_mergeFollows (a b : List Item) :
  coresOf (mergeFollows a b) = coresOf a
  := by
  induction a generalizing b with
  | nil => cases b <;> rfl
  | cons x xs ih =>
      cases b with
      | nil => rfl
      | cons y ys =>
          have h := ih ys
          simp only [mergeFollows, coresOf, List.map_cons] at h ⊢
          rw [h]

/-! ### States -/

/-- A state of an automaton. -/
structure State where
  /-- The place of the state in its automaton. -/
  index : Nat
  kernel : List Item
  actions : Actions
  /-- Whether the parser stops here. -/
  accepting : Bool
  /-- Symbols that lead from the initial state to this one. -/
  lane : List Column
deriving DecidableEq, Inhabited

namespace State

/-- Whether some actions were found already. -/
def isPopulated (s : State) : Bool := !s.actions.isEmpty

/-- The closure of the kernel. -/
def closure (g : Grammar) (s : State) : List Item := g.closure s.kernel

end State

end CaptureLR

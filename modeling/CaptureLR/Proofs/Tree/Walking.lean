import CaptureLR.Tree.Preorder
import Mathlib.Data.List.Basic

/-!
# Walks in preorder

A walk with a stack shows its visitor just what a walk by recursion shows, in the same order and
with the same nodes around. The values on the stack have fewer and fewer nodes around them from
the top down, so cutting the list of nodes to the number that belongs to a value leaves the nodes
around the value, whatever was entered or skipped in the meantime.
-/

namespace CaptureLR

variable {σ : Type}

/-! ### Calls of a visitor -/

/-- What a visitor is shown at once: the nodes around, the outermost first, and what is visited. -/
abbrev Call := Array Node × Visit

/-- The visitor that decides as another one does and records the calls, the first one first. -/
def Visitor.recorded (visit : Visitor σ) : Visitor (σ × List Call) := fun s around item =>
  ((visit s.1 around item).1, (visit s.1 around item).2, s.2 ++ [(around, item)])

/-- The visitor that is not shown the nodes around, decides as another one does and records what
it is shown. -/
def recordedItems (visit : σ → Visit → Bool × σ) :
    σ × List Visit → Visit → Bool × (σ × List Visit) :=
  fun s item => ((visit s.1 item).1, (visit s.1 item).2, s.2 ++ [item])

namespace Value

mutual

/-- The calls for a value with some nodes around it, from a state of the visitor on. -/
def callsIn (visit : Visitor σ) (around : Array Node) : Value → σ → List Call
  | token t, _ => [(around, .token t)]
  | node n, s => callsNode visit around n s
  | array items, s => callsItems visit around items s
  | absent, _ => []

/-- The calls for a node: one for the node itself, and those for its fields if the visitor enters
the node. -/
def callsNode (visit : Visitor σ) (around : Array Node) : Node → σ → List Call
  | ⟨c, name, fields⟩, s =>
      (around, .node ⟨c, name, fields⟩) ::
        match visit s around (.node ⟨c, name, fields⟩) with
        | (true, s) => callsFields visit (around.push ⟨c, name, fields⟩) fields s
        | (false, _) => []

/-- The calls for several values with the same nodes around them, one value after the other. -/
def callsItems (visit : Visitor σ) (around : Array Node) : List Value → σ → List Call
  | [], _ => []
  | v :: vs, s => v.callsIn visit around s ++ callsItems visit around vs (v.visitIn visit around s)

/-- The calls for the values of several fields. -/
def callsFields (visit : Visitor σ) (around : Array Node) :
    List (String × Value) → σ → List Call
  | [], _ => []
  | (_, v) :: fields, s =>
      v.callsIn visit around s ++ callsFields visit around fields (v.visitIn visit around s)

end

mutual

/-- A walk by recursion records the calls for a value behind those made before. -/
theorem visitIn_recorded (visit : Visitor σ) (around : Array Node) :
    ∀ (v : Value) (s : σ) (calls : List Call),
      v.visitIn visit.recorded around (s, calls)
        = (v.visitIn visit around s, calls ++ v.callsIn visit around s)
  | token t, s, calls => rfl
  | node n, s, calls => visitNode_recorded visit around n s calls
  | array items, s, calls => visitItems_recorded visit around items s calls
  | absent, s, calls => by simp only [visitIn, callsIn, List.append_nil]

theorem visitNode_recorded (visit : Visitor σ) (around : Array Node) :
    ∀ (n : Node) (s : σ) (calls : List Call),
      visitNode visit.recorded around n (s, calls)
        = (visitNode visit around n s, calls ++ callsNode visit around n s)
  | ⟨c, name, fields⟩, s, calls => by
      simp only [visitNode, callsNode, Visitor.recorded]
      rcases visit s around (.node ⟨c, name, fields⟩) with ⟨enters, s'⟩
      cases enters with
      | true =>
          have h := visitFields_recorded visit (around.push ⟨c, name, fields⟩) fields s'
            (calls ++ [(around, .node ⟨c, name, fields⟩)])
          rw [List.append_assoc, List.singleton_append] at h
          apply h
      | false => rfl

theorem visitItems_recorded (visit : Visitor σ) (around : Array Node) :
    ∀ (vs : List Value) (s : σ) (calls : List Call),
      visitItems visit.recorded around vs (s, calls)
        = (visitItems visit around vs s, calls ++ callsItems visit around vs s)
  | [], s, calls => by simp only [visitItems, callsItems, List.append_nil]
  | v :: vs, s, calls => by
      rw [visitItems, visitIn_recorded visit around v, visitItems_recorded visit around vs,
        visitItems, callsItems, List.append_assoc]

theorem visitFields_recorded (visit : Visitor σ) (around : Array Node) :
    ∀ (fields : List (String × Value)) (s : σ) (calls : List Call),
      visitFields visit.recorded around fields (s, calls)
        = (visitFields visit around fields s, calls ++ callsFields visit around fields s)
  | [], s, calls => by simp only [visitFields, callsFields, List.append_nil]
  | (_, v) :: fields, s, calls => by
      rw [visitFields, visitIn_recorded visit around v, visitFields_recorded visit around fields,
        visitFields, callsFields, List.append_assoc]

end

/-- Values are walked one after the other, whatever the visitor enters or skips of those before. -/
theorem callsItems_append (visit : Visitor σ) (around : Array Node) (vs ws : List Value) (s : σ) :
  callsItems visit around (vs ++ ws) s
    = callsItems visit around vs s ++ callsItems visit around ws (visitItems visit around vs s)
  := by
  induction vs generalizing s with
  | nil => rfl
  | cons v vs ih => rw [List.cons_append, callsItems, callsItems, visitItems, ih, List.append_assoc]

/-- A node that the visitor skips is the only one visited of what is in it. -/
theorem callsNode_of_skips {visit : Visitor σ} {around : Array Node} {n : Node} {s : σ}
    (h : (visit s around (.node n)).1 = false) :
  callsNode visit around n s = [(around, .node n)]
  := by
  obtain ⟨c, name, fields⟩ := n
  rw [callsNode]
  split
  · next heq =>
    rw [heq] at h
    cases h
  · rfl

/-! ### Stacks -/

/-- The values of a stack have no more nodes around them than a number, and fewer and fewer from
the top down. -/
structure Descends (depth : Nat) (stack : List (Nat × Value)) : Prop where
  le : ∀ e ∈ stack, e.1 ≤ depth
  sorted : stack.Pairwise (fun e e' => e'.1 ≤ e.1)

section Stack

variable {visit : Visitor σ} {ancestors around : Array Node} {stack : List (Nat × Value)}
  {depth depth' : Nat} {v : Value}

theorem shrink_eq_self (h : ancestors.size ≤ depth) :
  ancestors.shrink depth = ancestors
  := by
  apply Array.toList_inj.mp
  rw [Array.toList_shrink, List.take_of_length_le h]

/-- The nodes around are cut to as many as belong to the value on top of a stack, and no value under
it has more nodes around it. -/
theorem Descends.shrink (h : Descends ancestors.size ((depth, v) :: stack)) :
  (ancestors.shrink depth).size = depth ∧ Descends (ancestors.shrink depth).size stack
  := by
  obtain ⟨htop, hrest⟩ := List.pairwise_cons.mp h.sorted
  have hsize : (ancestors.shrink depth).size = depth := by
    simp [h.le _ List.mem_cons_self]
  rw [hsize]
  exact ⟨rfl, htop, hrest⟩

/-- Values with the same nodes around them may be put on a stack whose values have no more nodes
around them. -/
theorem Descends.stackOn (h : Descends depth stack) (hle : depth ≤ depth') (values : List Value) :
  Descends depth' (stackOn depth' values stack)
  := by
  have hfront : ∀ e ∈ values.map (fun v => (depth', v)), e.1 = depth' := by
    intro e he
    obtain ⟨v, -, rfl⟩ := List.mem_map.mp he
    rfl
  have hback : ∀ e ∈ stack, e.1 ≤ depth' := fun e he => Nat.le_trans (h.le e he) hle
  constructor
  · intro e he
    rcases List.mem_append.mp he with he | he
    · apply Nat.le_of_eq (hfront e he)
    · apply hback e he
  · apply List.pairwise_append.mpr
    refine ⟨?_, h.sorted, ?_⟩
    · apply List.pairwise_of_forall_mem_list
      intro e he e' he'
      apply Nat.le_of_eq ((hfront e' he').trans (hfront e he).symm)
    · intro e he e' he'
      rw [hfront e he]
      apply hback e' he'

/-- The state of a visitor after the values of a stack, each of them walked by recursion with as
many of some nodes around it as belong to it. -/
def visitStack (visit : Visitor σ) (ancestors : Array Node) (stack : List (Nat × Value)) (s : σ) :
    σ :=
  stack.foldl (fun s e => e.2.visitIn visit (ancestors.shrink e.1) s) s

theorem visitStack_stackOn (values : List Value) (s : σ) :
  visitStack visit ancestors (stackOn depth values stack) s
    = visitStack visit ancestors stack (visitItems visit (ancestors.shrink depth) values s)
  := by
  induction values generalizing s with
  | nil => rfl
  | cons v values ih => apply ih

/-- Of the nodes around, only those around the values of a stack matter. -/
theorem visitStack_congr (h : ∀ e ∈ stack, around.shrink e.1 = ancestors.shrink e.1) (s : σ) :
  visitStack visit around stack s = visitStack visit ancestors stack s
  := by
  apply List.foldl_ext
  intro s e he
  rw [h e he]

/-- When the nodes around are cut to those of a value, the nodes around a value with no more of
them are still there. -/
theorem visitStack_shrink (h : Descends (ancestors.shrink depth).size stack) (s : σ) :
  visitStack visit (ancestors.shrink depth) stack s = visitStack visit ancestors stack s
  := by
  apply visitStack_congr
  intro e he
  have hle : e.1 ≤ depth := by
    apply Nat.le_trans (h.le e he)
    rw [Array.size_shrink]
    apply Nat.min_le_left
  apply Array.toList_inj.mp
  simp [hle]

/-- A node that comes behind those around the values of a stack is cut off before they are
walked. -/
theorem visitStack_push (h : Descends around.size stack) (n : Node) (s : σ) :
  visitStack visit (around.push n) stack s = visitStack visit around stack s
  := by
  apply visitStack_congr
  intro e he
  apply Array.toList_inj.mp
  simp [h.le e he]

end Stack

/-- A walk with a stack walks each of its values as a walk by recursion does. -/
theorem walkStack_eq (visit : Visitor σ) (ancestors : Array Node) (stack : List (Nat × Value))
    (s : σ) (h : Descends ancestors.size stack) :
  walkStack visit ancestors stack s = visitStack visit ancestors stack s
  := by
  induction ancestors, stack, s using walkStack.induct visit with
  | case1 ancestors s =>
      rw [walkStack]
      rfl
  | case2 ancestors depth t stack s around ih =>
      obtain ⟨-, hrest⟩ := h.shrink
      rw [walkStack, ih hrest, visitStack_shrink hrest]
      rfl
  | case3 ancestors depth n stack s around s' hvisit ih =>
      -- the values of the node have one node more around them than the node itself
      obtain ⟨hsize, hrest⟩ := h.shrink
      have hnext : Descends (around.push n).size (Value.stackOn (depth + 1) n.values stack) := by
        rw [Array.size_push, hsize]
        apply hrest.stackOn (Nat.le_succ_of_le (Nat.le_of_eq hsize))
      have hwhole : (around.push n).shrink (depth + 1) = around.push n := by
        apply shrink_eq_self (Nat.le_of_eq _)
        rw [Array.size_push, hsize]
      have hnode : visitNode visit around n s = visitItems visit (around.push n) n.values s' := by
        obtain ⟨c, name, fields⟩ := n
        simp only [visitNode, hvisit, visitFields_eq, NodeOf.values]
      rw [walkStack]
      simp only [around] at hvisit
      simp only [hvisit]
      rw [ih hnext, visitStack_stackOn, hwhole, visitStack_push hrest, visitStack_shrink hrest,
        ← hnode]
      rfl
  | case4 ancestors depth n stack s around s' hvisit ih =>
      obtain ⟨-, hrest⟩ := h.shrink
      have hnode : visitNode visit around n s = s' := by
        obtain ⟨c, name, fields⟩ := n
        simp only [visitNode, hvisit]
      rw [walkStack]
      simp only [around] at hvisit
      simp only [hvisit]
      rw [ih hrest, visitStack_shrink hrest, ← hnode]
      rfl
  | case5 ancestors depth items stack s ih =>
      obtain ⟨hsize, hrest⟩ := h.shrink
      have hnext := hrest.stackOn (Nat.le_of_eq hsize) items
      have hwhole : (ancestors.shrink depth).shrink depth = ancestors.shrink depth := by
        apply shrink_eq_self (Nat.le_of_eq hsize)
      rw [walkStack, ih (hsize.symm ▸ hnext), visitStack_stackOn, hwhole, visitStack_shrink hrest]
      rfl
  | case6 ancestors depth stack s ih =>
      obtain ⟨-, hrest⟩ := h.shrink
      rw [walkStack, ih hrest, visitStack_shrink hrest]
      rfl

/-- If one visitor does what another one does, on the image of its state, a walk with the one ends
in the image of the state that a walk with the other one ends in. -/
theorem walkStack_map {τ : Type} (visit : Visitor σ) (visit' : Visitor τ) (f : σ → τ)
    (h : ∀ s around item, visit' (f s) around item = Prod.map id f (visit s around item))
    (ancestors : Array Node) (stack : List (Nat × Value)) (s : σ) :
  walkStack visit' ancestors stack (f s) = f (walkStack visit ancestors stack s)
  := by
  induction ancestors, stack, s using walkStack.induct visit with
  | case1 ancestors s => rw [walkStack, walkStack]
  | case2 ancestors depth t stack s around ih =>
      rw [walkStack, walkStack]
      simp only [h, Prod.map_snd]
      apply ih
  | case3 ancestors depth n stack s around s' hvisit ih =>
      rw [walkStack, walkStack]
      simp only [around] at hvisit
      simp only [h, hvisit, Prod.map_apply, id_eq]
      apply ih
  | case4 ancestors depth n stack s around s' hvisit ih =>
      rw [walkStack, walkStack]
      simp only [around] at hvisit
      simp only [h, hvisit, Prod.map_apply, id_eq]
      apply ih
  | case5 ancestors depth items stack s ih =>
      rw [walkStack, walkStack]
      apply ih
  | case6 ancestors depth stack s ih =>
      rw [walkStack, walkStack]
      apply ih

end Value

/-! ### Walks -/

namespace NodeOf

/-- A walk with a stack ends in the state that a walk by recursion ends in. -/
theorem walk_eq_visitNode (visit : Visitor σ) (root : Node) (s : σ) :
  root.walk visit s = Value.visitNode visit #[] root s
  := by
  have hstart : Value.Descends (#[] : Array Node).size [(0, .node root)] :=
    ⟨by simp, List.pairwise_singleton _ _⟩
  rw [walk, Value.walkStack_eq visit #[] _ s hstart]
  rfl

/-- A walk makes the calls of a walk by recursion, from its first to its last: it visits a node and
then, if the visitor enters the node, what is in the fields, and each call shows the nodes around
what is visited. Nothing in a node that is skipped is visited, and what comes behind it is. A walk
that does not show the nodes around visits the same in the same order. -/
theorem walk_preorder (root : Node) (s : σ) :
  (∀ visit : Visitor σ, root.walk visit s = Value.visitNode visit #[] root s
      ∧ root.walk visit.recorded (s, [])
        = (Value.visitNode visit #[] root s, Value.callsNode visit #[] root s))
  ∧ (∀ visit : σ → Visit → Bool × σ, root.walkPlain (recordedItems visit) (s, [])
      = (Value.visitNode (fun s _ item => visit s item) #[] root s,
          (Value.callsNode (fun s _ item => visit s item) #[] root s).map Prod.snd))
  ∧ (∀ (visit : Visitor σ) (around : Array Node) (n : Node) (s : σ),
      (visit s around (.node n)).1 = false →
        Value.callsNode visit around n s = [(around, .node n)])
  ∧ ∀ (visit : Visitor σ) (around : Array Node) (vs ws : List Value) (s : σ),
      Value.callsItems visit around (vs ++ ws) s
        = Value.callsItems visit around vs s
          ++ Value.callsItems visit around ws (Value.visitItems visit around vs s)
  := by
  have hrecorded : ∀ visit : Visitor σ, root.walk visit.recorded (s, [])
      = (Value.visitNode visit #[] root s, Value.callsNode visit #[] root s) := by
    intro visit
    rw [walk_eq_visitNode, Value.visitNode_recorded, List.nil_append]
  refine ⟨?_, ?_, ?_, Value.callsItems_append⟩
  · intro visit
    exact ⟨root.walk_eq_visitNode visit s, hrecorded visit⟩
  · intro visit
    -- what is recorded without the nodes around is what is recorded with them, without these
    have hmap := Value.walkStack_map (Visitor.recorded (fun s _ item => visit s item))
      (fun s _ item => recordedItems visit s item) (Prod.map id (List.map Prod.snd)) (by
        intro s around item
        simp [Visitor.recorded, recordedItems]) #[] [(0, .node root)] (s, [])
    have hwalk := congrArg (Prod.map id (List.map Prod.snd))
      (hrecorded (fun s _ item => visit s item))
    apply hmap.trans hwalk
  · intro visit around n s h
    apply Value.callsNode_of_skips h

/-- A visitor that enters the root alone does not see what is in a leaf, but what comes behind
it. -/
example (leaf : Node) (t : Token) :
  let root : Node := ⟨⟨0⟩, "Root", [("items", .array [.node leaf, .array [], .token t])]⟩
  Value.callsNode (fun s around _ => (around.isEmpty, s)) #[] root ()
    = [(#[], .node root), (#[root], .node leaf), (#[root], .token t)]
  := by
  obtain ⟨c, name, fields⟩ := leaf
  rfl

end NodeOf

end CaptureLR

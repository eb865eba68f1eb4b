import CaptureLR.State

/-!
# Automata

The automaton of a grammar is built state by state. The closure of a state calls for
reductions and for successors; a successor is merged into the first state of the same cores
that it is weakly compatible with, or becomes a new state. A merge that enlarges a state whose
actions are known already makes it dirty: its actions are computed again. When no state is
left, states that shifts no longer lead to are dropped and the others renumbered.
-/

namespace CaptureLR

/-! ### Conflicts -/

/-- One of two actions that compete for a place. -/
inductive ConflictAction where
  /-- A shift, to a state or to a successor that has no number yet. -/
  | shift (target : Option Nat)
  | reduce (rule : Nat)
deriving DecidableEq, Inhabited, Repr

/-- Two actions of one state under one column. -/
structure Conflict where
  state : Nat
  under : Column
  existing : ConflictAction
  incoming : ConflictAction
deriving DecidableEq, Inhabited, Repr

/-- The action of a state as a party to a conflict. -/
def Action.toConflictAction : Action → ConflictAction
  | shift target => .shift (some target)
  | reduce rule => .reduce rule

/-! ### The row of one state -/

/-- What the closure of a state calls for: actions, and the kernels of successors. -/
structure Row where
  actions : Actions
  successors : OrderedMap Column (List Item)
deriving DecidableEq, Inhabited

/-- Two actions of a row for one column, with the actions found before. -/
structure RowConflict where
  under : Column
  existing : ConflictAction
  incoming : ConflictAction
  actions : Actions
deriving DecidableEq, Inhabited

namespace Row

/-- The row with a reduction under a lookahead. -/
def addReduction (rule : Nat) (row : Row) (l : Lookahead) : Except RowConflict Row :=
  let under := l.toColumn
  if row.successors.contains under then
    .error ⟨under, .shift none, .reduce rule, row.actions⟩
  else
    match row.actions.get? under with
    | none => .ok { row with actions := row.actions.insert under (.reduce rule) }
    | some a =>
        if a = .reduce rule then .ok row
        else .error ⟨under, a.toConflictAction, .reduce rule, row.actions⟩

/-- The row with an item that is advanced over a symbol. -/
def addShift (s : Symbol) (item : Item) (row : Row) : Except RowConflict Row :=
  let under := s.toColumn
  match row.actions.get? under with
  | some (.reduce rule) => .error ⟨under, .reduce rule, .shift none, row.actions⟩
  | _ =>
      let kernel := (row.successors.get? under).getD []
      .ok { row with
        successors := row.successors.insert under (insertItem item.advance kernel) }

/-- The row with what an item of the closure calls for. -/
def addItem (g : Grammar) (row : Row) (item : Item) : Except RowConflict Row :=
  match item.symbol? g with
  | none => item.follow.toList.foldlM (addReduction item.core.rule) row
  | some s => row.addShift s item

end Row

/-! ### The builder -/

/-- An automaton under construction. -/
structure Builder where
  states : Array State
  /-- For each list of cores, the states with these cores, oldest first. -/
  byCores : OrderedMap (List Core) (List Nat)
  /-- The states whose actions have to be computed again, the one added last in front. -/
  dirty : List Nat
  /-- The first state whose actions were not computed yet. -/
  next : Nat
deriving DecidableEq, Inhabited

namespace Builder

/-- The builder without states. -/
def empty : Builder := ⟨#[], ∅, [], 0⟩

/-- Whether a state may be merged with a kernel. -/
def accepts (b : Builder) (kernel : List Item) (state : Nat) : Bool :=
  match b.states[state]? with
  | some s => weaklyCompatible s.kernel kernel
  | none => false

/-- The builder with the contexts of a kernel added to a state. If this enlarges a state that
has actions, the state becomes dirty. -/
def merge (b : Builder) (state : Nat) (kernel : List Item) : Builder :=
  match b.states[state]? with
  | none => b
  | some s =>
      let merged := mergeFollows s.kernel kernel
      let grew : Bool := decide (merged ≠ s.kernel)
      { b with
        states := b.states.modify state (fun s => { s with kernel := merged })
        dirty := if grew && s.isPopulated && !b.dirty.contains state then state :: b.dirty
          else b.dirty }

/-- The builder with a new state. -/
def push (startRule : Nat) (b : Builder) (kernel : List Item) (lane : List Column) : Builder :=
  let index := b.states.size
  let cores := coresOf kernel
  { b with
    states := b.states.push
      { index, kernel, actions := ∅
        accepting := kernel.any (fun i => decide (i.core = ⟨startRule, 1⟩))
        lane }
    byCores := b.byCores.insert cores ((b.byCores.get? cores).getD [] ++ [index]) }

/-- The builder with a state for a kernel, and the number of the state: the first with the same
cores that the kernel may be merged with, or a new one. -/
def insert (startRule : Nat) (b : Builder) (kernel : List Item) (lane : List Column) :
    Builder × Nat :=
  let candidates := (b.byCores.get? (coresOf kernel)).getD []
  match candidates.find? (b.accepts kernel) with
  | some state => (b.merge state kernel, state)
  | none => (b.push startRule kernel lane, b.states.size)

/-- The builder with the actions of a state replaced. -/
def setActions (b : Builder) (state : Nat) (actions : Actions) : Builder :=
  { b with states := b.states.modify state (fun s => { s with actions }) }

/-- The builder with a shift of a state, and a state for the kernel it leads to. -/
def addSuccessor (startRule state : Nat) (lane : List Column) (b : Builder)
    (successor : Column × List Item) : Builder :=
  let (b, target) := b.insert startRule successor.2 (lane ++ [successor.1])
  { b with
    states := b.states.modify state
      (fun s => { s with actions := s.actions.insert successor.1 (.shift target) }) }

/-- The builder with the actions of a state computed, or the conflict among them and the
builder with the actions found before. -/
def expand (g : Grammar) (startRule : Nat) (b : Builder) (state : Nat) :
    Except (Conflict × Builder) Builder :=
  match b.states[state]? with
  | none => .ok b
  | some s =>
      match (s.closure g).foldlM (Row.addItem g) ⟨s.actions, ∅⟩ with
      | .error c =>
          .error (⟨state, c.under, c.existing, c.incoming⟩, b.setActions state c.actions)
      | .ok row =>
          .ok (row.successors.toList.foldl (addSuccessor startRule state s.lane)
            (b.setActions state row.actions))

/-- The state whose actions are to be computed next: a dirty one if there is one. -/
def pop (b : Builder) : Option (Nat × Builder) :=
  match b.dirty with
  | state :: dirty => some (state, { b with dirty })
  | [] => if b.next < b.states.size then some (b.next, { b with next := b.next + 1 }) else none

/-- Why a construction stopped before it was finished. -/
inductive Halt where
  /-- Two actions of a state are in conflict. -/
  | conflict (c : Conflict) (b : Builder)
  /-- The allowed number of steps did not suffice. -/
  | exhausted (b : Builder)
deriving Inhabited

/-- Computes actions until no state is left, in no more steps than allowed. -/
def run (g : Grammar) (startRule : Nat) : Nat → Builder → Except Halt Builder
  | 0, b => .error (.exhausted b)
  | fuel + 1, b =>
      match b.pop with
      | none => .ok b
      | some (state, b) =>
          match b.expand g startRule state with
          | .error (c, b) => .error (.conflict c b)
          | .ok b => run g startRule fuel b

/-! ### Dropping states -/

/-- The states that the shifts of a state lead to. -/
def targets (states : Array State) (state : Nat) : List Nat :=
  match states[state]? with
  | none => []
  | some s => s.actions.values.filterMap (fun
      | .shift target => some target
      | .reduce _ => none)

/-- The reached states, after following all shifts from the states of a stack on. A state is
put on the stack when it is reached, so the stack is popped no more often than there are
states. -/
def reach (states : Array State) : Nat → List Nat → OrderedSet Nat → OrderedSet Nat
  | 0, _, reached => reached
  | _, [], reached => reached
  | fuel + 1, state :: stack, reached =>
      let fresh := (targets states state).filter (fun t => decide (t ∉ reached))
      reach states fuel (fresh.eraseDups ++ stack) (reached.insertMany fresh)

/-- The states that shifts lead to from the initial state. -/
def reachable (states : Array State) : OrderedSet Nat :=
  reach states (states.size + 1) [0] (.singleton 0)

/-- The action with the target of a shift renumbered to its place in a list. -/
def renumberAction (kept : List Nat) : Action → Action
  | .shift target => .shift ((kept.idxOf? target).getD target)
  | .reduce rule => .reduce rule

/-- The states of a list, numbered by their places in it. -/
def keepStates (states : Array State) (kept : List Nat) : Array State :=
  (kept.filterMap (fun i => states[i]?)).toArray.mapIdx
    (fun index s => { s with index, actions := s.actions.map (renumberAction kept) })

/-- The states that are reachable, in their old order, with new numbers. -/
def dropUnreachable (states : Array State) : Array State :=
  let reached := reachable states
  let kept := (List.range states.size).filter (fun i => decide (i ∈ reached))
  if kept.length = states.size then states else keepStates states kept

end Builder

/-! ### Building -/

/-- An automaton of a grammar. -/
structure Automaton where
  grammar : Grammar
  states : Array State
  startRule : Nat
deriving DecidableEq, Inhabited

namespace Grammar

/-- The lookaheads that the rules and the first sets mention, and the end of the input. -/
def lookaheads (g : Grammar) : Context :=
  let terminals := g.rules.toList.flatMap (fun r => r.expansion.filterMap (fun
    | .terminal t => some (Lookahead.terminal t)
    | .nonterminal _ => none))
  let firsts := g.nonterminals.toList.flatMap (fun i => i.first.toList)
  endContext.insertMany (terminals ++ firsts)

/-- The number of cores of all rules. -/
def coreCount (g : Grammar) : Nat :=
  g.rules.toList.foldr (fun r n => r.expansion.length + 1 + n) 0

/-- More steps than a construction can take: there are no more states than kernels, and the
actions of a state are computed once and again whenever one of its contexts grows. -/
def constructionBound (g : Grammar) : Nat :=
  let cores := g.coreCount
  let lookaheads := g.lookaheads.size
  Nat.pow 2 (cores * (lookaheads + 1)) * (cores * lookaheads + 1) + 1

end Grammar

/-- A construction of an automaton: what was built, and what stopped it, if anything. -/
structure Construction where
  /-- The number of states that were created. -/
  created : Nat
  automaton : Automaton
  /-- What stopped the construction; nothing if it was finished. -/
  halt : Option (Option Conflict)
deriving DecidableEq, Inhabited

namespace Automaton

/-- Builds the automaton that begins with the start rule before the end of the input. -/
def construct (g : Grammar) (startRule : Nat) : Construction :=
  let initial := kernelOf [⟨⟨startRule, 0⟩, endContext⟩]
  let b := (Builder.empty.insert startRule initial []).1
  match b.run g startRule g.constructionBound with
  | .ok b => ⟨b.states.size, ⟨g, Builder.dropUnreachable b.states, startRule⟩, none⟩
  | .error (.conflict c b) => ⟨b.states.size, ⟨g, b.states, startRule⟩, some (some c)⟩
  | .error (.exhausted b) => ⟨b.states.size, ⟨g, b.states, startRule⟩, some none⟩

end Automaton

end CaptureLR

import CaptureLR.ClassTable
import CaptureLR.Grammar.First

/-!
# From patterns to rules

The grammar of a language is made from the root: a literal is a terminal, a sequence is
written out, and every instance of a combinator and every class has a nonterminal of its own.
A nonterminal is registered before its rules are made, so cycles close. The bodies of classes
are made after everything that was reached before them.
-/

namespace CaptureLR

/-- A grammar in the making. -/
structure Draft where
  grammar : Grammar
  /-- The nonterminals of the instances of combinators reached so far. -/
  instances : OrderedMap CombinatorId Nonterminal
  /-- The nonterminals of the classes reached so far. -/
  classes : OrderedMap ClassId Nonterminal
  /-- The classes whose bodies are still to be made, first come first served. -/
  pending : List (ClassId × Nonterminal)
deriving DecidableEq, Inhabited

namespace Draft

/-- The draft of the empty grammar. -/
def empty : Draft := ⟨.empty, ∅, ∅, []⟩

/-- The draft with one more rule. -/
def addRule (d : Draft) (head : Nonterminal) (expansion : List Symbol) : Draft :=
  { d with grammar := d.grammar.addRule head expansion }

/-- The draft with several rules of one nonterminal. -/
def addRules (d : Draft) (head : Nonterminal) (expansions : List (List Symbol)) : Draft :=
  expansions.foldl (fun d e => d.addRule head e) d

/-- The draft with one more nonterminal, and the nonterminal. -/
def addNonterminal (d : Draft) (name : String) (capture : Option Capture) : Nonterminal × Draft :=
  (d.grammar.nextNonterminal, { d with grammar := d.grammar.addNonterminal name capture })

/-- The draft with a nonterminal for an instance of a combinator, and the nonterminal. -/
def addInstance (d : Draft) (id : CombinatorId) (name : String) (capture : Option Capture) :
    Nonterminal × Draft :=
  let (n, d) := d.addNonterminal name capture
  (n, { d with instances := d.instances.insert id n })

/-- The nonterminal of a class; a class that has none gets one, and its body becomes pending. -/
def classNonterminal (d : Draft) (c : NodeClass) : Nonterminal × Draft :=
  match d.classes.get? c.id with
  | some n => (n, d)
  | none =>
      let (n, d) := d.addNonterminal c.name none
      (n, { d with classes := d.classes.insert c.id n, pending := d.pending ++ [(c.id, n)] })

end Draft

/-! ### Repetitions -/

/-- So many elements with delimiters between them; at least one. -/
def repeated (element delimiter : List Symbol) (n : Nat) : List Symbol :=
  element ++ (List.replicate (n - 1) (delimiter ++ element)).flatten

/-- The expansions of a bounded repetition: for each allowed number of elements from one on, in
ascending order, the elements, and the elements with a trailing delimiter if there may be one. -/
def boundedExpansions (element delimiter : List Symbol) (trailing : Option (List Symbol))
    (lower upper : Nat) : List (List Symbol) :=
  (List.range' (max lower 1) (upper - max lower 1)).flatMap (fun n =>
    let elements := repeated element delimiter n
    match trailing with
    | none => [elements]
    | some t => [elements, elements ++ t])

/-- The expansions of the loop of an unbounded repetition: nothing, one more element, or a
trailing delimiter if there may be one. -/
def loopExpansions (element delimiter : List Symbol) (trailing : Option (List Symbol))
    (loop : Nonterminal) : List (List Symbol) :=
  [[], delimiter ++ element ++ [.nonterminal loop]] ++ trailing.toList

namespace Repetition

/-- Whether no number of elements is allowed. -/
def isVoid (r : Repetition) : Bool :=
  match r.upper with
  | some upper => upper = 0 || upper ≤ r.lower
  | none => false

/-- The draft with the rules of a repetition whose parts are lowered. -/
def addRules (r : Repetition) (name : String) (n : Nonterminal)
    (element delimiter : List Symbol) (trailing : Option (List Symbol)) (d : Draft) : Draft :=
  let d := if r.lower = 0 then d.addRule n [] else d
  match r.upper with
  | some upper => d.addRules n (boundedExpansions element delimiter trailing r.lower upper)
  | none =>
      let (loop, d) := d.addNonterminal (name ++ "['innerLoop']") none
      let d := d.addRule n (repeated element delimiter (max r.lower 1) ++ [.nonterminal loop])
      d.addRules loop (loopExpansions element delimiter trailing loop)

end Repetition

/-! ### Matches -/

namespace Match

/-- What a match with this target captures, if it captures something. -/
def capture? (m : Match) (t : Target) : Option Capture :=
  m.prop.map (fun prop => ⟨m.isArray, prop, match t with
    | .nodeClass c => .node c
    | .pattern (.literal _) => .token
    | .pattern _ => .span⟩)

end Match

namespace Shape

/-- What messages and names call a combinator. -/
def label : Shape → String
  | choice _ => "Or"
  | repetition _ => "Repeat"
  | capture m => if m.isArray then "MatchArr" else "Match"

end Shape

/-! ### Patterns -/

/-- The language and the classes a grammar is made from. -/
structure Source where
  language : Language
  classes : ClassTable
deriving Inhabited

/-- A step of making a grammar. -/
abbrev Drafting (α : Type) := StateT Draft (Except BuildError) α

namespace Source

/-- The class of the class table, or the error that there is none. -/
def nodeClass (s : Source) (c : ClassId) : Except BuildError NodeClass :=
  match s.classes.get? c with
  | some n => .ok n
  | none => .error (.undefinedClass ((s.language.name? c).getD c.display))

/-- Refuses a match that captures a class standing for an array as a single value. -/
def checkCapture (s : Source) (m : Match) : Target → Except BuildError Unit
  | .pattern _ => .ok ()
  | .nodeClass c => do
      let n ← s.nodeClass c
      if !m.isArray && n.standsForArray then .error (.hiddenArrayCapture n.name) else .ok ()

/-- The nonterminal of a class. -/
def classNonterminal (s : Source) (c : ClassId) : Drafting Nonterminal := do
  let n ← s.nodeClass c
  modifyGet (fun d => d.classNonterminal n)

/-- How a pattern is lowered to symbols; the context names the place of the pattern. -/
abbrev Lowerer := Pattern → (context : String) → Drafting (List Symbol)

/-- The symbols of the items of a sequence from an index on. -/
def lowerItems (lower : Lowerer) : List Pattern → (context : String) → (index : Nat) →
    Drafting (List Symbol)
  | [], _, _ => pure []
  | p :: ps, context, index => do
      let front ← lower p s!"{context}.Caten[{index}]"
      let back ← lowerItems lower ps context (index + 1)
      pure (front ++ back)

/-- Makes a rule of a nonterminal for each branch of a choice from an index on. -/
def lowerBranches (lower : Lowerer) (n : Nonterminal) : List Pattern → (name : String) →
    (index : Nat) → Drafting Unit
  | [], _, _ => pure ()
  | p :: ps, name, index => do
      let expansion ← lower p s!"{name}[{index}]"
      modify (fun d => d.addRule n expansion)
      lowerBranches lower n ps name (index + 1)

/-- The nonterminal of an instance of a combinator. An instance that was reached before keeps
its nonterminal, but needs a name to be reached again. -/
def lowerInstance (s : Source) (lower : Lowerer) (id : CombinatorId) (c : Combinator)
    (context : String) : Drafting Nonterminal := do
  match (← get).instances.get? id with
  | some n =>
      if c.name.isSome then pure n else throw (.unnamedReuse c.shape.label context)
  | none =>
      let name := c.name.getD (context ++ "." ++ c.shape.label)
      match c.shape with
      | .choice branches =>
          let n ← modifyGet (fun d => d.addInstance id name none)
          lowerBranches lower n branches name 0
          pure n
      | .repetition r =>
          let n ← modifyGet (fun d => d.addInstance id name none)
          if r.isVoid then pure n
          else
            let element ← lower r.element (name ++ "['pattern']")
            let delimiter ← lower r.delimiter (name ++ "['delimiter']")
            let trailing ← match r.trailing with
              | .forbidden => pure none
              | .delimiter => pure (some delimiter)
              | .pattern p => some <$> lower p (name ++ "['trailingDelimiter']")
            modify (r.addRules name n element delimiter trailing)
            pure n
      | .capture m =>
          match m.target with
          | none => throw (.uninitializedMatch context)
          | some target =>
              s.checkCapture m target
              let n ← modifyGet (fun d => d.addInstance id name (m.capture? target))
              match target with
              | .pattern p =>
                  let expansion ← lower p name
                  modify (fun d => d.addRule n expansion)
              | .nodeClass c =>
                  let inner ← s.classNonterminal c
                  modify (fun d => d.addRule n [.nonterminal inner])
              pure n

/-- The symbols of a pattern, with combinators nested no deeper than allowed. -/
def lower (s : Source) : Nat → Lowerer
  | _, .literal t, _ => pure [.terminal t]
  | 0, _, _ => throw .exhausted
  | fuel + 1, .sequence items, context => lowerItems (lower s fuel) items context 0
  | fuel + 1, .combinator id, context => do
      match s.language.combinator? id with
      | none => pure []
      | some c =>
          let n ← s.lowerInstance (lower s fuel) id c context
          pure [.nonterminal n]

/-- The nonterminal of the root capture, which stores a node of the root class as `root`. -/
def lowerRoot (s : Source) (root : ClassId) : Drafting Nonterminal := do
  let c ← s.nodeClass root
  let n ← modifyGet (fun d => d.addNonterminal "root.Match" (some ⟨false, "root", .node root⟩))
  let inner ← modifyGet (fun d => d.classNonterminal c)
  modify (fun d => d.addRule n [.nonterminal inner])
  pure n

/-- Makes the rule for the body of a class. -/
def lowerClass (s : Source) (c : ClassId) (n : Nonterminal) : Drafting Unit := do
  let name := (← s.nodeClass c).name
  match s.language.pattern? c with
  | none => throw (.undefinedClass name)
  | some p =>
      let expansion ← lower s (s.language.weight + 1) p name
      modify (fun d => d.addRule n expansion)

/-- Makes the bodies of the pending classes and of those that become pending meanwhile, no more
than allowed. -/
def lowerPending (s : Source) : Nat → Drafting Unit
  | 0 => throw .exhausted
  | fuel + 1 => do
      let d ← get
      match d.pending with
      | [] => pure ()
      | (c, n) :: pending =>
          set { d with pending }
          s.lowerClass c n
          lowerPending s fuel

end Source

/-! ### Grammars of languages -/

/-- The grammar of a language, with the rule that expands the start symbol. -/
structure LanguageGrammar where
  grammar : Grammar
  startRule : Nat
deriving DecidableEq, Inhabited

namespace Source

/-- Makes the rules of the root capture, the start rule and the bodies of all classes reached.
Every class becomes pending at most once. -/
def lowerAll (s : Source) (root : ClassId) : Drafting Nat := do
  let n ← s.lowerRoot root
  let startRule := (← get).grammar.rules.size
  modify (fun d => d.addRule .start [.nonterminal n])
  s.lowerPending (s.classes.size + 1)
  pure startRule

/-- The grammar of a language from a root, first sets computed. -/
def grammar (s : Source) (root : ClassId) : Except BuildError LanguageGrammar :=
  match (s.lowerAll root).run .empty with
  | .error e => .error e
  | .ok (startRule, d) => .ok ⟨d.grammar.computeFirst, startRule⟩

end Source

end CaptureLR

import CaptureLR.Pattern

/-!
# Languages

A language is a list of declared classes and the instances of the combinators their patterns
are made of. A class may be declared before its pattern is known, and a match may be made
before its target is.
-/

namespace CaptureLR

/-- A declared class. -/
structure ClassDecl where
  name : String
  /-- Whether its nodes are replaced by what they capture as their value. -/
  hidden : Bool
  pattern : Option Pattern
deriving Inhabited, Repr

/-- Declared classes and instances of combinators. -/
structure Language where
  classes : Array ClassDecl
  combinators : Array Combinator
deriving Inhabited, Repr

namespace Language

/-- The language without classes. -/
def empty : Language := ⟨#[], #[]⟩

/-- The class that the next declaration makes. -/
def nextClass (l : Language) : ClassId := ⟨l.classes.size⟩

/-- The language with one more class. -/
def declare (l : Language) (name : String) (hidden : Bool) (pattern : Option Pattern) : Language :=
  { l with classes := l.classes.push ⟨name, hidden, pattern⟩ }

/-- The language with the pattern of a class; nothing changes if there is no such class. -/
def define (l : Language) (c : ClassId) (p : Pattern) : Language :=
  { l with classes := l.classes.modify c.index (fun d => { d with pattern := some p }) }

/-- The name of a class. -/
def name? (l : Language) (c : ClassId) : Option String := l.classes[c.index]?.map ClassDecl.name

/-- The pattern of a class. -/
def pattern? (l : Language) (c : ClassId) : Option Pattern := l.classes[c.index]?.bind ClassDecl.pattern

/-- The instance that the next combinator is. -/
def nextCombinator (l : Language) : CombinatorId := ⟨l.combinators.size⟩

/-- The language with one more instance of a combinator. -/
def addCombinator (l : Language) (c : Combinator) : Language :=
  { l with combinators := l.combinators.push c }

/-- An instance of a combinator. -/
def combinator? (l : Language) (id : CombinatorId) : Option Combinator := l.combinators[id.index]?

/-- The target of a match, if it has one. -/
def target? (l : Language) (id : CombinatorId) : Option Target :=
  match l.combinator? id with
  | some ⟨_, .capture m⟩ => m.target
  | _ => none

/-- The language with the target of a match that had none, or nothing if it had one or if the
instance is no match. -/
def patch? (l : Language) (id : CombinatorId) (t : Target) : Option Language :=
  match l.combinator? id with
  | some ⟨name, .capture m⟩ =>
      if m.target.isSome then none
      else some { l with
        combinators :=
          l.combinators.set! id.index ⟨name, .capture { m with target := some t }⟩ }
  | _ => none

/-- The number of places in all patterns of the language. -/
def weight (l : Language) : Nat :=
  l.classes.toList.foldr (fun d n => (d.pattern.map Pattern.weight).getD 0 + n) 0
    + l.combinators.toList.foldr (fun c n => c.weight + n) 0

end Language

end CaptureLR

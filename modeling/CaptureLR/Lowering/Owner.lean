import CaptureLR.Lowering

/-!
# Owners of nonterminals

Lowering begins with the capture of the root and goes through bodies: that of every class that it
comes by, the root class first, and that of every instance of a combinator that stands in a body it
goes through. Each body is gone through once, and what owns it is given a nonterminal; repetitions
without an upper bound are given one more for their loops. An instance that stands in two places
would be come by twice, which takes a name, and a class that stands for an array must not be
captured as a single value.
-/

namespace CaptureLR

/-- What a nonterminal is made for. -/
inductive Owner where
  /-- The start symbol. -/
  | start
  /-- The capture of the root. -/
  | root
  | nodeClass (c : ClassId)
  /-- An instance of a combinator. -/
  | combinator (id : CombinatorId)
  /-- The loop of a repetition without an upper bound. -/
  | loop (id : CombinatorId)
deriving DecidableEq, Inhabited, Repr

namespace Pattern

mutual

/-- The instances that stand in a pattern, from left to right. -/
def mentions : Pattern → List CombinatorId
  | literal _ => []
  | sequence items => mentionsList items
  | combinator id => [id]

/-- The instances that stand in a list of patterns, from left to right. -/
def mentionsList : List Pattern → List CombinatorId
  | [] => []
  | p :: ps => p.mentions ++ mentionsList ps

end

end Pattern

/-- The parts of a combinator that lowering goes through: all of them, but none of a repetition
that allows no number of elements. -/
def Combinator.entered (c : Combinator) : List Pattern :=
  match c.shape with
  | .repetition r => if r.isVoid then [] else c.parts
  | _ => c.parts

namespace Language

/-- The instances that stand in the body of an owner, from left to right. -/
def mentions (l : Language) : Owner → List CombinatorId
  | .nodeClass c =>
      match l.pattern? c with
      | some p => p.mentions
      | none => []
  | .combinator id =>
      match l.combinator? id with
      | some c => Pattern.mentionsList c.entered
      | none => []
  | _ => []

/-- Whether an instance has no name. -/
def isUnnamed (l : Language) (id : CombinatorId) : Bool :=
  match l.combinator? id with
  | some c => c.name.isNone
  | none => false

/-- The instances without a name that stand in the body of an owner. -/
def unnamed (l : Language) (o : Owner) : List CombinatorId := (l.mentions o).filter l.isUnnamed

/-- An instance is a repetition without an upper bound. -/
def IsUnbounded (l : Language) (id : CombinatorId) : Prop :=
  ∃ name r, l.combinator? id = some ⟨name, .repetition r⟩ ∧ r.upper = none

/-- What lowering comes by from a root. -/
inductive Reaches (l : Language) (root : ClassId) : Owner → Prop
  | start : Reaches l root .start
  | root : Reaches l root .root
  | rootClass : Reaches l root (.nodeClass root)
  | mention {o : Owner} {id : CombinatorId} {c : Combinator} (h : Reaches l root o)
      (hid : id ∈ l.mentions o) (hc : l.combinator? id = some c) :
      Reaches l root (.combinator id)
  | target {id : CombinatorId} {name : Option String} {m : Match} {c : ClassId}
      (h : Reaches l root (.combinator id)) (hid : l.combinator? id = some ⟨name, .capture m⟩)
      (hm : m.target = some (.nodeClass c)) :
      Reaches l root (.nodeClass c)
  | loop {id : CombinatorId} (h : Reaches l root (.combinator id)) (hid : l.IsUnbounded id) :
      Reaches l root (.loop id)

end Language

namespace Source

/-- An instance is not a match that captures a class standing for an array as a single value. -/
def IsPlain (s : Source) (id : CombinatorId) : Prop :=
  ∀ name m c n, s.language.combinator? id = some ⟨name, .capture m⟩ →
    m.target = some (.nodeClass c) → s.classes.get? c = some n → m.isArray = false →
      n.standsForArray = false

/-- No instance without a name stands in two places of what is come by, be it in one body or in
two, and no match there captures a class standing for an array as a single value. -/
structure IsLowerable (s : Source) (root : ClassId) : Prop where
  once : ∀ o, s.language.Reaches root o → (s.language.unnamed o).Nodup
  apart : ∀ o o', s.language.Reaches root o → s.language.Reaches root o' → o ≠ o' →
    ∀ id ∈ s.language.unnamed o, id ∉ s.language.unnamed o'
  plain : ∀ id, s.language.Reaches root (.combinator id) → s.IsPlain id

end Source

end CaptureLR

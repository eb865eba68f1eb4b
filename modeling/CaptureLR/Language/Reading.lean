import CaptureLR.Language

/-!
# What patterns read

A pattern of a language reads certain sequences of terminals: a literal itself, a sequence what
its items read one after the other, a choice what one of its branches reads, a match what its
target reads, and a repetition elements with delimiters between them. Instances of combinators
and classes read what their definitions read, to any finite depth, so the definition is
inductive and cycles are no obstacle.
-/

namespace CaptureLR

namespace Repetition

/-- A number of elements that a repetition allows: one or more, and within its bounds. -/
def Allows (r : Repetition) (n : Nat) : Prop :=
  1 ≤ n ∧ r.lower ≤ n ∧ ∀ upper, r.upper = some upper → n < upper

/-- A repetition allows no element at all. -/
def AllowsNone (r : Repetition) : Prop := r.lower = 0 ∧ r.upper ≠ some 0

end Repetition

/-- What may be read of a language: a pattern, patterns one after the other, so many elements
with delimiters between them, or what may follow the last element. -/
inductive Readable where
  | pattern (p : Pattern)
  | patterns (ps : List Pattern)
  /-- So many elements of a repetition, not counting the first, each behind a delimiter. -/
  | elements (r : Repetition) (n : Nat)
  | trailing (r : Repetition)

namespace Language

/-- A sequence of terminals can be read as something of a language. -/
inductive Reads (l : Language) : Readable → List Terminal → Prop
  | literal (t : Terminal) : Reads l (.pattern (.literal t)) [t]
  | sequence {ps : List Pattern} {w : List Terminal} (h : Reads l (.patterns ps) w) :
      Reads l (.pattern (.sequence ps)) w
  | nil : Reads l (.patterns []) []
  | cons {p : Pattern} {ps : List Pattern} {u v : List Terminal}
      (hu : Reads l (.pattern p) u) (hv : Reads l (.patterns ps) v) :
      Reads l (.patterns (p :: ps)) (u ++ v)
  /-- A number that names no instance stands for the empty text. -/
  | dangling {id : CombinatorId} (hid : l.combinator? id = none) :
      Reads l (.pattern (.combinator id)) []
  | choice {id : CombinatorId} {name : Option String} {ps : List Pattern} {p : Pattern}
      {w : List Terminal} (hid : l.combinator? id = some ⟨name, .choice ps⟩) (hp : p ∈ ps)
      (h : Reads l (.pattern p) w) :
      Reads l (.pattern (.combinator id)) w
  | toPattern {id : CombinatorId} {name : Option String} {m : Match} {p : Pattern}
      {w : List Terminal} (hid : l.combinator? id = some ⟨name, .capture m⟩)
      (hm : m.target = some (.pattern p)) (h : Reads l (.pattern p) w) :
      Reads l (.pattern (.combinator id)) w
  | toClass {id : CombinatorId} {name : Option String} {m : Match} {c : ClassId} {p : Pattern}
      {w : List Terminal} (hid : l.combinator? id = some ⟨name, .capture m⟩)
      (hm : m.target = some (.nodeClass c)) (hc : l.pattern? c = some p)
      (h : Reads l (.pattern p) w) :
      Reads l (.pattern (.combinator id)) w
  | none {id : CombinatorId} {name : Option String} {r : Repetition}
      (hid : l.combinator? id = some ⟨name, .repetition r⟩) (hr : r.AllowsNone) :
      Reads l (.pattern (.combinator id)) []
  | some {id : CombinatorId} {name : Option String} {r : Repetition} {n : Nat}
      {u v w : List Terminal} (hid : l.combinator? id = some ⟨name, .repetition r⟩)
      (hr : r.Allows (n + 1)) (hu : Reads l (.pattern r.element) u)
      (hv : Reads l (.elements r n) v) (hw : Reads l (.trailing r) w) :
      Reads l (.pattern (.combinator id)) (u ++ v ++ w)
  | noElement (r : Repetition) : Reads l (.elements r 0) []
  | element {r : Repetition} {n : Nat} {d u v : List Terminal}
      (hd : Reads l (.pattern r.delimiter) d) (hu : Reads l (.pattern r.element) u)
      (hv : Reads l (.elements r n) v) :
      Reads l (.elements r (n + 1)) (d ++ u ++ v)
  | noTrailing (r : Repetition) : Reads l (.trailing r) []
  | trailingDelimiter {r : Repetition} {w : List Terminal} (hr : r.trailing = .delimiter)
      (h : Reads l (.pattern r.delimiter) w) :
      Reads l (.trailing r) w
  | trailingPattern {r : Repetition} {p : Pattern} {w : List Terminal}
      (hr : r.trailing = .pattern p) (h : Reads l (.pattern p) w) :
      Reads l (.trailing r) w

/-- A sequence of terminals can be read as a node of a class. -/
def ReadsClass (l : Language) (c : ClassId) (w : List Terminal) : Prop :=
  ∃ p, l.pattern? c = some p ∧ l.Reads (.pattern p) w

end Language

end CaptureLR

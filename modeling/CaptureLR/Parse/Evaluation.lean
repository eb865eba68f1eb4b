import CaptureLR.Grammar.Derivation
import CaptureLR.Parse.Slots
import CaptureLR.ClassTable

/-!
# The captures of derivation trees

A derivation tree is evaluated from its leaves up: a token captures nothing, and a rule joins
what its trees captured from left to right and then stores what the capture of its head says.
-/

namespace CaptureLR

/-- The position of the first of some tokens, or the given one if there is none. -/
def startOf (tokens : List Token) (behind : Position) : Position :=
  (tokens.head?.map Token.start).getD behind

theorem startOf_append (ts us : List Token) (behind : Position) :
  startOf (ts ++ us) behind = startOf ts (startOf us behind)
  := by
  cases ts <;> rfl

/-- The slots of a span with its capture stored, given the tokens of the span and the position
behind it. A node takes all that was captured in the span; nothing is stored for a class that
is not in the table. -/
def Slots.captured (classes : ClassTable) (tokens : List Token) (behind : Position) (slots : Slots)
    (c : Capture) : Slots :=
  match c.kind with
  | .node id =>
      match classes.get? id with
      | some n => Slots.store ∅ c (n.value slots.captures) n.standsForArray
      | none => slots
  | .token => slots.store c (.token (tokens.head?.getD (.endOfInput behind))) false
  | .span => slots.store c (.array (tokens.map Value.token)) false

namespace DerivationTree

mutual

/-- What is captured in a derivation tree that is followed by a position. -/
def slots (g : Grammar) (classes : ClassTable) (behind : Position) : DerivationTree → Slots
  | leaf _ => ∅
  | node r children =>
      let joined := slotsOf g classes behind ∅ children
      match g.capture? (g.head r) with
      | none => joined
      | some c => joined.captured classes (tokensOf children) behind c

/-- What is captured in several trees that are followed by a position, joined from left to right
behind what was captured before. -/
def slotsOf (g : Grammar) (classes : ClassTable) (behind : Position) (before : Slots) :
    List DerivationTree → Slots
  | [] => before
  | c :: cs =>
      slotsOf g classes behind
        (before.join (c.slots g classes (startOf (tokensOf cs) behind))) cs

end

/-- The value that a tree of the start symbol stands for: what was captured as `root`. -/
def rootValue (g : Grammar) (classes : ClassTable) (behind : Position) (c : DerivationTree) :
    Value :=
  (((c.slots g classes behind).get? "root").map Slot.value).getD .absent

/-- What several trees capture after others is joined behind what these captured. -/
theorem slotsOf_append
    (g : Grammar) (classes : ClassTable) (behind : Position) (before : Slots)
    (cs ds : List DerivationTree) :
  slotsOf g classes behind before (cs ++ ds)
    = slotsOf g classes behind
        (slotsOf g classes (startOf (tokensOf ds) behind) before cs) ds
  := by
  induction cs generalizing before with
  | nil => rfl
  | cons c cs ih =>
      rw [List.cons_append, slotsOf, slotsOf, ih]
      rw [tokensOf_append, startOf_append]

end DerivationTree

end CaptureLR

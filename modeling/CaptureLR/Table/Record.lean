import CaptureLR.ClassTable
import CaptureLR.Table

/-!
# Stored tables

A table is stored with its classes by name. Loading a stored table checks that its shifts and
reductions lead somewhere and that its classes exist. A stored table may repeat a column or
describe a capture incompletely; of a repeated column the first place and the last action
count, and an incomplete capture is none.
-/

namespace CaptureLR

/-- An action of a state under a column. -/
structure Transition where
  under : Column
  action : Action
deriving DecidableEq, Inhabited

/-- A stored state. -/
structure StateRecord where
  accepting : Bool
  transitions : List Transition
deriving DecidableEq, Inhabited

/-- A stored kind of capture. -/
inductive KindRecord where
  /-- A node of the class with this name. -/
  | nodeClass (name : String)
  /-- All tokens of the span. -/
  | span
  /-- The first token of the span. -/
  | token
deriving DecidableEq, Inhabited

/-- A stored reduction. Only with both a property and a kind is something captured. -/
structure ReductionRecord where
  popCount : Nat
  into : Nonterminal
  prop : Option String
  isArray : Option Bool
  kind : Option KindRecord
deriving DecidableEq, Inhabited

/-- A stored table. -/
structure TableRecord where
  states : List StateRecord
  reductions : NumberedMap ReductionRecord
deriving DecidableEq, Inhabited

/-! ### Kinds of captures as words -/

/-- The words a kind of capture is written with. -/
def KindRecord.words : KindRecord → List String
  | nodeClass name => ["class", name]
  | span => ["pattern"]
  | token => ["token"]

/-- The kind of capture that is written with some words. -/
def KindRecord.ofWords : List String → Except TableError KindRecord
  | [word, name] => if word = "class" then .ok (nodeClass name) else .error (.malformedKind [word, name])
  | [word] =>
      if word = "pattern" then .ok span
      else if word = "token" then .ok token
      else .error (.malformedKind [word])
  | words => .error (.malformedKind words)

theorem KindRecord.ofWords_words (k : KindRecord) :
  ofWords k.words = .ok k
  := by
  cases k <;> rfl

/-! ### Storing -/

namespace CaptureKind

/-- The stored kind of a capture, with the class by its name. -/
def toRecord (classes : ClassTable) : CaptureKind → Except TableError KindRecord
  | node c =>
      match classes.get? c with
      | some n => .ok (.nodeClass n.name)
      | none => .error (.unknownClass c.display)
  | token => .ok .token
  | span => .ok .span

end CaptureKind

namespace Reduction

/-- The stored form of a reduction. -/
def toRecord (classes : ClassTable) (r : Reduction) : Except TableError ReductionRecord :=
  match r.capture with
  | none => .ok ⟨r.popCount, r.into, none, none, none⟩
  | some c =>
      match c.kind.toRecord classes with
      | .ok kind => .ok ⟨r.popCount, r.into, some c.prop, some c.isArray, some kind⟩
      | .error e => .error e

end Reduction

namespace Table

/-- The stored form of a table. -/
def toRecord (classes : ClassTable) (t : Table) : Except TableError TableRecord :=
  match t.reductions.mapExcept (Reduction.toRecord classes) with
  | .error e => .error e
  | .ok reductions =>
      .ok ⟨t.states.toList.map (fun s => ⟨s.accepting, s.actions.toList.map (fun e => ⟨e.1, e.2⟩)⟩),
        reductions⟩

end Table

/-! ### Loading -/

namespace KindRecord

/-- The kind of a stored capture, with the class found by its name. -/
def load (classes : ClassTable) : KindRecord → Except TableError CaptureKind
  | nodeClass name =>
      match classes.byName? name with
      | some c => .ok (.node c.id)
      | none => .error (.unknownClass name)
  | span => .ok .span
  | token => .ok .token

end KindRecord

namespace ReductionRecord

/-- The reduction of a stored one. -/
def load (classes : ClassTable) (r : ReductionRecord) : Except TableError Reduction :=
  match r.prop, r.kind with
  | some prop, some kind =>
      match kind.load classes with
      | .ok kind => .ok ⟨r.popCount, r.into, some ⟨r.isArray.getD false, prop, kind⟩⟩
      | .error e => .error e
  | _, _ => .ok ⟨r.popCount, r.into, none⟩

end ReductionRecord

namespace TableRecord

/-- Checks that an action of a state leads somewhere. -/
def checkAction (r : TableRecord) (state : Nat) : Action → Except TableError Unit
  | .shift target =>
      if target < r.states.length then .ok () else .error (.missingState state target)
  | .reduce rule =>
      if r.reductions.contains rule then .ok () else .error (.missingReduction state rule)

/-- The actions of a state with its transitions stored one after the other. -/
def loadTransitions (r : TableRecord) (state : Nat) (transitions : List Transition) :
    Except TableError Actions :=
  transitions.foldlM (fun (actions : Actions) t => do
    r.checkAction state t.action
    return actions.insert t.under t.action) ∅

/-- The states of a list, numbered from an index on. -/
def loadStates (r : TableRecord) : Nat → List StateRecord → Except TableError (List TableState)
  | _, [] => .ok []
  | index, s :: states => do
      let actions ← r.loadTransitions index s.transitions
      let rest ← loadStates r (index + 1) states
      return ⟨s.accepting, actions⟩ :: rest

/-- The table of a stored one. -/
def load (classes : ClassTable) (r : TableRecord) : Except TableError Table :=
  if r.states.isEmpty then .error .empty
  else do
    let states ← r.loadStates 0 r.states
    let reductions ← r.reductions.mapExcept (ReductionRecord.load classes)
    return ⟨states.toArray, reductions⟩

end TableRecord

end CaptureLR

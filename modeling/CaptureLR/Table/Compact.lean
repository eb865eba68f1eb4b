import CaptureLR.Table.Record

/-!
# Compact stored tables

The compact form of a stored table keeps flags as small numbers, drops incomplete captures and
writes the kind of a capture with one word, or with a word and the name of a class. A flag is
set unless it is zero.
-/

namespace CaptureLR

/-- A transition in compact form; a flag tells a shift from a reduction. -/
structure CompactTransition where
  under : Column
  shifts : UInt8
  /-- The state to go on to, or the rule to reduce by. -/
  index : Nat
deriving DecidableEq, Inhabited

/-- A state in compact form. -/
structure CompactState where
  accepting : UInt8
  transitions : List CompactTransition
deriving DecidableEq, Inhabited

/-- A capture in compact form. -/
structure CompactCapture where
  prop : String
  isArray : UInt8
  /-- The word for the kind of capture. -/
  word : String
  /-- The name of the class, if there is one. -/
  className : Option String
deriving DecidableEq, Inhabited

/-- A reduction in compact form. -/
structure CompactReduction where
  popCount : Nat
  into : Nonterminal
  capture : Option CompactCapture
deriving DecidableEq, Inhabited

/-- A stored table in compact form. -/
structure CompactTable where
  states : List CompactState
  reductions : NumberedMap CompactReduction
deriving DecidableEq, Inhabited

/-- The flag for a truth value. -/
def flagOf (b : Bool) : UInt8 := if b then 1 else 0

/-! ### Compacting -/

/-- A transition with a flag in place of the kind of its action. -/
def Transition.compact (t : Transition) : CompactTransition :=
  match t.action with
  | .shift target => ⟨t.under, flagOf true, target⟩
  | .reduce rule => ⟨t.under, flagOf false, rule⟩

/-- The capture of a stored reduction, if it is complete. -/
def ReductionRecord.compactCapture (r : ReductionRecord) : Option CompactCapture :=
  match r.prop, r.kind with
  | some prop, some (.nodeClass name) =>
      some ⟨prop, flagOf (r.isArray.getD false), "class", some name⟩
  | some prop, some .span => some ⟨prop, flagOf (r.isArray.getD false), "pattern", none⟩
  | some prop, some .token => some ⟨prop, flagOf (r.isArray.getD false), "token", none⟩
  | _, _ => none

/-- The compact form of a stored table. -/
def TableRecord.compact (r : TableRecord) : CompactTable where
  states := r.states.map (fun s => ⟨flagOf s.accepting, s.transitions.map Transition.compact⟩)
  reductions := r.reductions.map (fun r => ⟨r.popCount, r.into, r.compactCapture⟩)

/-! ### Expanding -/

/-- The transition of a compact one. -/
def CompactTransition.expand (t : CompactTransition) : Transition :=
  ⟨t.under, if t.shifts = 0 then .reduce t.index else .shift t.index⟩

/-- The stored reduction of a compact one, if the words for its kind are right. -/
def CompactReduction.expand (r : CompactReduction) : Except TableError ReductionRecord :=
  match r.capture with
  | none => .ok ⟨r.popCount, r.into, none, none, none⟩
  | some c =>
      match KindRecord.ofWords (c.word :: c.className.toList) with
      | .ok kind => .ok ⟨r.popCount, r.into, some c.prop, some (c.isArray ≠ 0), some kind⟩
      | .error e => .error e

/-- The stored table of a compact one. -/
def CompactTable.expand (t : CompactTable) : Except TableError TableRecord :=
  match t.reductions.mapExcept CompactReduction.expand with
  | .error e => .error e
  | .ok reductions =>
      .ok ⟨t.states.map (fun s => ⟨s.accepting ≠ 0, s.transitions.map CompactTransition.expand⟩),
        reductions⟩

end CaptureLR

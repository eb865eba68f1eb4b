import CaptureLR.Json.Reader
import CaptureLR.Json.Text
import CaptureLR.Table.Compact

/-!
# Tables as JSON texts

A stored table has a verbose text, an object with a field for everything, and a compact one,
made of arrays. Both begin with the states and list the reductions under the numbers of their
rules. Numbers are indices below `2 ^ 64`, nonterminals below `2 ^ 32` and flags below `2 ^ 8`.
-/

namespace CaptureLR

/-- Indices and counts are below this. -/
def indexBound : Nat := UInt64.size

/-- Nonterminals are below this. -/
def nonterminalBound : Nat := UInt32.size

/-- A column is written as a string, a number or null. -/
def Column.toJson : Column → Json
  | terminal t => .ofString t
  | nonterminal n => .ofNat n.index
  | endOfInput => .null

/-- The column a value is. -/
def Column.ofJson? : Json → Option Column
  | .null => some .endOfInput
  | .string body => terminal <$> (Json.string body).string?
  | .number numeral => (fun n => nonterminal ⟨n⟩) <$> Json.decodeNat nonterminalBound numeral
  | _ => none

/-- An object with the given fields. -/
def Json.ofFields (fields : List (String × Json)) : Json :=
  .object (fields.map (fun f => (f.1.toList, f.2)))

/-- An object with numbers for keys. -/
def Json.ofNumbered {α : Type} (write : α → Json) (m : NumberedMap α) : Json :=
  .object (m.toList.map (fun e => (Nat.toDigits 10 e.1, write e.2)))

/-- The map an object with numbers for keys is; of a repeated key the last value counts. -/
def Json.toNumbered? {α : Type} (read : Json → Option α) (j : Json) : Option (NumberedMap α) := do
  let entries ← j.numbered? indexBound
  let entries ← entries.mapM (fun e => (fun x => (e.1, x)) <$> read e.2)
  return .ofList entries

/-- The nonterminal a value is. -/
def Nonterminal.ofJson? (j : Json) : Option Nonterminal := (⟨·⟩) <$> j.nat? nonterminalBound

/-! ### Verbose texts -/

/-- An action: whether a token or nonterminal is read, and the state or rule. -/
def Action.toJson : Action → Json
  | shift target => .ofFields [("read", .bool true), ("index", .ofNat target)]
  | reduce rule => .ofFields [("read", .bool false), ("index", .ofNat rule)]

/-- The action a value is. -/
def Action.ofJson? (j : Json) : Option Action := do
  match ← j.fields? ["read", "index"] 2 with
  | [some read, some index] =>
      let read ← read.bool?
      let index ← index.nat? indexBound
      return if read then shift index else reduce index
  | _ => none

def Transition.toJson (t : Transition) : Json :=
  .ofFields [("under", t.under.toJson), ("action", t.action.toJson)]

/-- The transition a value is. -/
def Transition.ofJson? (j : Json) : Option Transition := do
  match ← j.fields? ["under", "action"] 2 with
  | [some under, some action] =>
      let under ← Column.ofJson? under
      let action ← Action.ofJson? action
      return ⟨under, action⟩
  | _ => none

def StateRecord.toJson (s : StateRecord) : Json :=
  .ofFields [("isAccepting", .bool s.accepting),
    ("transitions", .array (s.transitions.map Transition.toJson))]

/-- The state a value is. -/
def StateRecord.ofJson? (j : Json) : Option StateRecord := do
  match ← j.fields? ["isAccepting", "transitions"] 2 with
  | [some accepting, some transitions] =>
      let accepting ← accepting.bool?
      let transitions ← (← transitions.array?).mapM Transition.ofJson?
      return ⟨accepting, transitions⟩
  | _ => none

def KindRecord.toJson (k : KindRecord) : Json := .array (k.words.map Json.ofString)

/-- The kind of capture a value is. -/
def KindRecord.ofJson? (j : Json) : Option KindRecord := do
  let words ← (← j.array?).mapM Json.string?
  (ofWords words).toOption

/-- A reduction; whether the capture is an array and its kind are left out if unknown. -/
def ReductionRecord.toJson (r : ReductionRecord) : Json :=
  .ofFields ([("popCount", .ofNat r.popCount), ("reduceInto", .ofNat r.into.index),
      ("prop", (r.prop.map Json.ofString).getD .null)]
    ++ (r.isArray.map (fun b => ("isArrayMatch", Json.bool b))).toList
    ++ (r.kind.map (fun k => ("type", k.toJson))).toList)

/-- The reduction a value is. -/
def ReductionRecord.ofJson? (j : Json) : Option ReductionRecord := do
  match ← j.fields? ["popCount", "reduceInto", "prop", "isArrayMatch", "type"] 3 with
  | [some popCount, some into, prop, isArray, kind] =>
      let popCount ← popCount.nat? indexBound
      let into ← Nonterminal.ofJson? into
      let prop ← Json.optional? Json.string? prop
      let isArray ← Json.optional? Json.bool? isArray
      let kind ← Json.optional? KindRecord.ofJson? kind
      return ⟨popCount, into, prop, isArray, kind⟩
  | _ => none

def TableRecord.toJson (t : TableRecord) : Json :=
  .ofFields [("states", .array (t.states.map StateRecord.toJson)),
    ("reduceInfos", .ofNumbered ReductionRecord.toJson t.reductions)]

/-- The table a value is. -/
def TableRecord.ofJson? (j : Json) : Option TableRecord := do
  match ← j.fields? ["states", "reduceInfos"] 2 with
  | [some states, some reductions] =>
      let states ← (← states.array?).mapM StateRecord.ofJson?
      let reductions ← reductions.toNumbered? ReductionRecord.ofJson?
      return ⟨states, reductions⟩
  | _ => none

/-- The verbose text of a table. -/
def TableRecord.text (t : TableRecord) : String := String.ofList t.toJson.print

/-- The table of a verbose text. -/
def TableRecord.ofText (text : String) : Except TableError TableRecord :=
  match (Json.parse text).bind TableRecord.ofJson? with
  | some t => .ok t
  | none => .error .json

/-! ### Compact texts -/

/-- A flag is written as a number. -/
def flagToJson (f : UInt8) : Json := .ofNat f.toNat

/-- The flag a value is. -/
def flagOfJson? (j : Json) : Option UInt8 := UInt8.ofNat <$> j.nat? UInt8.size

def CompactTransition.toJson (t : CompactTransition) : Json :=
  .array [t.under.toJson, flagToJson t.shifts, .ofNat t.index]

/-- The transition a value is. -/
def CompactTransition.ofJson? (j : Json) : Option CompactTransition := do
  match ← j.array? with
  | [under, shifts, index] =>
      let under ← Column.ofJson? under
      let shifts ← flagOfJson? shifts
      let index ← index.nat? indexBound
      return ⟨under, shifts, index⟩
  | _ => none

def CompactState.toJson (s : CompactState) : Json :=
  .array [flagToJson s.accepting, .array (s.transitions.map CompactTransition.toJson)]

/-- The state a value is. -/
def CompactState.ofJson? (j : Json) : Option CompactState := do
  match ← j.array? with
  | [accepting, transitions] =>
      let accepting ← flagOfJson? accepting
      let transitions ← (← transitions.array?).mapM CompactTransition.ofJson?
      return ⟨accepting, transitions⟩
  | _ => none

def CompactCapture.toJsonItems (c : CompactCapture) : List Json :=
  [.ofString c.prop, flagToJson c.isArray, .ofString c.word]
    ++ (c.className.map Json.ofString).toList

def CompactReduction.toJson (r : CompactReduction) : Json :=
  .array ([.ofNat r.popCount, .ofNat r.into.index]
    ++ (r.capture.map CompactCapture.toJsonItems).getD [])

/-- The capture that some items are; no items are no capture. -/
def CompactCapture.ofJsonItems? : List Json → Option (Option CompactCapture)
  | [] => some none
  | [prop, isArray, word] => do
      let prop ← prop.string?
      let isArray ← flagOfJson? isArray
      let word ← word.string?
      return some ⟨prop, isArray, word, none⟩
  | [prop, isArray, word, className] => do
      let prop ← prop.string?
      let isArray ← flagOfJson? isArray
      let word ← word.string?
      let className ← className.string?
      return some ⟨prop, isArray, word, some className⟩
  | _ => none

/-- The reduction a value is. -/
def CompactReduction.ofJson? (j : Json) : Option CompactReduction := do
  match ← j.array? with
  | popCount :: into :: items =>
      let popCount ← popCount.nat? indexBound
      let into ← Nonterminal.ofJson? into
      let capture ← CompactCapture.ofJsonItems? items
      return ⟨popCount, into, capture⟩
  | _ => none

def CompactTable.toJson (t : CompactTable) : Json :=
  .ofFields [("s", .array (t.states.map CompactState.toJson)),
    ("r", .ofNumbered CompactReduction.toJson t.reductions)]

/-- The table a value is. -/
def CompactTable.ofJson? (j : Json) : Option CompactTable := do
  match ← j.fields? ["s", "r"] 2 with
  | [some states, some reductions] =>
      let states ← (← states.array?).mapM CompactState.ofJson?
      let reductions ← reductions.toNumbered? CompactReduction.ofJson?
      return ⟨states, reductions⟩
  | _ => none

/-- The compact text of a table. -/
def CompactTable.text (t : CompactTable) : String := String.ofList t.toJson.print

/-- The table of a compact text. -/
def CompactTable.ofText (text : String) : Except TableError CompactTable :=
  match (Json.parse text).bind CompactTable.ofJson? with
  | some t => .ok t
  | none => .error .json

end CaptureLR

import CaptureLR.Proofs.Json.Printing
import CaptureLR.Proofs.Ordered.Entries
import CaptureLR.Table.Text

/-!
# Texts of tables read back

A stored table, verbose or compact, is the table its text is read as, if its numbers are machine
integers. This is shown part by part: what is written for a part is a value that reads back, and the
value means the part.
-/

namespace CaptureLR

/-! ### Writing and reading -/

/-- What is written for something reads back, and it means what it was written for. -/
structure Encodes {α : Type} (write : α → Json) (read : Json → Option α) (x : α) : Prop where
  isWritten : (write x).IsWritten
  read : read (write x) = some x

/-- A list is mapped without failure if each of its members is. -/
theorem mapM_eq_some {α β : Type} {f : α → Option β} {g : α → β} {xs : List α}
    (h : ∀ x ∈ xs, f x = some (g x)) :
  xs.mapM f = some (xs.map g)
  := by
  induction xs with
  | nil => rfl
  | cons x xs ih =>
      rw [List.forall_mem_cons] at h
      rw [List.mapM_cons, h.1, ih h.2]
      rfl

namespace Json

theorem isWritten_array {α : Type} {write : α → Json} {xs : List α}
    (h : ∀ x ∈ xs, (write x).IsWritten) :
  (array (xs.map write)).IsWritten
  := by
  apply IsWritten.array
  intro j hj
  obtain ⟨x, hx, rfl⟩ := List.mem_map.mp hj
  apply h x hx

/-- The items of a list are read one by one. -/
theorem mapM_read {α : Type} {write : α → Json} {read : Json → Option α} {xs : List α}
    (h : ∀ x ∈ xs, Encodes write read x) :
  (xs.map write).mapM read = some xs
  := by
  have hread : xs.mapM (read ∘ write) = some (xs.map id) :=
    mapM_eq_some (fun x hx => (h x hx).read)
  rw [List.mapM_map, hread, List.map_id]

/-! ### Objects -/

/-- No character of a text is written in another way than as it is. -/
def IsPlain (cs : List Char) : Prop := cs.flatMap escapeChar = cs

instance (cs : List Char) : Decidable (IsPlain cs) := inferInstanceAs (Decidable (_ = _))

theorem IsPlain.isBody {cs : List Char} (h : IsPlain cs) :
  IsBody cs
  := ⟨cs, h.symm⟩

theorem IsPlain.decodeBody {cs : List Char} (h : IsPlain cs) :
  decodeBody cs = some cs
  := by
  rw [← h, decodeBody_flatMap, h]

/-- The digits of a number are plain. -/
theorem isPlain_toDigits (n : Nat) :
  IsPlain (Nat.toDigits 10 n)
  := by
  have hplain : ∀ c ∈ Nat.toDigits 10 n, escapeChar c = [c] := by
    intro c hc
    have hdigit := isDigit_toDigits hc
    rcases escapeChar_cases c with ⟨e, -, hshort, -, -⟩ | ⟨-, hlt⟩ | ⟨heq, -⟩
    · unfold shortEscape? at hshort
      split at hshort <;> cases hshort <;> cases hdigit
    · rw [Char.isDigit, Bool.and_eq_true, decide_eq_true_eq, ge_iff_le, UInt32.le_iff_toNat_le]
        at hdigit
      exact absurd hdigit.1 (Nat.not_le_of_lt (Nat.lt_of_lt_of_le hlt (by decide)))
    · apply heq
  rw [IsPlain, List.flatMap_congr hplain, List.flatMap_singleton']

/-- The names can be told apart and are written as they are. -/
structure AreNames (names : List String) : Prop where
  nodup : names.Nodup
  plain : ∀ name ∈ names, IsPlain name.toList

instance (names : List String) : Decidable (AreNames names) :=
  decidable_of_iff (names.Nodup ∧ ∀ name ∈ names, IsPlain name.toList)
    ⟨fun h => ⟨h.1, h.2⟩, fun h => ⟨h.nodup, h.plain⟩⟩

/-- The field of a name is the only one with this name. -/
theorem filter_eq_lookup {fields : List (String × Json)} (h : (fields.map Prod.fst).Nodup)
    (name : String) :
  fields.filter (fun f => decide (f.1 = name))
    = ((fields.lookup name).map (fun j => (name, j))).toList
  := by
  induction fields with
  | nil => rfl
  | cons f fields ih =>
      obtain ⟨key, j⟩ := f
      rw [List.map_cons, List.nodup_cons] at h
      rw [List.filter_cons, List.lookup_cons, ih h.2]
      by_cases heq : key = name
      · subst heq
        have hnone : fields.lookup key = none := by
          rw [List.lookup_eq_none_iff]
          intro f hf
          rw [bne_iff_ne]
          intro hkey
          apply h.1
          rw [hkey]
          apply List.mem_map_of_mem hf
        simp [hnone]
      · have hne : (name == key) = false := beq_false_of_ne (Ne.symm heq)
        simp [heq, hne]

section Fields

variable {keys : List String} (hkeys : AreNames keys) {fields : List (String × Json)}
  (hfields : fields.map Prod.fst = keys)

include hkeys hfields

theorem isWritten_ofFields (h : ∀ j ∈ fields.map Prod.snd, j.IsWritten) :
  (ofFields fields).IsWritten
  := by
  subst hfields
  apply IsWritten.object
  · intro m hm
    obtain ⟨f, hf, rfl⟩ := List.mem_map.mp hm
    apply (hkeys.plain f.1 (List.mem_map_of_mem hf)).isBody
  · intro m hm
    obtain ⟨f, hf, rfl⟩ := List.mem_map.mp hm
    apply h f.2 (List.mem_map_of_mem hf)

/-- The fields of an object are found by their names. -/
theorem fields?_ofFields (names : List String) (least : Nat) :
  (ofFields fields).fields? names least = some (names.map (fun name => fields.lookup name))
  := by
  subst hfields
  have hdecoded : (fields.map (fun f => (f.1.toList, f.2))).mapM (fun m => decodeBody m.1)
      = some (fields.map (fun f => f.1.toList)) := by
    rw [List.mapM_map]
    apply mapM_eq_some
    intro f hf
    apply (hkeys.plain f.1 (List.mem_map_of_mem hf)).decodeBody
  have hentries : (fields.map (fun f => f.1.toList)).zip
      ((fields.map (fun f => (f.1.toList, f.2))).map Prod.snd)
        = fields.map (fun f => (f.1.toList, f.2)) := by
    rw [List.map_map, List.zip_map']
    rfl
  simp only [ofFields, fields?, objectFields, hdecoded, Option.bind_eq_bind, Option.bind_some, hentries]
  apply mapM_eq_some
  intro name _
  have hname : (fun e : List Char × Json => decide (e.1 = name.toList))
      ∘ (fun f : String × Json => (f.1.toList, f.2)) = fun f => decide (f.1 = name) := by
    funext f
    simp only [Function.comp_apply, String.toList_inj]
  rw [List.filter_map, hname, filter_eq_lookup hkeys.nodup]
  cases fields.lookup name <;> rfl

end Fields

end Json

/-! ### Verbose texts -/

/-- The nonterminal of a column, if it is one, is a machine integer. -/
def Column.IsRepresentable : Column → Prop
  | nonterminal n => n.index < nonterminalBound
  | _ => True

instance : ∀ c : Column, Decidable c.IsRepresentable
  | .terminal _ => inferInstanceAs (Decidable True)
  | .nonterminal n => inferInstanceAs (Decidable (n.index < nonterminalBound))
  | .endOfInput => inferInstanceAs (Decidable True)

/-- The number of a state or rule is a machine integer. -/
def Action.IsRepresentable : Action → Prop
  | shift target => target < indexBound
  | reduce rule => rule < indexBound

instance : ∀ a : Action, Decidable a.IsRepresentable
  | .shift target => inferInstanceAs (Decidable (target < indexBound))
  | .reduce rule => inferInstanceAs (Decidable (rule < indexBound))

theorem Column.encodes {c : Column} (h : c.IsRepresentable) :
  Encodes toJson ofJson? c
  := by
  cases c with
  | terminal t =>
      refine ⟨.string ⟨t.toList, rfl⟩, ?_⟩
      have hread := Json.string?_ofString t
      simp only [Json.ofString] at hread
      simp only [toJson, Json.ofString, ofJson?, hread]
      rfl
  | nonterminal n =>
      refine ⟨.number n.index, ?_⟩
      simp only [toJson, Json.ofNat, ofJson?, Json.decodeNat_toDigits h]
      rfl
  | endOfInput => exact ⟨.null, rfl⟩

/-- The flag and the number of an action are read from its fields. -/
theorem Action.fields?_toJson (read : Bool) (index : Nat) :
  (Json.ofFields [("read", .bool read), ("index", .ofNat index)]).fields? ["read", "index"] 2
    = some [some (.bool read), some (.ofNat index)]
  := by
  have hkeys : Json.AreNames ["read", "index"] := by decide
  apply Json.fields?_ofFields hkeys rfl

theorem Action.encodes {a : Action} (h : a.IsRepresentable) :
  Encodes toJson ofJson? a
  := by
  have hkeys : Json.AreNames ["read", "index"] := by decide
  cases a with
  | shift target =>
      constructor
      · apply Json.isWritten_ofFields hkeys rfl
        simp [Json.IsWritten.bool, Json.IsWritten.number]
      · simp only [toJson, ofJson?, fields?_toJson, Option.bind_eq_bind, Option.bind_some, Json.bool?,
          Json.nat?_ofNat h]
        rfl
  | reduce rule =>
      constructor
      · apply Json.isWritten_ofFields hkeys rfl
        simp [Json.IsWritten.bool, Json.IsWritten.number]
      · simp only [toJson, ofJson?, fields?_toJson, Option.bind_eq_bind, Option.bind_some, Json.bool?,
          Json.nat?_ofNat h]
        rfl

/-- The numbers of a transition are machine integers. -/
structure Transition.IsRepresentable (t : Transition) : Prop where
  under : t.under.IsRepresentable
  action : t.action.IsRepresentable

theorem Transition.encodes {t : Transition} (h : t.IsRepresentable) :
  Encodes toJson ofJson? t
  := by
  have hkeys : Json.AreNames ["under", "action"] := by decide
  have hunder := Column.encodes h.under
  have haction := Action.encodes h.action
  constructor
  · apply Json.isWritten_ofFields hkeys rfl
    simp [hunder.isWritten, haction.isWritten]
  · have hfields : t.toJson.fields? ["under", "action"] 2
        = some [some t.under.toJson, some t.action.toJson] :=
      Json.fields?_ofFields hkeys rfl _ _
    simp only [ofJson?, hfields, Option.bind_eq_bind, Option.bind_some, hunder.read, haction.read]
    rfl

theorem StateRecord.encodes {s : StateRecord} (h : ∀ t ∈ s.transitions, t.IsRepresentable) :
  Encodes toJson ofJson? s
  := by
  have hkeys : Json.AreNames ["isAccepting", "transitions"] := by decide
  have htransitions := fun t ht => Transition.encodes (h t ht)
  constructor
  · apply Json.isWritten_ofFields hkeys rfl
    simp [Json.IsWritten.bool, Json.isWritten_array fun t ht => (htransitions t ht).isWritten]
  · have hfields : s.toJson.fields? ["isAccepting", "transitions"] 2
        = some [some (.bool s.accepting), some (.array (s.transitions.map Transition.toJson))] :=
      Json.fields?_ofFields hkeys rfl _ _
    simp only [ofJson?, hfields, Option.bind_eq_bind, Option.bind_some, Json.bool?, Json.array?,
      Json.mapM_read htransitions]
    rfl

theorem KindRecord.encodes (k : KindRecord) :
  Encodes toJson ofJson? k
  := by
  have hwords : ∀ w ∈ k.words, Encodes Json.ofString Json.string? w :=
    fun w _ => ⟨.string ⟨w.toList, rfl⟩, Json.string?_ofString w⟩
  constructor
  · apply Json.isWritten_array fun w hw => (hwords w hw).isWritten
  · simp only [ofJson?, toJson, Json.array?, Option.bind_eq_bind, Option.bind_some,
      Json.mapM_read hwords, ofWords_words]
    rfl

/-- The numbers of a reduction are machine integers. -/
structure ReductionRecord.IsRepresentable (r : ReductionRecord) : Prop where
  popCount : r.popCount < indexBound
  into : r.into.index < nonterminalBound

theorem ReductionRecord.encodes {r : ReductionRecord} (h : r.IsRepresentable) :
  Encodes toJson ofJson? r
  := by
  obtain ⟨popCount, into, prop, isArray, kind⟩ := r
  obtain ⟨hpop, hinto⟩ := h
  have hkeys : ∀ a k : Bool, Json.AreNames (["popCount", "reduceInto", "prop"]
      ++ (if a then ["isArrayMatch"] else []) ++ (if k then ["type"] else [])) := by decide
  have hmap : ([("popCount", Json.ofNat popCount), ("reduceInto", .ofNat into.index),
        ("prop", (prop.map Json.ofString).getD .null)]
      ++ (isArray.map (fun b => ("isArrayMatch", Json.bool b))).toList
      ++ (kind.map (fun k => ("type", k.toJson))).toList).map Prod.fst
        = ["popCount", "reduceInto", "prop"] ++ (if isArray.isSome then ["isArrayMatch"] else [])
      ++ (if kind.isSome then ["type"] else []) := by
    cases isArray <;> cases kind <;> rfl
  constructor
  · apply Json.isWritten_ofFields (hkeys _ _) hmap
    intro j hj
    rw [List.map_append, List.map_append, List.mem_append, List.mem_append] at hj
    rcases hj with (hj | hj) | hj
    · simp only [List.map_cons, List.map_nil, List.mem_cons, List.not_mem_nil, or_false] at hj
      rcases hj with rfl | rfl | rfl
      · exact .number popCount
      · exact .number into.index
      · cases prop with
        | none => exact .null
        | some prop => exact .string ⟨prop.toList, rfl⟩
    · cases isArray with
      | none => cases hj
      | some b =>
          obtain rfl := List.mem_singleton.mp hj
          exact .bool b
    · cases kind with
      | none => cases hj
      | some kind =>
          obtain rfl := List.mem_singleton.mp hj
          apply kind.encodes.isWritten
  · have hfields : (toJson ⟨popCount, into, prop, isArray, kind⟩).fields?
        ["popCount", "reduceInto", "prop", "isArrayMatch", "type"] 3
          = some [some (.ofNat popCount), some (.ofNat into.index),
            some ((prop.map Json.ofString).getD .null), isArray.map Json.bool,
            kind.map KindRecord.toJson] := by
      rw [toJson, Json.fields?_ofFields (hkeys _ _) hmap]
      cases isArray <;> cases kind <;> rfl
    have hprop : Json.optional? Json.string? (some ((prop.map Json.ofString).getD .null)) = some prop := by
      cases prop with
      | none => rfl
      | some prop => exact congrArg (some <$> ·) (Json.string?_ofString prop)
    have harray : Json.optional? Json.bool? (isArray.map Json.bool) = some isArray := by
      cases isArray <;> rfl
    have hkind : Json.optional? KindRecord.ofJson? (kind.map KindRecord.toJson) = some kind := by
      cases kind with
      | none => rfl
      | some kind => exact congrArg (some <$> ·) kind.encodes.read
    simp only [ofJson?, hfields, Option.bind_eq_bind, Option.bind_some, Json.nat?_ofNat hpop,
      Nonterminal.ofJson?, Json.nat?_ofNat hinto, hprop, harray, hkind]
    rfl

namespace Json

/-- A map from numbers is read entry by entry. -/
theorem encodes_numbered {α : Type} {write : α → Json} {read : Json → Option α} {m : NumberedMap α}
    (h : ∀ e ∈ m.toList, e.1 < indexBound ∧ Encodes write read e.2) :
  Encodes (ofNumbered write) (toNumbered? read) m
  := by
  constructor
  · apply IsWritten.object
    · intro m' hm
      obtain ⟨e, he, rfl⟩ := List.mem_map.mp hm
      apply (isPlain_toDigits e.1).isBody
    · intro m' hm
      obtain ⟨e, he, rfl⟩ := List.mem_map.mp hm
      apply (h e he).2.isWritten
  · have hkeys : (ofNumbered write m).numbered? indexBound
        = some (m.toList.map (fun e => (e.1, write e.2))) := by
      rw [ofNumbered, numbered?, List.mapM_map]
      apply mapM_eq_some
      intro e he
      simp only [Function.comp_apply, decodeNat_toDigits (h e he).1]
      rfl
    have hvalues : (m.toList.map (fun e => (e.1, write e.2))).mapM
        (fun e => (fun x => (e.1, x)) <$> read e.2) = some m.toList := by
      have hread : m.toList.mapM ((fun e => (fun x => (e.1, x)) <$> read e.2)
          ∘ fun e => (e.1, write e.2)) = some (m.toList.map id) := by
        apply mapM_eq_some
        intro e he
        simp only [Function.comp_apply, (h e he).2.read]
        rfl
      rw [List.mapM_map, hread, List.map_id]
    simp only [toNumbered?, hkeys, Option.bind_eq_bind, Option.bind_some, hvalues,
      NumberedMap.ofList_toList]
    rfl

end Json

/-- The numbers of a stored table are machine integers. -/
structure TableRecord.IsRepresentable (r : TableRecord) : Prop where
  states : ∀ s ∈ r.states, ∀ t ∈ s.transitions, t.IsRepresentable
  reductions : ∀ e ∈ r.reductions.toList, e.1 < indexBound ∧ e.2.IsRepresentable

theorem TableRecord.encodes {r : TableRecord} (h : r.IsRepresentable) :
  Encodes toJson ofJson? r
  := by
  have hkeys : Json.AreNames ["states", "reduceInfos"] := by decide
  have hstates := fun s hs => StateRecord.encodes (h.states s hs)
  have hreductions := Json.encodes_numbered fun e he =>
    ⟨(h.reductions e he).1, ReductionRecord.encodes (h.reductions e he).2⟩
  constructor
  · apply Json.isWritten_ofFields hkeys rfl
    simp [Json.isWritten_array fun s hs => (hstates s hs).isWritten, hreductions.isWritten]
  · have hfields : r.toJson.fields? ["states", "reduceInfos"] 2
        = some [some (.array (r.states.map StateRecord.toJson)),
          some (.ofNumbered ReductionRecord.toJson r.reductions)] :=
      Json.fields?_ofFields hkeys rfl _ _
    simp only [ofJson?, hfields, Option.bind_eq_bind, Option.bind_some, Json.array?,
      Json.mapM_read hstates, hreductions.read]
    rfl

/-- The text of a stored table is read as the table. -/
theorem TableRecord.ofText_text {r : TableRecord} (h : r.IsRepresentable) :
  ofText r.text = .ok r
  := by
  have hencodes := encodes h
  rw [ofText, text, hencodes.isWritten.parse_print, Option.bind_some, hencodes.read]

/-! ### Compact texts -/

theorem encodes_flag (f : UInt8) :
  Encodes flagToJson flagOfJson? f
  := by
  refine ⟨.number f.toNat, ?_⟩
  rw [flagOfJson?, flagToJson, Json.nat?_ofNat f.toNat_lt]
  exact congrArg some UInt8.ofNat_toNat

/-- The numbers of a compact transition are machine integers. -/
structure CompactTransition.IsRepresentable (t : CompactTransition) : Prop where
  under : t.under.IsRepresentable
  index : t.index < indexBound

theorem CompactTransition.encodes {t : CompactTransition} (h : t.IsRepresentable) :
  Encodes toJson ofJson? t
  := by
  have hunder := Column.encodes h.under
  have hshifts := encodes_flag t.shifts
  constructor
  · apply Json.IsWritten.array
    simp [hunder.isWritten, hshifts.isWritten, Json.IsWritten.number]
  · simp only [toJson, ofJson?, Json.array?, Option.bind_eq_bind, Option.bind_some, hunder.read,
      hshifts.read, Json.nat?_ofNat h.index]
    rfl

theorem CompactState.encodes {s : CompactState} (h : ∀ t ∈ s.transitions, t.IsRepresentable) :
  Encodes toJson ofJson? s
  := by
  have haccepting := encodes_flag s.accepting
  have htransitions := fun t ht => CompactTransition.encodes (h t ht)
  constructor
  · apply Json.IsWritten.array
    simp [haccepting.isWritten, Json.isWritten_array fun t ht => (htransitions t ht).isWritten]
  · simp only [toJson, ofJson?, Json.array?, Option.bind_eq_bind, Option.bind_some, haccepting.read,
      Json.mapM_read htransitions]
    rfl

/-- A capture is read from its items. -/
theorem CompactCapture.ofJsonItems?_toJsonItems (c : CompactCapture) :
  ofJsonItems? c.toJsonItems = some (some c)
  := by
  obtain ⟨prop, isArray, word, className⟩ := c
  cases className with
  | none =>
      simp only [toJsonItems, Option.map_none, Option.toList_none, List.append_nil, ofJsonItems?,
        Json.string?_ofString, (encodes_flag isArray).read, Option.bind_eq_bind, Option.bind_some]
      rfl
  | some name =>
      simp only [toJsonItems, Option.map_some, Option.toList_some, List.cons_append,
        List.nil_append, ofJsonItems?, Json.string?_ofString, (encodes_flag isArray).read,
        Option.bind_eq_bind, Option.bind_some]
      rfl

theorem CompactCapture.isWritten_toJsonItems (c : CompactCapture) {j : Json}
    (hj : j ∈ c.toJsonItems) :
  j.IsWritten
  := by
  have hstring : ∀ s, (Json.ofString s).IsWritten := fun s => .string ⟨s.toList, rfl⟩
  obtain ⟨prop, isArray, word, className⟩ := c
  rw [toJsonItems, List.mem_append] at hj
  rcases hj with hj | hj
  · simp only [List.mem_cons, List.not_mem_nil, or_false] at hj
    rcases hj with rfl | rfl | rfl
    · apply hstring
    · apply (encodes_flag isArray).isWritten
    · apply hstring
  · cases className with
    | none => cases hj
    | some name =>
        obtain rfl := List.mem_singleton.mp hj
        apply hstring

/-- The numbers of a compact reduction are machine integers. -/
structure CompactReduction.IsRepresentable (r : CompactReduction) : Prop where
  popCount : r.popCount < indexBound
  into : r.into.index < nonterminalBound

theorem CompactReduction.encodes {r : CompactReduction} (h : r.IsRepresentable) :
  Encodes toJson ofJson? r
  := by
  obtain ⟨popCount, into, capture⟩ := r
  obtain ⟨hpop, hinto⟩ := h
  constructor
  · apply Json.IsWritten.array
    intro j hj
    rw [List.mem_append] at hj
    rcases hj with hj | hj
    · simp only [List.mem_cons, List.not_mem_nil, or_false] at hj
      rcases hj with rfl | rfl
      · exact .number popCount
      · exact .number into.index
    · cases capture with
      | none => cases hj
      | some c => apply c.isWritten_toJsonItems hj
  · have hcapture : CompactCapture.ofJsonItems? ((capture.map CompactCapture.toJsonItems).getD [])
        = some capture := by
      cases capture with
      | none => rfl
      | some c => apply c.ofJsonItems?_toJsonItems
    simp only [toJson, ofJson?, Json.array?, List.cons_append, List.nil_append, Option.bind_eq_bind,
      Option.bind_some, Json.nat?_ofNat hpop, Nonterminal.ofJson?, Json.nat?_ofNat hinto, hcapture]
    rfl

/-- The numbers of a compact table are machine integers. -/
structure CompactTable.IsRepresentable (t : CompactTable) : Prop where
  states : ∀ s ∈ t.states, ∀ t ∈ s.transitions, t.IsRepresentable
  reductions : ∀ e ∈ t.reductions.toList, e.1 < indexBound ∧ e.2.IsRepresentable

theorem CompactTable.encodes {t : CompactTable} (h : t.IsRepresentable) :
  Encodes toJson ofJson? t
  := by
  have hkeys : Json.AreNames ["s", "r"] := by decide
  have hstates := fun s hs => CompactState.encodes (h.states s hs)
  have hreductions := Json.encodes_numbered fun e he =>
    ⟨(h.reductions e he).1, CompactReduction.encodes (h.reductions e he).2⟩
  constructor
  · apply Json.isWritten_ofFields hkeys rfl
    simp [Json.isWritten_array fun s hs => (hstates s hs).isWritten, hreductions.isWritten]
  · have hfields : t.toJson.fields? ["s", "r"] 2
        = some [some (.array (t.states.map CompactState.toJson)),
          some (.ofNumbered CompactReduction.toJson t.reductions)] :=
      Json.fields?_ofFields hkeys rfl _ _
    simp only [ofJson?, hfields, Option.bind_eq_bind, Option.bind_some, Json.array?,
      Json.mapM_read hstates, hreductions.read]
    rfl

/-- The text of a compact table is read as the table. -/
theorem CompactTable.ofText_text {t : CompactTable} (h : t.IsRepresentable) :
  ofText t.text = .ok t
  := by
  have hencodes := encodes h
  rw [ofText, text, hencodes.isWritten.parse_print, Option.bind_some, hencodes.read]

/-- The compact form of a stored table has no other numbers than the table. -/
theorem TableRecord.IsRepresentable.compact {r : TableRecord} (h : r.IsRepresentable) :
  r.compact.IsRepresentable
  where
  states s' hs' t' ht' := by
    obtain ⟨s, hs, rfl⟩ := List.mem_map.mp hs'
    obtain ⟨t, ht, rfl⟩ := List.mem_map.mp ht'
    obtain ⟨hunder, haction⟩ := h.states s hs t ht
    unfold Transition.compact
    split
    · next heq =>
      rw [heq] at haction
      exact ⟨hunder, haction⟩
    · next heq =>
      rw [heq] at haction
      exact ⟨hunder, haction⟩
  reductions e' he' := by
    obtain ⟨e, he, rfl⟩ := List.mem_map.mp he'
    obtain ⟨hrule, hpop, hinto⟩ := h.reductions e he
    exact ⟨hrule, hpop, hinto⟩

end CaptureLR

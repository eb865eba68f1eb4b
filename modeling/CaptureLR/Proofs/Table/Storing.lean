import CaptureLR.Proofs.Table.Compacting
import CaptureLR.Proofs.Table.Loading
import CaptureLR.Proofs.Table.Texts

/-!
# Storing tables

A checked table can be stored, and what is stored is loaded as the same table: the order of the
actions, the flags of the captures and the classes, by their names, come back. The stored table is
also what its compact form expands to; and any stored table and what its compact form expands to are
loaded with the same outcome.
-/

namespace CaptureLR

/-! ### Captures and reductions -/

section Known

variable {classes : ClassTable}

/-- A class that a kind of capture refers to is known. -/
def CaptureKind.IsKnown (classes : ClassTable) (k : CaptureKind) : Prop :=
  ∀ id, k = .node id → (classes.get? id).isSome

/-- A class that the capture of a reduction refers to is known. -/
def Reduction.IsKnown (classes : ClassTable) (r : Reduction) : Prop :=
  ∀ cap, r.capture = some cap → cap.kind.IsKnown classes

theorem CaptureKind.IsKnown.exists_record {k : CaptureKind} (hk : k.IsKnown classes) :
  ∃ record, k.toRecord classes = .ok record
  := by
  cases k with
  | node id =>
      obtain ⟨n, hn⟩ := Option.isSome_iff_exists.mp (hk id rfl)
      exact ⟨.nodeClass n.name, by rw [toRecord, hn]⟩
  | token => exact ⟨.token, rfl⟩
  | span => exact ⟨.span, rfl⟩

/-- The kind of a stored capture is loaded as it was: the name of its class leads to the class. -/
theorem CaptureKind.load_of_toRecord (hc : classes.Constructed) {k : CaptureKind}
    {record : KindRecord} (h : k.toRecord classes = .ok record) :
  record.load classes = .ok k
  := by
  cases k with
  | node id =>
      cases hn : classes.get? id with
      | none =>
          simp only [toRecord, hn] at h
          cases h
      | some n =>
          simp only [toRecord, hn] at h
          cases h
          rw [KindRecord.load, hc.byName?_name hn]
          exact congrArg (fun id => Except.ok (node id)) (hc.id_eq hn)
  | token =>
      cases h
      rfl
  | span =>
      cases h
      rfl

theorem Reduction.IsKnown.exists_record {r : Reduction} (hr : r.IsKnown classes) :
  ∃ record, r.toRecord classes = .ok record
  := by
  obtain ⟨popCount, into, capture⟩ := r
  cases capture with
  | none => exact ⟨_, rfl⟩
  | some cap =>
      obtain ⟨kind, hkind⟩ := (hr cap rfl).exists_record
      simp only [toRecord, hkind]
      exact ⟨_, rfl⟩

/-- A stored reduction is loaded as it was. -/
theorem Reduction.load_of_toRecord (hc : classes.Constructed) {r : Reduction}
    {record : ReductionRecord} (h : r.toRecord classes = .ok record) :
  record.load classes = .ok r
  := by
  obtain ⟨popCount, into, capture⟩ := r
  cases capture with
  | none =>
      cases h
      rfl
  | some cap =>
      cases hkind : cap.kind.toRecord classes with
      | error e =>
          simp only [toRecord, hkind] at h
          cases h
      | ok kind =>
          simp only [toRecord, hkind] at h
          cases h
          rw [ReductionRecord.load]
          simp only [CaptureKind.load_of_toRecord hc hkind, Option.getD_some]

/-- Reductions are stored completely. -/
theorem Reduction.isComplete_of_toRecord {r : Reduction} {record : ReductionRecord}
    (h : r.toRecord classes = .ok record) :
  record.IsComplete
  := by
  unfold toRecord at h
  split at h
  · cases h
    apply ReductionRecord.IsComplete.absent
  · split at h
    · cases h
      apply ReductionRecord.IsComplete.present
    · cases h

end Known

/-! ### Tables -/

/-- The stored form of a row. -/
def TableState.record (s : TableState) : StateRecord :=
  ⟨s.accepting, s.actions.toList.map (fun e => ⟨e.1, e.2⟩)⟩

/-- The actions of a stored row come back in their order. -/
@[simp]
theorem TableState.row_record (s : TableState) :
  s.record.row = s
  := by
  have hactions : s.record.transitions.map (fun t => (t.under, t.action)) = s.actions.toList := by
    rw [record, List.map_map]
    apply List.map_id
  rw [StateRecord.row, hactions, OrderedMap.ofList_toList]
  rfl

namespace Table

variable {classes : ClassTable} {t : Table} {record : TableRecord}

theorem toRecord_eq_ok_iff :
  t.toRecord classes = .ok record
    ↔ ∃ reductions, t.reductions.mapExcept (Reduction.toRecord classes) = .ok reductions
      ∧ record = ⟨t.states.toList.map TableState.record, reductions⟩
  := by
  unfold toRecord
  split
  · next e he =>
    rw [he]
    simp
  · next reductions hreductions =>
    have hstates : t.states.toList.map
        (fun s => (⟨s.accepting, s.actions.toList.map (fun e => ⟨e.1, e.2⟩)⟩ : StateRecord))
          = t.states.toList.map TableState.record := rfl
    rw [hreductions, hstates]
    simp [eq_comm]

/-- The captures of a checked table refer to known classes. -/
theorem IsChecked.isKnown (ht : t.IsChecked classes) {rule : Nat} {r : Reduction}
    (hr : t.reductions.get? rule = some r) :
  r.IsKnown classes
  := by
  intro cap hcap id hid
  apply ht.known rule r cap id hr hcap hid

/-- Checked tables can be stored. -/
theorem IsChecked.exists_record (ht : t.IsChecked classes) :
  ∃ record, t.toRecord classes = .ok record
  := by
  obtain ⟨reductions, hreductions⟩ := NumberedMap.exists_mapExcept
    (f := Reduction.toRecord classes) (fun _ _ hr => (ht.isKnown hr).exists_record)
  exact ⟨_, toRecord_eq_ok_iff.mpr ⟨reductions, hreductions, rfl⟩⟩

/-- A checked table that was stored is loaded as it was. -/
theorem IsChecked.load_of_toRecord (hc : classes.Constructed) (ht : t.IsChecked classes)
    (h : t.toRecord classes = .ok record) :
  record.load classes = .ok t
  := by
  obtain ⟨reductions, hreductions, rfl⟩ := toRecord_eq_ok_iff.mp h
  rw [TableRecord.load_eq_ok_iff]
  refine ⟨?_, ?_, t.reductions, ?_, ?_⟩
  · rw [Ne, List.map_eq_nil_iff, Array.toList_eq_nil_iff]
    rintro hempty
    have hpos := ht.nonempty
    rw [hempty] at hpos
    cases hpos
  · intro s hs u hu
    obtain ⟨row, hrow, rfl⟩ := List.mem_map.mp hs
    obtain ⟨⟨col, a⟩, he, rfl⟩ := List.mem_map.mp hu
    obtain ⟨i, hi⟩ := List.mem_iff_getElem?.mp hrow
    rw [Array.getElem?_toList] at hi
    have ha := OrderedMap.mem_toList_iff.mp he
    cases a with
    | shift target =>
        unfold TableRecord.Allows
        rw [List.length_map, Array.length_toList]
        apply ht.shift i row col target hi ha
    | reduce rule =>
        obtain ⟨r, hr⟩ := ht.reduce i row col rule hi ha
        obtain ⟨r', hr', -⟩ := NumberedMap.get?_mapExcept hreductions hr
        exact Option.isSome_of_mem hr'
  · apply NumberedMap.mapExcept_inverse hreductions
    intro rule r r' hr hr'
    apply Reduction.load_of_toRecord hc hr'
  · simp [List.map_map, Function.comp_def]

/-- The captures of a table are stored completely. -/
theorem completed_of_toRecord (h : t.toRecord classes = .ok record) :
  record.completed = record
  := by
  apply TableRecord.completed_eq
  intro rule e he
  obtain ⟨reductions, hreductions, rfl⟩ := toRecord_eq_ok_iff.mp h
  obtain ⟨r, -, hr⟩ := NumberedMap.exists_of_mapExcept hreductions he
  apply Reduction.isComplete_of_toRecord hr

/-- A table that was stored is what its compact form expands to. -/
theorem expand_compact_of_toRecord (h : t.toRecord classes = .ok record) :
  record.compact.expand = .ok record
  := by
  rw [TableRecord.expand_compact, completed_of_toRecord h]

/-! ### Texts -/

/-- The numbers of a table are machine integers. -/
structure IsRepresentable (t : Table) : Prop where
  states : ∀ row ∈ t.states.toList, ∀ e ∈ row.actions.toList,
    e.1.IsRepresentable ∧ e.2.IsRepresentable
  reductions : ∀ e ∈ t.reductions.toList,
    e.1 < indexBound ∧ e.2.popCount < indexBound ∧ e.2.into.index < nonterminalBound

end Table

/-- Storing a reduction keeps its numbers. -/
theorem Reduction.popCount_into_of_toRecord {classes : ClassTable} {r : Reduction}
    {record : ReductionRecord} (h : r.toRecord classes = .ok record) :
  record.popCount = r.popCount ∧ record.into = r.into
  := by
  unfold toRecord at h
  split at h
  · cases h
    exact ⟨rfl, rfl⟩
  · split at h
    · cases h
      exact ⟨rfl, rfl⟩
    · cases h

/-- Storing a table keeps its numbers. -/
theorem Table.IsRepresentable.record {classes : ClassTable} {t : Table} {record : TableRecord}
    (ht : t.IsRepresentable) (h : t.toRecord classes = .ok record) :
  record.IsRepresentable
  := by
  obtain ⟨reductions, hreductions, rfl⟩ := toRecord_eq_ok_iff.mp h
  constructor
  · intro s hs u hu
    obtain ⟨row, hrow, rfl⟩ := List.mem_map.mp hs
    obtain ⟨e, he, rfl⟩ := List.mem_map.mp hu
    obtain ⟨hunder, haction⟩ := ht.states row hrow e he
    exact ⟨hunder, haction⟩
  · intro e he
    obtain ⟨r, hr, hrecord⟩ :=
      NumberedMap.exists_of_mapExcept hreductions (NumberedMap.mem_toList_iff.mp he)
    obtain ⟨hrule, hpop, hinto⟩ := ht.reductions (e.1, r) (NumberedMap.mem_toList_iff.mpr hr)
    obtain ⟨hpop', hinto'⟩ := Reduction.popCount_into_of_toRecord hrecord
    refine ⟨hrule, hpop' ▸ hpop, hinto' ▸ hinto⟩

/-! ### Compact forms -/

/-- The compact form of any stored table, also of one that describes captures incompletely, expands
to a table that is loaded with the same outcome, whatever the classes: the same table, or the same
error. If the stored table is one that was made of a table, it expands to itself. -/
theorem TableRecord.load_expand_compact (r : TableRecord) :
  ∃ r', r.compact.expand = .ok r'
    ∧ (∀ classes : ClassTable, r'.load classes = r.load classes)
    ∧ ∀ (classes : ClassTable) (t : Table), t.toRecord classes = .ok r → r' = r
  := by
  refine ⟨r.completed, r.expand_compact, r.load_completed, ?_⟩
  intro classes t h
  apply Table.completed_of_toRecord h

end CaptureLR

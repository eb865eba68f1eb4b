import CaptureLR.Proofs.Table.Texts

/-!
# What texts of tables can hold

No text is read as a table with a number that is not a machine integer, so the tables that are
read back from their own texts, verbose or compact, are exactly those whose numbers are machine
integers. Strings, flags, and which of the optional parts of a capture are present do not matter.
-/

namespace CaptureLR

namespace Json

/-! ### Numbers and lists -/

theorem decodeNat_lt {bound n : Nat} {digits : List Char} (h : decodeNat bound digits = some n) :
  n < bound
  := by
  unfold decodeNat at h
  split at h
  · cases h
  · simp only at h
    split at h
    · next hlt =>
      obtain rfl := Option.some.inj h
      apply hlt
    · cases h

theorem nat?_lt {bound n : Nat} {j : Json} (h : j.nat? bound = some n) :
  n < bound
  := by
  unfold nat? at h
  split at h
  · apply decodeNat_lt h
  · cases h

/-- Each member of a list that is read is read from a member. -/
theorem exists_of_mapM {α β : Type} {read : α → Option β} {xs : List α} {ys : List β}
    (h : xs.mapM read = some ys) :
  ∀ y ∈ ys, ∃ x ∈ xs, read x = some y
  := by
  induction xs generalizing ys with
  | nil =>
      obtain rfl := Option.some.inj h
      simp
  | cons x xs ih =>
      rw [List.mapM_cons] at h
      obtain ⟨y, hy, h⟩ := Option.bind_eq_some_iff.mp h
      obtain ⟨zs, hzs, h⟩ := Option.bind_eq_some_iff.mp h
      obtain rfl := Option.some.inj h
      rw [List.forall_mem_cons]
      constructor
      · exact ⟨x, List.mem_cons_self, hy⟩
      · intro z hz
        obtain ⟨x', hx', hz⟩ := ih hzs z hz
        exact ⟨x', List.mem_cons_of_mem x hx', hz⟩

/-- The numbers and values of a map that is read are below the bound of indices and read. -/
theorem exists_of_toNumbered? {α : Type} {read : Json → Option α} {j : Json} {m : NumberedMap α}
    (h : j.toNumbered? read = some m) :
  ∀ e ∈ m.toList, e.1 < indexBound ∧ ∃ j, read j = some e.2
  := by
  obtain ⟨es, hes, h⟩ := Option.bind_eq_some_iff.mp h
  obtain ⟨entries, hentries, h⟩ := Option.bind_eq_some_iff.mp h
  obtain rfl := Option.some.inj h
  intro e he
  obtain ⟨⟨n, value⟩, hmem, he⟩ := exists_of_mapM hentries e (NumberedMap.mem_of_mem_ofList he)
  obtain ⟨x, hx, rfl⟩ := Option.map_eq_some_iff.mp he
  unfold numbered? at hes
  split at hes
  · obtain ⟨member, -, hmember⟩ := exists_of_mapM hes (n, value) hmem
    obtain ⟨k, hk, heq⟩ := Option.map_eq_some_iff.mp hmember
    cases heq
    exact ⟨decodeNat_lt hk, _, hx⟩
  · cases hes

end Json

/-- A column that is read is a string, a machine integer or the end of the input. -/
theorem Column.isRepresentable_of_read {j : Json} {c : Column} (h : ofJson? j = some c) :
  c.IsRepresentable
  := by
  unfold ofJson? at h
  split at h
  · obtain rfl := Option.some.inj h
    trivial
  · obtain ⟨t, -, rfl⟩ := Option.map_eq_some_iff.mp h
    trivial
  · obtain ⟨n, hn, rfl⟩ := Option.map_eq_some_iff.mp h
    apply Json.decodeNat_lt hn
  · cases h

theorem Nonterminal.lt_of_read {j : Json} {n : Nonterminal} (h : ofJson? j = some n) :
  n.index < nonterminalBound
  := by
  obtain ⟨k, hk, rfl⟩ := Option.map_eq_some_iff.mp h
  apply Json.nat?_lt hk

/-! ### Verbose texts -/

theorem Action.isRepresentable_of_read {j : Json} {a : Action} (h : ofJson? j = some a) :
  a.IsRepresentable
  := by
  obtain ⟨fields, -, h⟩ := Option.bind_eq_some_iff.mp h
  split at h
  · obtain ⟨read, -, h⟩ := Option.bind_eq_some_iff.mp h
    obtain ⟨index, hindex, h⟩ := Option.bind_eq_some_iff.mp h
    obtain rfl := Option.some.inj h
    split
    · apply Json.nat?_lt hindex
    · apply Json.nat?_lt hindex
  · cases h

theorem Transition.isRepresentable_of_read {j : Json} {t : Transition} (h : ofJson? j = some t) :
  t.IsRepresentable
  := by
  obtain ⟨fields, -, h⟩ := Option.bind_eq_some_iff.mp h
  split at h
  · obtain ⟨under, hunder, h⟩ := Option.bind_eq_some_iff.mp h
    obtain ⟨action, haction, h⟩ := Option.bind_eq_some_iff.mp h
    obtain rfl := Option.some.inj h
    exact ⟨Column.isRepresentable_of_read hunder, Action.isRepresentable_of_read haction⟩
  · cases h

theorem StateRecord.isRepresentable_of_read {j : Json} {s : StateRecord} (h : ofJson? j = some s) :
  ∀ t ∈ s.transitions, t.IsRepresentable
  := by
  obtain ⟨fields, -, h⟩ := Option.bind_eq_some_iff.mp h
  split at h
  · obtain ⟨accepting, -, h⟩ := Option.bind_eq_some_iff.mp h
    obtain ⟨items, -, h⟩ := Option.bind_eq_some_iff.mp h
    obtain ⟨transitions, htransitions, h⟩ := Option.bind_eq_some_iff.mp h
    obtain rfl := Option.some.inj h
    intro t ht
    obtain ⟨item, -, hitem⟩ := Json.exists_of_mapM htransitions t ht
    apply Transition.isRepresentable_of_read hitem
  · cases h

theorem ReductionRecord.isRepresentable_of_read {j : Json} {r : ReductionRecord}
    (h : ofJson? j = some r) :
  r.IsRepresentable
  := by
  obtain ⟨fields, -, h⟩ := Option.bind_eq_some_iff.mp h
  split at h
  · obtain ⟨popCount, hpop, h⟩ := Option.bind_eq_some_iff.mp h
    obtain ⟨into, hinto, h⟩ := Option.bind_eq_some_iff.mp h
    obtain ⟨prop, -, h⟩ := Option.bind_eq_some_iff.mp h
    obtain ⟨isArray, -, h⟩ := Option.bind_eq_some_iff.mp h
    obtain ⟨kind, -, h⟩ := Option.bind_eq_some_iff.mp h
    obtain rfl := Option.some.inj h
    exact ⟨Json.nat?_lt hpop, Nonterminal.lt_of_read hinto⟩
  · cases h

theorem TableRecord.isRepresentable_of_read {j : Json} {r : TableRecord}
    (h : ofJson? j = some r) :
  r.IsRepresentable
  := by
  obtain ⟨fields, -, h⟩ := Option.bind_eq_some_iff.mp h
  split at h
  · obtain ⟨items, -, h⟩ := Option.bind_eq_some_iff.mp h
    obtain ⟨states, hstates, h⟩ := Option.bind_eq_some_iff.mp h
    obtain ⟨reductions, hreductions, h⟩ := Option.bind_eq_some_iff.mp h
    obtain rfl := Option.some.inj h
    constructor
    · intro s hs
      obtain ⟨item, -, hitem⟩ := Json.exists_of_mapM hstates s hs
      apply StateRecord.isRepresentable_of_read hitem
    · intro e he
      obtain ⟨hrule, item, hitem⟩ := Json.exists_of_toNumbered? hreductions e he
      exact ⟨hrule, ReductionRecord.isRepresentable_of_read hitem⟩
  · cases h

/-- A text is read as a table with machine integers for numbers, if it is read as any. -/
theorem TableRecord.isRepresentable_of_ofText {text : String} {r : TableRecord}
    (h : ofText text = .ok r) :
  r.IsRepresentable
  := by
  unfold ofText at h
  split at h
  · next hread =>
    obtain rfl := Except.ok.inj h
    obtain ⟨j, -, hj⟩ := Option.bind_eq_some_iff.mp hread
    apply isRepresentable_of_read hj
  · cases h

/-! ### Compact texts -/

theorem CompactTransition.isRepresentable_of_read {j : Json} {t : CompactTransition}
    (h : ofJson? j = some t) :
  t.IsRepresentable
  := by
  obtain ⟨items, -, h⟩ := Option.bind_eq_some_iff.mp h
  split at h
  · obtain ⟨under, hunder, h⟩ := Option.bind_eq_some_iff.mp h
    obtain ⟨shifts, -, h⟩ := Option.bind_eq_some_iff.mp h
    obtain ⟨index, hindex, h⟩ := Option.bind_eq_some_iff.mp h
    obtain rfl := Option.some.inj h
    exact ⟨Column.isRepresentable_of_read hunder, Json.nat?_lt hindex⟩
  · cases h

theorem CompactState.isRepresentable_of_read {j : Json} {s : CompactState}
    (h : ofJson? j = some s) :
  ∀ t ∈ s.transitions, t.IsRepresentable
  := by
  obtain ⟨items, -, h⟩ := Option.bind_eq_some_iff.mp h
  split at h
  · obtain ⟨accepting, -, h⟩ := Option.bind_eq_some_iff.mp h
    obtain ⟨list, -, h⟩ := Option.bind_eq_some_iff.mp h
    obtain ⟨transitions, htransitions, h⟩ := Option.bind_eq_some_iff.mp h
    obtain rfl := Option.some.inj h
    intro t ht
    obtain ⟨item, -, hitem⟩ := Json.exists_of_mapM htransitions t ht
    apply CompactTransition.isRepresentable_of_read hitem
  · cases h

theorem CompactReduction.isRepresentable_of_read {j : Json} {r : CompactReduction}
    (h : ofJson? j = some r) :
  r.IsRepresentable
  := by
  obtain ⟨items, -, h⟩ := Option.bind_eq_some_iff.mp h
  split at h
  · obtain ⟨popCount, hpop, h⟩ := Option.bind_eq_some_iff.mp h
    obtain ⟨into, hinto, h⟩ := Option.bind_eq_some_iff.mp h
    obtain ⟨capture, -, h⟩ := Option.bind_eq_some_iff.mp h
    obtain rfl := Option.some.inj h
    exact ⟨Json.nat?_lt hpop, Nonterminal.lt_of_read hinto⟩
  · cases h

theorem CompactTable.isRepresentable_of_read {j : Json} {t : CompactTable}
    (h : ofJson? j = some t) :
  t.IsRepresentable
  := by
  obtain ⟨fields, -, h⟩ := Option.bind_eq_some_iff.mp h
  split at h
  · obtain ⟨items, -, h⟩ := Option.bind_eq_some_iff.mp h
    obtain ⟨states, hstates, h⟩ := Option.bind_eq_some_iff.mp h
    obtain ⟨reductions, hreductions, h⟩ := Option.bind_eq_some_iff.mp h
    obtain rfl := Option.some.inj h
    constructor
    · intro s hs
      obtain ⟨item, -, hitem⟩ := Json.exists_of_mapM hstates s hs
      apply CompactState.isRepresentable_of_read hitem
    · intro e he
      obtain ⟨hrule, item, hitem⟩ := Json.exists_of_toNumbered? hreductions e he
      exact ⟨hrule, CompactReduction.isRepresentable_of_read hitem⟩
  · cases h

/-- A compact text is read as a table with machine integers for numbers, if it is read as any. -/
theorem CompactTable.isRepresentable_of_ofText {text : String} {t : CompactTable}
    (h : ofText text = .ok t) :
  t.IsRepresentable
  := by
  unfold ofText at h
  split at h
  · next hread =>
    obtain rfl := Except.ok.inj h
    obtain ⟨j, -, hj⟩ := Option.bind_eq_some_iff.mp hread
    apply isRepresentable_of_read hj
  · cases h

/-! ### Tables and their texts -/

/-- A table, verbose or compact, is read back from its own text exactly if its numbers are machine
integers: indices below `2 ^ 64` and nonterminals below `2 ^ 32`. -/
theorem ofText_text_iff :
  (∀ r : TableRecord, TableRecord.ofText r.text = .ok r ↔ r.IsRepresentable)
    ∧ ∀ t : CompactTable, CompactTable.ofText t.text = .ok t ↔ t.IsRepresentable
  := by
  constructor
  · intro r
    exact ⟨TableRecord.isRepresentable_of_ofText, TableRecord.ofText_text⟩
  · intro t
    exact ⟨CompactTable.isRepresentable_of_ofText, CompactTable.ofText_text⟩

end CaptureLR

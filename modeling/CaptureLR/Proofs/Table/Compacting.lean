import CaptureLR.Proofs.Ordered.Entries
import CaptureLR.Table.Compact

/-!
# What compacting loses

The compact form of a stored table expands to the table with its captures completed: a capture that
lacks its property or its kind is dropped, and a flag that is missing is written down as unset.
Loading takes both for what they are completed to, so the expanded table is loaded with the same
outcome.
-/

namespace CaptureLR

/-- The flag of a truth value tells which it is. -/
@[simp]
theorem flagOf_eq_zero_iff (b : Bool) :
  flagOf b = 0 ↔ b = false
  := by
  cases b <;> decide

theorem Transition.expand_compact (t : Transition) :
  t.compact.expand = t
  := by
  obtain ⟨under, action⟩ := t
  cases action <;> rfl

/-! ### Reductions -/

namespace ReductionRecord

/-- A stored reduction describes a capture in all parts or in none. -/
inductive IsComplete : ReductionRecord → Prop
  | absent (popCount : Nat) (into : Nonterminal) : IsComplete ⟨popCount, into, none, none, none⟩
  | present (popCount : Nat) (into : Nonterminal) (prop : String) (isArray : Bool)
      (kind : KindRecord) :
      IsComplete ⟨popCount, into, some prop, some isArray, some kind⟩

/-- A stored reduction with its capture described in all parts, if it has a property and a kind, and
else in none. -/
def completed (r : ReductionRecord) : ReductionRecord :=
  match r.prop, r.kind with
  | some prop, some kind => ⟨r.popCount, r.into, some prop, some (r.isArray.getD false), some kind⟩
  | _, _ => ⟨r.popCount, r.into, none, none, none⟩

theorem IsComplete.completed_eq {r : ReductionRecord} (h : r.IsComplete) :
  r.completed = r
  := by
  cases h <;> rfl

/-- A compact reduction expands to the completed one. -/
theorem expand_compact (r : ReductionRecord) :
  CompactReduction.expand ⟨r.popCount, r.into, r.compactCapture⟩ = .ok r.completed
  := by
  obtain ⟨popCount, into, prop, isArray, kind⟩ := r
  cases prop with
  | none => rfl
  | some prop =>
      cases kind with
      | none => rfl
      | some kind =>
          -- the words and the flag of the capture are those it is expanded from
          cases kind <;> simp [compactCapture, CompactReduction.expand, KindRecord.ofWords,
            completed]

/-- A kind without a property is dropped, and a missing flag is unset. -/
example :
  (⟨1, ⟨2⟩, none, some true, some .token⟩ : ReductionRecord).completed
      = ⟨1, ⟨2⟩, none, none, none⟩
    ∧ (⟨1, ⟨2⟩, some "x", none, some .token⟩ : ReductionRecord).completed
      = ⟨1, ⟨2⟩, some "x", some false, some .token⟩
  := ⟨rfl, rfl⟩

/-- A completed reduction is loaded as the reduction is, or fails as it does. -/
theorem load_completed (classes : ClassTable) (r : ReductionRecord) :
  r.completed.load classes = r.load classes
  := by
  obtain ⟨popCount, into, prop, isArray, kind⟩ := r
  cases prop with
  | none => rfl
  | some prop =>
      cases kind with
      | none => rfl
      | some kind => cases isArray <;> rfl

end ReductionRecord

/-! ### Tables -/

namespace TableRecord

variable (r : TableRecord)

/-- A stored table with its captures completed. -/
def completed : TableRecord := ⟨r.states, r.reductions.map ReductionRecord.completed⟩

/-- The compact form of a stored table expands to the completed table. -/
theorem expand_compact :
  r.compact.expand = .ok r.completed
  := by
  have hreductions : r.compact.reductions.mapExcept CompactReduction.expand
      = .ok r.completed.reductions := by
    rw [NumberedMap.mapExcept_eq_ok_iff, compact, completed, NumberedMap.map, NumberedMap.map,
      List.forall₂_map_left_iff, List.forall₂_map_right_iff, List.forall₂_same]
    intro e he
    exact ⟨rfl, e.2.expand_compact⟩
  have hstates : r.compact.states.map
      (fun s => (⟨s.accepting ≠ 0, s.transitions.map CompactTransition.expand⟩ : StateRecord))
        = r.states := by
    rw [compact, List.map_map]
    conv_rhs => rw [← List.map_id r.states]
    apply List.map_congr_left
    intro s hs
    simp [List.map_map, Function.comp_def, Transition.expand_compact]
  rw [CompactTable.expand, hreductions, hstates]
  rfl

/-- A table whose captures are complete stays as it is. -/
theorem completed_eq (h : ∀ rule e, r.reductions.get? rule = some e → e.IsComplete) :
  r.completed = r
  := by
  have hentries : r.reductions.toList.map (fun e => (e.1, e.2.completed)) = r.reductions.toList := by
    conv_rhs => rw [← List.map_id r.reductions.toList]
    apply List.map_congr_left
    intro e he
    rw [(h e.1 e.2 (NumberedMap.mem_toList_iff.mp he)).completed_eq]
    rfl
  rw [completed, NumberedMap.ext (x := r.reductions.map _) (y := r.reductions) hentries]

/-- The actions of a completed table lead where those of the table do. -/
theorem checkAction_completed :
  r.completed.checkAction = r.checkAction
  := by
  funext state action
  cases action with
  | shift target => rfl
  | reduce rule =>
      rw [checkAction, checkAction, completed, NumberedMap.contains_map]

/-- A completed table is loaded as the table is, or fails as it does. -/
theorem load_completed (classes : ClassTable) :
  r.completed.load classes = r.load classes
  := by
  have htransitions : r.completed.loadTransitions = r.loadTransitions := by
    funext state transitions
    rw [loadTransitions, loadTransitions, checkAction_completed]
  have hstates : ∀ i states, r.completed.loadStates i states = r.loadStates i states := by
    intro i states
    induction states generalizing i with
    | nil => rfl
    | cons s states ih => rw [loadStates, loadStates, htransitions, ih]
  have hreductions : r.completed.reductions.mapExcept (ReductionRecord.load classes)
      = r.reductions.mapExcept (ReductionRecord.load classes) := by
    rw [completed, NumberedMap.mapExcept_map]
    simp only [ReductionRecord.load_completed]
  rw [load, load, hstates, hreductions]
  rfl

end TableRecord

end CaptureLR

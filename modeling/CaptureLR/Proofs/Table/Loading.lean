import CaptureLR.Proofs.Lowering.Readings
import CaptureLR.Proofs.Ordered.Entries
import CaptureLR.Table.Record

/-!
# What loading a table checks

A stored table is loaded exactly if it has a state, all of its shifts lead to states, all rules it
reduces by are described, and the classes it names are known. So the loaded table leads somewhere
wherever it does something.
-/

namespace CaptureLR

/-! ### Class tables -/

/-- The class tables that there are: the empty one, and those collected from a root. -/
inductive ClassTable.Constructed : ClassTable → Prop
  | empty : Constructed .empty
  | collected {l : Language} {root : ClassId} {classes : ClassTable}
      (h : ClassTable.collect l root = .ok classes) :
      Constructed classes

/-- The names of the classes, in the order of the classes. -/
def ClassTable.names (t : ClassTable) : List String := t.classes.values.map NodeClass.name

/-- A class is added under a new name only, so all names differ. -/
theorem ClassTable.nodup_names_of_collectQueue {l : Language} {t t' : ClassTable}
    {queue : List ClassId} (ht : t.names.Nodup) (h : t.collectQueue l queue = .ok t') :
  t'.names.Nodup
  := by
  fun_induction ClassTable.collectQueue l t queue with
  | case1 t =>
      cases h
      apply ht
  | case2 t c queue hc ih => apply ih ht h
  | case3 t c queue hc hlt d e he => cases h
  | case4 t c queue hc hlt d found he ih =>
      apply ih _ h
      have hkey : c ∉ t.classes.keys := fun hmem => hc (OrderedMap.contains_iff.mpr hmem)
      have hname : d.name ∉ t.names := by
        intro hmem
        obtain ⟨n, hn, heq⟩ := List.mem_map.mp hmem
        have hfound : (t.byName? d.name).isSome = true :=
          List.find?_isSome.mpr ⟨n, hn, decide_eq_true heq⟩
        unfold examine at he
        split at he
        · cases he
        · rw [if_pos hfound] at he
          cases he
      have hnames : ∀ n, names ⟨t.classes.insert c n⟩ = t.names ++ [n.name] := by
        intro n
        rw [names, OrderedMap.values, OrderedMap.toList_insert, OrderedMap.putEntry_of_not_mem hkey]
        simp [names, OrderedMap.values]
      rw [hnames]
      apply ht.append (List.nodup_singleton _)
      rw [List.disjoint_singleton]
      apply hname
  | case5 t c queue hc hlt => cases h

namespace ClassTable.Constructed

variable {classes : ClassTable}

theorem nodup_names (h : classes.Constructed) :
  classes.names.Nodup
  := by
  cases h with
  | empty => exact List.nodup_nil
  | collected h =>
      apply ClassTable.nodup_names_of_collectQueue _ h
      exact List.nodup_nil

/-- Classes are listed under themselves. -/
theorem id_eq (h : classes.Constructed) {c : ClassId} {n : NodeClass}
    (hn : classes.get? c = some n) :
  n.id = c
  := by
  cases h with
  | empty => cases hn
  | collected h => apply Source.identifies_of_collect h c n hn

/-- A class that is found by its name is found. -/
theorem get?_id (h : classes.Constructed) {name : String} {n : NodeClass}
    (hn : classes.byName? name = some n) :
  classes.get? n.id = some n
  := by
  obtain ⟨⟨c, n'⟩, hmem, rfl⟩ := List.mem_map.mp (List.mem_of_find?_eq_some hn)
  have hget : classes.get? c = some n' := OrderedMap.mem_toList_iff.mp hmem
  rw [h.id_eq hget]
  apply hget

/-- A class that is listed is found by its name. -/
theorem byName?_name (h : classes.Constructed) {c : ClassId} {n : NodeClass}
    (hn : classes.get? c = some n) :
  classes.byName? n.name = some n
  := by
  have hmem : n ∈ classes.classes.values :=
    List.mem_map.mpr ⟨(c, n), OrderedMap.mem_toList_iff.mpr hn, rfl⟩
  obtain ⟨n', hn'⟩ : ∃ n', classes.byName? n.name = some n' := by
    rw [← Option.isSome_iff_exists]
    apply List.find?_isSome.mpr ⟨n, hmem, decide_eq_true rfl⟩
  have heq := of_decide_eq_true (List.find?_eq_some_iff_append.mp hn').1
  rw [hn', List.inj_on_of_nodup_map h.nodup_names (List.mem_of_find?_eq_some hn') hmem heq]

end ClassTable.Constructed

/-! ### Loading states -/

/-- The row of a stored state, whatever its actions lead to. -/
def StateRecord.row (s : StateRecord) : TableState :=
  ⟨s.accepting, .ofList (s.transitions.map (fun t => (t.under, t.action)))⟩

namespace TableRecord

variable {r : TableRecord} {i : Nat}

/-- An action leads to a state of a stored table or by a rule it describes. -/
def Allows (r : TableRecord) : Action → Prop
  | .shift target => target < r.states.length
  | .reduce rule => r.reductions.contains rule = true

theorem checkAction_eq_ok_iff {a : Action} :
  r.checkAction i a = .ok () ↔ r.Allows a
  := by
  cases a with
  | shift target =>
      unfold checkAction Allows
      split <;> simp_all
  | reduce rule =>
      unfold checkAction Allows
      split <;> simp_all

/-- Transitions are loaded exactly if their actions are allowed, and none of them is lost but for
repeated columns. -/
theorem loadTransitions_eq_ok_iff {transitions : List Transition} {actions : Actions} :
  r.loadTransitions i transitions = .ok actions
    ↔ (∀ t ∈ transitions, r.Allows t.action)
      ∧ actions = .ofList (transitions.map (fun t => (t.under, t.action)))
  := by
  unfold loadTransitions OrderedMap.ofList
  change List.foldlM _ (∅ : Actions) _ = _ ↔ _ ∧ _ = List.foldl _ (∅ : Actions) _
  generalize (∅ : Actions) = before
  induction transitions generalizing before with
  | nil => simp [pure, Except.pure, eq_comm]
  | cons t ts ih =>
      rw [List.foldlM_cons, List.forall_mem_cons, List.map_cons, List.foldl_cons, and_assoc]
      rw [← checkAction_eq_ok_iff (i := i)]
      cases hcheck : r.checkAction i t.action with
      | error e => simp [bind, Except.bind]
      | ok u =>
          simp only [bind, Except.bind, pure, Except.pure, true_and]
          apply ih

theorem loadStates_eq_ok_iff {states : List StateRecord} {rows : List TableState} :
  r.loadStates i states = .ok rows
    ↔ (∀ s ∈ states, ∀ t ∈ s.transitions, r.Allows t.action)
      ∧ rows = states.map StateRecord.row
  := by
  induction states generalizing i rows with
  | nil => simp [loadStates, eq_comm]
  | cons s states ih =>
      rw [loadStates, List.forall_mem_cons, List.map_cons]
      cases htransitions : r.loadTransitions i s.transitions with
      | error e =>
          simp only [bind, Except.bind, reduceCtorEq, false_iff, not_and]
          rintro ⟨hallows, -⟩
          have hok := loadTransitions_eq_ok_iff (i := i).mpr ⟨hallows, rfl⟩
          rw [htransitions] at hok
          cases hok
      | ok actions =>
          obtain ⟨hallows, rfl⟩ := loadTransitions_eq_ok_iff.mp htransitions
          cases hrest : r.loadStates (i + 1) states with
          | error e =>
              simp only [bind, Except.bind, reduceCtorEq, false_iff, not_and]
              rintro ⟨-, hall⟩
              have hok := ih (i := i + 1).mpr ⟨hall, rfl⟩
              rw [hrest] at hok
              cases hok
          | ok rest =>
              obtain ⟨hall, rfl⟩ := ih.mp hrest
              simp only [bind, Except.bind, pure, Except.pure, Except.ok.injEq]
              constructor
              · rintro rfl
                exact ⟨⟨hallows, hall⟩, rfl⟩
              · rintro ⟨-, rfl⟩
                rfl

/-- What loading a table checks, and what it gives. -/
theorem load_eq_ok_iff {classes : ClassTable} {table : Table} :
  r.load classes = .ok table
    ↔ r.states ≠ [] ∧ (∀ s ∈ r.states, ∀ t ∈ s.transitions, r.Allows t.action)
      ∧ ∃ reductions, r.reductions.mapExcept (ReductionRecord.load classes) = .ok reductions
        ∧ table = ⟨(r.states.map StateRecord.row).toArray, reductions⟩
  := by
  unfold load
  split
  · next hempty => simp [List.isEmpty_iff.mp hempty]
  · next hempty =>
    have hne : r.states ≠ [] := fun h => hempty (List.isEmpty_iff.mpr h)
    cases hstates : r.loadStates 0 r.states with
    | error e =>
        simp only [bind, Except.bind, reduceCtorEq, false_iff, not_and]
        rintro - hall
        have hok := loadStates_eq_ok_iff (i := 0).mpr ⟨hall, rfl⟩
        rw [hstates] at hok
        cases hok
    | ok rows =>
        obtain ⟨hall, rfl⟩ := loadStates_eq_ok_iff.mp hstates
        cases hreductions : r.reductions.mapExcept (ReductionRecord.load classes) with
        | error e => simp [bind, Except.bind]
        | ok reductions =>
            simp only [bind, Except.bind, pure, Except.pure, Except.ok.injEq, exists_eq_left']
            constructor
            · rintro rfl
              exact ⟨hne, hall, rfl⟩
            · rintro ⟨-, -, rfl⟩
              rfl

end TableRecord

/-! ### Checked tables -/

/-- A table leads somewhere wherever it does something: it has a state, its shifts lead to states,
the rules it reduces by are described, and the classes of their captures are known. -/
structure Table.IsChecked (t : Table) (classes : ClassTable) : Prop where
  nonempty : 0 < t.states.size
  shift : ∀ (i : Nat) (row : TableState) col target, t.states[i]? = some row →
    row.actions.get? col = some (.shift target) → target < t.states.size
  reduce : ∀ (i : Nat) (row : TableState) col rule, t.states[i]? = some row →
    row.actions.get? col = some (.reduce rule) → ∃ r, t.reductions.get? rule = some r
  known : ∀ rule r cap id, t.reductions.get? rule = some r → r.capture = some cap →
    cap.kind = .node id → (classes.get? id).isSome

/-- A kind of capture that is loaded as a class names the class. -/
theorem KindRecord.exists_class_of_load {classes : ClassTable} {k : KindRecord} {id : ClassId}
    (h : k.load classes = .ok (.node id)) :
  ∃ name n, classes.byName? name = some n ∧ n.id = id
  := by
  unfold load at h
  split at h
  · next name =>
    split at h
    · next n hn =>
      cases h
      exact ⟨name, n, hn, rfl⟩
    · cases h
  · cases h
  · cases h

/-- The class of a loaded capture is known. -/
theorem ReductionRecord.known_of_load {classes : ClassTable} (hc : classes.Constructed)
    {r : ReductionRecord} {reduction : Reduction} (h : r.load classes = .ok reduction)
    {cap : Capture} (hcap : reduction.capture = some cap) {id : ClassId}
    (hid : cap.kind = .node id) :
  (classes.get? id).isSome
  := by
  unfold load at h
  split at h
  · next prop kind hprop hkind =>
    split at h
    · next kind' hload =>
      cases h
      cases hcap
      obtain rfl : kind' = .node id := hid
      obtain ⟨name, n, hn, rfl⟩ := KindRecord.exists_class_of_load hload
      rw [hc.get?_id hn]
      rfl
    · cases h
  · cases h
    cases hcap

/-- A loaded table is checked. -/
theorem TableRecord.isChecked_of_load {classes : ClassTable} (hc : classes.Constructed)
    {r : TableRecord} {table : Table} (h : r.load classes = .ok table) :
  table.IsChecked classes
  := by
  obtain ⟨hne, hall, reductions, hreductions, rfl⟩ := load_eq_ok_iff.mp h
  have hallows : ∀ (i : Nat) (row : TableState) col a,
      (r.states.map StateRecord.row).toArray[i]? = some row → row.actions.get? col = some a →
      r.Allows a := by
    intro i row col a hrow ha
    rw [List.getElem?_toArray, List.getElem?_map, Option.map_eq_some_iff] at hrow
    obtain ⟨s, hs, rfl⟩ := hrow
    obtain ⟨t, ht, heq⟩ := List.mem_map.mp (OrderedMap.mem_of_get?_ofList ha)
    cases heq
    apply hall s (List.mem_of_getElem? hs) t ht
  constructor
  · rw [List.size_toArray, List.length_map]
    apply List.length_pos_of_ne_nil hne
  · intro i row col target hrow ha
    rw [List.size_toArray, List.length_map]
    apply hallows i row col _ hrow ha
  · intro i row col rule hrow ha
    have hcontains : r.reductions.contains rule = true := hallows i row col _ hrow ha
    obtain ⟨x, hx⟩ := Option.isSome_iff_exists.mp hcontains
    obtain ⟨y, hy, -⟩ := NumberedMap.get?_mapExcept hreductions hx
    use y
  · intro rule reduction cap id hreduction hcap hid
    obtain ⟨x, -, hload⟩ := NumberedMap.exists_of_mapExcept hreductions hreduction
    apply ReductionRecord.known_of_load hc hload hcap hid

end CaptureLR

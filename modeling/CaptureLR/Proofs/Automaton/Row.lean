import CaptureLR.Automaton
import CaptureLR.Proofs.Item.Advance

/-!
# Rows

What the items of a closure call for: a reduction under each lookahead of a complete item, and
for each symbol behind a dot a shift to the kernel of the items advanced over it. The row of a
closure has just that besides the actions found before, and it is refused only if two of these
compete for a column.
-/

namespace CaptureLR

/-- A complete item of a rule has the lookahead of a column. -/
def Reduces (g : Grammar) (items : List Item) (under : Column) (rule : Nat) : Prop :=
  ∃ c l, Grants items c l ∧ c.symbol? g = none ∧ c.rule = rule ∧ under = l.toColumn

/-- An item has a symbol behind its dot. -/
def Shifts (g : Grammar) (items : List Item) (s : Symbol) : Prop :=
  ∃ c ∈ coresOf items, c.symbol? g = some s

theorem Lookahead.toColumn_injective :
  Function.Injective Lookahead.toColumn
  := by
  intro l l' h
  cases l <;> cases l' <;> simp_all [toColumn]

theorem Symbol.toColumn_injective :
  Function.Injective Symbol.toColumn
  := by
  intro s s' h
  cases s <;> cases s' <;> simp_all [toColumn]

/-- A symbol that has the column of a lookahead is the same terminal. -/
theorem Symbol.toColumn_eq_toColumn {s : Symbol} {l : Lookahead} (h : s.toColumn = l.toColumn) :
  ∃ t, s = .terminal t ∧ l = .terminal t
  := by
  cases s <;> cases l <;> simp_all [toColumn, Lookahead.toColumn]

/-- What holds of the result, if there is one, and what holds if there is an error. -/
def OkOr {ε α : Type} (P : α → Prop) (E : Prop) : Except ε α → Prop
  | .ok a => P a
  | .error _ => E

/-- A fold keeps what each of its steps keeps, or it fails as one of the steps does. -/
theorem OkOr.foldlM {ε α β : Type} {f : α → β → Except ε α} {P : List β → α → Prop} {E : Prop}
    {bs : List β} (hf : ∀ before b after a, bs = before ++ b :: after → P before a →
      OkOr (P (before ++ [b])) E (f a b)) {a : α} (h : P [] a) :
  OkOr (P bs) E (bs.foldlM f a)
  := by
  -- the list is taken apart from the front while what was folded already is kept
  have hrest : ∀ before after a, bs = before ++ after → P before a →
      OkOr (P bs) E (after.foldlM f a) := by
    intro before after
    induction after generalizing before with
    | nil =>
        intro a hbs hP
        rw [List.append_nil] at hbs
        subst hbs
        apply hP
    | cons b after ih =>
        intro a hbs hP
        have hstep := hf before b after a hbs hP
        rw [List.foldlM_cons]
        cases hfa : f a b with
        | error e =>
            rw [hfa] at hstep
            apply hstep
        | ok a' =>
            rw [hfa] at hstep
            apply ih (before ++ [b]) a' _ hstep
            rw [hbs, List.append_assoc, List.singleton_append]
  apply hrest [] bs a rfl h

namespace Row

variable {g : Grammar} {old : Actions} {items : List Item} {row : Row}

/-! ### The reductions of one item -/

/-- One row is another one with the reductions of a rule under some lookaheads. -/
structure Reduced (rule : Nat) (row : Row) (ls : List Lookahead) (row' : Row) : Prop where
  successors : row'.successors = row.successors
  free : ∀ l ∈ ls, l.toColumn ∉ row.successors.keys
  actions : ∀ col a, row'.actions.get? col = some a
    ↔ row.actions.get? col = some a ∨ (a = .reduce rule ∧ ∃ l ∈ ls, col = l.toColumn)

/-- The column of a lookahead is taken by something else than the reduction of a rule. -/
def IsTaken (row : Row) (rule : Nat) (l : Lookahead) : Prop :=
  l.toColumn ∈ row.successors.keys ∨ ∃ a, row.actions.get? l.toColumn = some a ∧ a ≠ .reduce rule

/-- A reduction adds one action, or its column is taken. -/
theorem addReduction_spec (rule : Nat) (row : Row) (l : Lookahead) :
  OkOr (Reduced rule row [l]) (row.IsTaken rule l) (row.addReduction rule l)
  := by
  unfold addReduction
  by_cases hs : row.successors.contains l.toColumn = true
  · rw [if_pos hs]
    left
    apply OrderedMap.contains_iff.mp hs
  · rw [if_neg hs]
    have hkeys : ∀ l' ∈ [l], l'.toColumn ∉ row.successors.keys := by
      intro l' hl' h
      obtain rfl := List.mem_singleton.mp hl'
      apply hs (OrderedMap.contains_iff.mpr h)
    split
    · next ha =>
      use rfl, hkeys
      intro col a
      rw [OrderedMap.get?_insert]
      by_cases hcol : col = l.toColumn
      · subst hcol
        simp [ha, eq_comm]
      · simp [hcol]
    · next a ha =>
      by_cases hr : a = .reduce rule
      · rw [if_pos hr]
        use rfl, hkeys
        intro col a'
        constructor
        · exact Or.inl
        · rintro (h | ⟨rfl, l', hl', rfl⟩)
          · apply h
          · obtain rfl := List.mem_singleton.mp hl'
            rw [ha, hr]
      · rw [if_neg hr]
        exact Or.inr ⟨a, ha, hr⟩

/-- The reductions under several lookaheads are added, or the column of one of them is taken. -/
theorem addReductions_spec (rule : Nat) (row : Row) (ls : List Lookahead) :
  OkOr (Reduced rule row ls) (∃ l ∈ ls, row.IsTaken rule l) (ls.foldlM (addReduction rule) row)
  := by
  apply OkOr.foldlM (P := Reduced rule row)
  · rintro before l after row' rfl h
    have hone := addReduction_spec rule row' l
    cases hrow : addReduction rule row' l with
    | error e =>
        rw [hrow] at hone
        use l, by simp
        rcases hone with hone | ⟨a, ha, hne⟩
        · left
          rw [← h.successors]
          apply hone
        · right
          rcases (h.actions _ _).mp ha with ha | ⟨rfl, -⟩
          · exact ⟨a, ha, hne⟩
          · exact absurd rfl hne
    | ok row'' =>
        rw [hrow] at hone
        refine ⟨hone.successors.trans h.successors, ?_, ?_⟩
        · intro l' hl'
          rcases List.mem_append.mp hl' with hl' | hl'
          · apply h.free l' hl'
          · rw [← h.successors]
            apply hone.free l' hl'
        · intro col a
          rw [hone.actions, h.actions]
          simp only [List.mem_append, or_and_right, exists_or, and_or_left, or_assoc]
  · exact ⟨rfl, by simp, by simp⟩

/-! ### All items -/

/-- What an item calls for competes with an action found before or with what another item calls
for. -/
inductive Clash (g : Grammar) (old : Actions) (items : List Item) : Prop
  | reduction {col : Column} {r : Nat} {a : Action} (hr : Reduces g items col r)
      (ha : old.get? col = some a ∨ ∃ r', a = .reduce r' ∧ Reduces g items col r')
      (hne : a ≠ .reduce r) :
      Clash g old items
  | shift {s : Symbol} {r : Nat} (hs : Shifts g items s)
      (hr : old.get? s.toColumn = some (.reduce r) ∨ Reduces g items s.toColumn r) :
      Clash g old items

/-- A row has just what the items call for and the actions found before. -/
structure Covers (g : Grammar) (old : Actions) (items : List Item) (row : Row) : Prop where
  actions : ∀ col a, row.actions.get? col = some a
    ↔ old.get? col = some a ∨ ∃ r, a = .reduce r ∧ Reduces g items col r
  successors : ∀ s, Shifts g items s →
    row.successors.get? s.toColumn = some (kernelOf (advancedOver g s items))
  keys : ∀ col ∈ row.successors.keys, ∃ s, Shifts g items s ∧ col = s.toColumn
  first : row.successors.keys.head? = (items.findSome? (Item.symbol? g)).map Symbol.toColumn
  apart : ∀ col ∈ row.successors.keys, ∀ r, row.actions.get? col ≠ some (.reduce r)

theorem reduces_concat {item : Item} {col : Column} {r : Nat} :
  Reduces g (items ++ [item]) col r
    ↔ Reduces g items col r
      ∨ item.symbol? g = none ∧ item.core.rule = r ∧ ∃ l ∈ item.follow, col = l.toColumn
  := by
  constructor
  · rintro ⟨c, l, ⟨i, hi, rfl, hl⟩, hs, hr, hcol⟩
    rcases List.mem_append.mp hi with hi | hi
    · exact Or.inl ⟨_, l, ⟨i, hi, rfl, hl⟩, hs, hr, hcol⟩
    · obtain rfl := List.mem_singleton.mp hi
      exact Or.inr ⟨hs, hr, l, hl, hcol⟩
  · rintro (⟨c, l, ⟨i, hi, rfl, hl⟩, h⟩ | ⟨hs, hr, l, hl, hcol⟩)
    · exact ⟨_, l, ⟨i, List.mem_append_left _ hi, rfl, hl⟩, h⟩
    · exact ⟨_, l, ⟨item, by simp, rfl, hl⟩, hs, hr, hcol⟩

theorem shifts_concat {item : Item} {s : Symbol} :
  Shifts g (items ++ [item]) s ↔ Shifts g items s ∨ item.symbol? g = some s
  := by
  constructor
  · rintro ⟨c, hc, hs⟩
    rw [coresOf, List.map_append, List.mem_append] at hc
    rcases hc with hc | hc
    · exact Or.inl ⟨c, hc, hs⟩
    · obtain rfl := List.mem_singleton.mp hc
      right
      apply hs
  · rintro (⟨c, hc, hs⟩ | hs)
    · exact ⟨c, by rw [coresOf, List.map_append]; exact List.mem_append_left _ hc, hs⟩
    · exact ⟨item.core, by simp [coresOf], hs⟩

theorem advancedOver_concat_of_eq {item : Item} {s : Symbol} (h : item.symbol? g = some s) :
  advancedOver g s (items ++ [item]) = advancedOver g s items ++ [item.advance]
  := by
  simp [advancedOver, List.filter_append, h]

theorem advancedOver_concat_of_ne {item : Item} {s : Symbol} (h : item.symbol? g ≠ some s) :
  advancedOver g s (items ++ [item]) = advancedOver g s items
  := by
  simp [advancedOver, List.filter_append, h]

/-- Items without a symbol behind their dots make no kernel for it. -/
theorem advancedOver_eq_nil {s : Symbol} (h : ¬ Shifts g items s) :
  advancedOver g s items = []
  := by
  rw [advancedOver, List.map_eq_nil_iff, List.filter_eq_nil_iff]
  intro i hi hs
  apply h ⟨i.core, mem_coresOf.mpr ⟨i, hi, rfl⟩, of_decide_eq_true hs⟩

theorem Covers.nil (g : Grammar) (old : Actions) :
  Covers g old [] ⟨old, ∅⟩
  where
  actions col a := by
    constructor
    · exact Or.inl
    · rintro (h | ⟨r, -, c, l, h, -⟩)
      · apply h
      · exact absurd h grants_nil
  successors s h := by
    obtain ⟨c, hc, -⟩ := h
    cases hc
  keys col h := by cases h
  first := rfl
  apart col h := by cases h

/-- A complete item adds its reductions, if their columns are free. -/
theorem Covers.reduced (h : Covers g old items row) {item : Item} (hs : item.symbol? g = none)
    {row' : Row} (hr : Reduced item.core.rule row item.follow.toList row') :
  Covers g old (items ++ [item]) row'
  := by
  obtain ⟨hsucc, hfree, hactions⟩ := hr
  refine ⟨?_, ?_, ?_, ?_, ?_⟩
  · intro col a
    rw [hactions, h.actions]
    constructor
    · rintro ((ha | ⟨r, rfl, hr⟩) | ⟨rfl, l, hl, rfl⟩)
      · left
        apply ha
      · exact Or.inr ⟨r, rfl, reduces_concat.mpr (Or.inl hr)⟩
      · exact Or.inr ⟨_, rfl, reduces_concat.mpr (Or.inr ⟨hs, rfl, l, hl, rfl⟩)⟩
    · rintro (ha | ⟨r, rfl, hr⟩)
      · left
        left
        apply ha
      · rcases reduces_concat.mp hr with hr | ⟨-, rfl, l, hl, rfl⟩
        · exact Or.inl (Or.inr ⟨r, rfl, hr⟩)
        · exact Or.inr ⟨rfl, l, hl, rfl⟩
  · intro s hshift
    rw [hsucc, advancedOver_concat_of_ne (by simp [hs])]
    apply h.successors
    simpa [shifts_concat, hs] using hshift
  · intro col hcol
    rw [hsucc] at hcol
    obtain ⟨s, hshift, rfl⟩ := h.keys col hcol
    exact ⟨s, shifts_concat.mpr (Or.inl hshift), rfl⟩
  · rw [hsucc, h.first]
    simp [List.findSome?_append, hs]
  · intro col hcol r hr
    rw [hsucc] at hcol
    rcases (hactions _ _).mp hr with hr | ⟨-, l, hl, rfl⟩
    · apply h.apart col hcol r hr
    · apply hfree l hl hcol

/-- A reduction clashes with what has taken its column. -/
theorem Covers.clash (h : Covers g old items row) {item : Item} (hs : item.symbol? g = none)
    {l : Lookahead} (hl : l ∈ item.follow.toList) (ht : row.IsTaken item.core.rule l) :
  Clash g old (items ++ [item])
  := by
  have hreduces : Reduces g (items ++ [item]) l.toColumn item.core.rule :=
    reduces_concat.mpr (Or.inr ⟨hs, rfl, l, hl, rfl⟩)
  rcases ht with hkey | ⟨a, ha, hne⟩
  · obtain ⟨s, hshift, hcol⟩ := h.keys _ hkey
    apply Clash.shift (shifts_concat.mpr (Or.inl hshift))
    right
    rw [← hcol]
    apply hreduces
  · apply Clash.reduction hreduces _ hne
    rcases (h.actions _ _).mp ha with ha | ⟨r, rfl, hr⟩
    · left
      apply ha
    · exact Or.inr ⟨r, rfl, reduces_concat.mpr (Or.inl hr)⟩

/-- A complete item adds its reductions, or one of them clashes. -/
theorem Covers.addItem_of_none (h : Covers g old items row) {item : Item}
    (hs : item.symbol? g = none) :
  OkOr (Covers g old (items ++ [item])) (Clash g old (items ++ [item])) (row.addItem g item)
  := by
  have hspec := addReductions_spec item.core.rule row item.follow.toList
  simp only [Row.addItem, hs]
  cases hrow : item.follow.toList.foldlM (addReduction item.core.rule) row with
  | error e =>
      rw [hrow] at hspec
      obtain ⟨l, hl, htaken⟩ := hspec
      apply h.clash hs hl htaken
  | ok row' =>
      rw [hrow] at hspec
      apply h.reduced hs hspec

/-- What was collected for a symbol is the kernel that the symbol leads to from the items before. -/
theorem Covers.getD_successors (h : Covers g old items row) (s : Symbol) :
  (row.successors.get? s.toColumn).getD [] = kernelOf (advancedOver g s items)
  := by
  by_cases hshift : Shifts g items s
  · rw [h.successors s hshift, Option.getD_some]
  · have hnone : row.successors.get? s.toColumn = none := by
      rw [Option.eq_none_iff_forall_ne_some]
      intro k hk
      obtain ⟨s', hs', hcol⟩ := h.keys _ (OrderedMap.mem_keys_iff.mpr ⟨k, hk⟩)
      obtain rfl := Symbol.toColumn_injective hcol
      apply hshift hs'
    rw [hnone, advancedOver_eq_nil hshift]
    rfl

/-- The first key of a row stays the first one when a symbol is added. -/
theorem Covers.head?_keys_insert (h : Covers g old items row) (s : Symbol) (k : List Item) :
  (row.successors.insert s.toColumn k).keys.head?
    = ((items.findSome? (Item.symbol? g)).or (some s)).map Symbol.toColumn
  := by
  have hfirst := h.first
  rw [OrderedMap.keys_insert]
  cases hk : row.successors.keys with
  | nil =>
      rw [hk] at hfirst
      cases hf : items.findSome? (Item.symbol? g) with
      | none => rfl
      | some s' =>
          rw [hf] at hfirst
          cases hfirst
  | cons col cols =>
      rw [hk] at hfirst
      cases hf : items.findSome? (Item.symbol? g) with
      | none =>
          rw [hf] at hfirst
          cases hfirst
      | some s' =>
          rw [hf] at hfirst
          rw [Option.some_or, ← hfirst]
          split <;> rfl

/-- An item joins the kernel that the symbol behind its dot leads to, if the column of the symbol
has no reduction. -/
theorem Covers.insert (h : Covers g old items row) {item : Item} {s : Symbol}
    (hs : item.symbol? g = some s)
    (hfree : ∀ r, row.actions.get? s.toColumn ≠ some (.reduce r)) :
  Covers g old (items ++ [item]) { row with
    successors := row.successors.insert s.toColumn
      (insertItem item.advance (kernelOf (advancedOver g s items))) }
  := by
  have hshifts : Shifts g (items ++ [item]) s := shifts_concat.mpr (Or.inr hs)
  have hmem : ∀ {col k}, col ∈ (row.successors.insert s.toColumn k).keys →
      col ∈ row.successors.keys ∨ col = s.toColumn := by
    intro col k hcol
    rw [OrderedMap.keys_insert] at hcol
    split at hcol
    · left
      apply hcol
    · simpa using hcol
  refine ⟨?_, ?_, ?_, ?_, ?_⟩
  · intro col a
    simp only [reduces_concat, hs, reduceCtorEq, false_and, or_false]
    apply h.actions col a
  · intro s' hshift
    simp only [OrderedMap.get?_insert]
    by_cases heq : s' = s
    · subst heq
      rw [if_pos rfl, advancedOver_concat_of_eq hs, kernelOf_concat]
    · rw [if_neg (fun h => heq (Symbol.toColumn_injective h)),
        advancedOver_concat_of_ne (by rw [hs]; simpa [eq_comm] using heq)]
      apply h.successors
      rcases shifts_concat.mp hshift with hshift | hs'
      · apply hshift
      · rw [hs, Option.some.injEq] at hs'
        exact absurd hs'.symm heq
  · intro col hcol
    rcases hmem hcol with hcol | rfl
    · obtain ⟨s', hs', rfl⟩ := h.keys col hcol
      exact ⟨s', shifts_concat.mpr (Or.inl hs'), rfl⟩
    · exact ⟨s, hshifts, rfl⟩
  · rw [h.head?_keys_insert, List.findSome?_append, List.findSome?_singleton, hs]
  · intro col hcol r hr
    rcases hmem hcol with hcol | rfl
    · apply h.apart col hcol r hr
    · apply hfree r hr

/-- An item with a symbol behind its dot joins the kernel that the symbol leads to, or the column of
the symbol has a reduction. -/
theorem Covers.addItem_of_some (h : Covers g old items row) {item : Item} {s : Symbol}
    (hs : item.symbol? g = some s) :
  OkOr (Covers g old (items ++ [item])) (Clash g old (items ++ [item])) (row.addItem g item)
  := by
  simp only [Row.addItem, hs, Row.addShift]
  split
  · next r hr =>
    apply Clash.shift (shifts_concat.mpr (Or.inr hs))
    rcases (h.actions _ _).mp hr with hr | ⟨r', heq, hr⟩
    · left
      apply hr
    · right
      cases heq
      apply reduces_concat.mpr (Or.inl hr)
  · next hfree =>
    rw [h.getD_successors]
    apply h.insert hs
    intro r hr
    apply hfree r hr

/-- A clash among some of the items is one among all of them. -/
theorem Clash.append (h : Clash g old items) (more : List Item) :
  Clash g old (items ++ more)
  := by
  have hreduces : ∀ {col r}, Reduces g items col r → Reduces g (items ++ more) col r := by
    rintro col r ⟨c, l, ⟨i, hi, rfl, hl⟩, h⟩
    exact ⟨_, l, ⟨i, List.mem_append_left _ hi, rfl, hl⟩, h⟩
  have hshifts : ∀ {s}, Shifts g items s → Shifts g (items ++ more) s := by
    rintro s ⟨c, hc, hs⟩
    exact ⟨c, by rw [coresOf, List.map_append]; exact List.mem_append_left _ hc, hs⟩
  cases h with
  | reduction hr ha hne =>
      apply Clash.reduction (hreduces hr) _ hne
      rcases ha with ha | ⟨r', rfl, hr'⟩
      · left
        apply ha
      · exact Or.inr ⟨r', rfl, hreduces hr'⟩
  | shift hs hr =>
      apply Clash.shift (hshifts hs)
      rcases hr with hr | hr
      · left
        apply hr
      · right
        apply hreduces hr

/-- The row of some items has just what they call for, or two things they call for clash. -/
theorem addItems_spec (g : Grammar) (old : Actions) (items : List Item) :
  OkOr (Covers g old items) (Clash g old items) (items.foldlM (Row.addItem g) ⟨old, ∅⟩)
  := by
  apply OkOr.foldlM (P := Covers g old)
  · rintro before item after row rfl h
    have hitem : OkOr (Covers g old (before ++ [item])) (Clash g old (before ++ [item]))
        (row.addItem g item) := by
      cases hs : item.symbol? g with
      | none => apply h.addItem_of_none hs
      | some s => apply h.addItem_of_some hs
    cases hrow : row.addItem g item with
    | ok row' =>
        rw [hrow] at hitem
        apply hitem
    | error e =>
        rw [hrow] at hitem
        have := Clash.append hitem after
        rwa [List.append_assoc] at this
  · apply Covers.nil g old

end Row

end CaptureLR

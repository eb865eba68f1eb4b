import CaptureLR.ClassTable
import CaptureLR.Language.Renaming
import Mathlib.Logic.Function.Basic

/-!
# The classes of renamed languages

The walk through the pattern of a class depends on which instances are the same, but not on their
numbers, and classes are told apart by their names. So the classes of a renamed language are
collected in the same order, under their other numbers, and collecting fails for both languages or
for none.
-/

namespace CaptureLR

/-! ### Outcomes -/

/-- Two outcomes are alike: both are errors, or both are results between which something holds. -/
inductive Alike {ε ε' α β : Type} (R : α → β → Prop) : Except ε α → Except ε' β → Prop
  | error (e : ε) (e' : ε') : Alike R (.error e) (.error e')
  | ok {a : α} {b : β} (h : R a b) : Alike R (.ok a) (.ok b)

/-! ### Maps with other keys -/

namespace OrderedMap

variable {κ κ' ν ν' : Type} {f : κ → κ'} {g : ν → ν'} {m : OrderedMap κ ν} {m' : OrderedMap κ' ν'}

/-- A map is another one with other keys and values, in the same order. -/
def IsMapped (f : κ → κ') (g : ν → ν') (m : OrderedMap κ ν) (m' : OrderedMap κ' ν') : Prop :=
  m'.toList = m.toList.map (Prod.map f g)

theorem IsMapped.values (h : IsMapped f g m m') :
  m'.values = m.values.map g
  := by
  rw [OrderedMap.values, h, OrderedMap.values, List.map_map, List.map_map]
  rfl

variable [DecidableEq κ] [DecidableEq κ']

theorem IsMapped.get? (h : IsMapped f g m m') (hf : Function.Injective f) (k : κ) :
  m'.get? (f k) = (m.get? k).map g
  := by
  rw [OrderedMap.get?, h, OrderedMap.get?]
  generalize m.toList = es
  induction es with
  | nil => rfl
  | cons e es ih =>
      rw [List.map_cons, List.lookup_cons, List.lookup_cons, Prod.map_fst, ih]
      by_cases hk : k = e.1
      · simp [hk]
      · have hb : (k == e.1) = false := by simpa using hk
        have hb' : (f k == f e.1) = false := by simpa using fun heq => hk (hf heq)
        rw [hb, hb']

theorem putEntry_map (hf : Function.Injective f) (k : κ) (x : ν) (es : List (κ × ν)) :
  putEntry (f k) (g x) (es.map (Prod.map f g)) = (putEntry k x es).map (Prod.map f g)
  := by
  induction es with
  | nil => rfl
  | cons e es ih =>
      rw [List.map_cons, putEntry, putEntry, ih, Prod.map_fst]
      by_cases hk : e.1 = k
      · rw [if_pos hk, if_pos (congrArg f hk)]
        rfl
      · rw [if_neg hk, if_neg (fun heq => hk (hf heq))]
        rfl

theorem IsMapped.insert (h : IsMapped f g m m') (hf : Function.Injective f) (k : κ) (x : ν) :
  IsMapped f g (m.insert k x) (m'.insert (f k) (g x))
  := by
  rw [IsMapped, toList_insert, toList_insert, h, putEntry_map hf]

end OrderedMap

/-! ### Walks -/

/-- What was met, with the classes under their other numbers. -/
def Found.rename (ρ : Renaming) (f : Found) : Found := { f with classes := f.classes.map ρ.onClass }

/-- What stands in a renamed combinator is renamed. -/
theorem Combinator.parts_rename (ρ : Renaming) (c : Combinator) :
  (c.rename ρ).parts = c.parts.map (Pattern.rename ρ)
  := by
  obtain ⟨name, shape⟩ := c
  cases shape with
  | choice branches => rfl
  | repetition r =>
      obtain ⟨element, delimiter, trailing, lower, upper⟩ := r
      cases trailing <;> rfl
  | capture m =>
      obtain ⟨prop, isArray, target⟩ := m
      cases target with
      | none => rfl
      | some t => cases t <;> rfl

theorem Found.addTarget_rename (ρ : Renaming) (className : String) (f : Found) (t : Option Target) :
  (f.rename ρ).addTarget className (t.map (Target.rename ρ))
    = (f.addTarget className t).map (Found.rename ρ)
  := by
  cases t with
  | none => rfl
  | some t =>
      cases t with
      | nodeClass c => simp [addTarget, rename, Target.rename, Except.map]
      | pattern p => rfl

theorem Found.addCombinator_rename (ρ : Renaming) (className : String) (f : Found) (c : Combinator) :
  (f.rename ρ).addCombinator className (c.rename ρ)
    = (f.addCombinator className c).map (Found.rename ρ)
  := by
  obtain ⟨name, shape⟩ := c
  cases shape with
  | choice branches => rfl
  | repetition r => rfl
  | capture m =>
      simp only [addCombinator, Combinator.rename, Shape.rename, Match.rename]
      cases m.prop with
      | none => apply addTarget_rename
      | some prop =>
          have hprop : (f.rename ρ).addProp className m.isArray prop
              = (f.addProp className m.isArray prop).map (Found.rename ρ) := by
            unfold addProp
            simp only [rename]
            cases f.fields.get? prop with
            | none => rfl
            | some b =>
                simp only
                split <;> rfl
          simp only [hprop]
          cases f.addProp className m.isArray prop with
          | error e => rfl
          | ok f' => apply addTarget_rename

/-! ### Tables -/

/-- A table is another one with all classes under their other numbers, in the same order. -/
def ClassTable.IsRenamed (ρ : Renaming) (t t' : ClassTable) : Prop :=
  t.classes.IsMapped ρ.onClass (NodeClass.rename ρ) t'.classes

namespace ClassTable.IsRenamed

variable {ρ : Renaming} {t t' : ClassTable} (h : t.IsRenamed ρ t')

include h

theorem get? (c : ClassId) :
  t'.get? (ρ.onClass c) = (t.get? c).map (NodeClass.rename ρ)
  := OrderedMap.IsMapped.get? h ρ.onClass_injective c

theorem contains {c : ClassId} :
  t'.classes.contains (ρ.onClass c) = t.classes.contains c
  := (congrArg Option.isSome (h.get? c)).trans Option.isSome_map

/-- A name is taken in one table exactly if it is taken in the other. -/
theorem isSome_byName? (name : String) :
  (t'.byName? name).isSome = (t.byName? name).isSome
  := by
  rw [byName?, byName?, OrderedMap.IsMapped.values h, List.find?_map, Option.isSome_map]
  rfl

end ClassTable.IsRenamed

section Renamed

variable {ρ : Renaming} {l l' : Language} (h : l.IsRenamed ρ l')

include h

/-- Under the other number of an instance stands the renamed combinator. -/
theorem Language.IsRenamed.exists_combinator {id : CombinatorId}
    (hid : id.index < l.combinators.size) :
  ∃ hid' : (ρ.onInstance id).index < l'.combinators.size,
    l'.combinators[(ρ.onInstance id).index] = l.combinators[id.index].rename ρ
  := by
  have hget := h.combinators id
  rw [combinator?, combinator?, Array.getElem?_eq_getElem hid] at hget
  apply Array.getElem?_eq_some_iff.mp hget

/-- Where no combinator stands, none stands under the other number. -/
theorem Language.IsRenamed.not_lt_combinator {id : CombinatorId} (hid : ¬ id.index < l.combinators.size) :
  ¬ (ρ.onInstance id).index < l'.combinators.size
  := by
  have hget := h.combinators id
  rw [combinator?, combinator?, Array.getElem?_eq_none (Nat.le_of_not_lt hid)] at hget
  apply Nat.not_lt_of_le (Array.getElem?_eq_none_iff.mp hget)

/-- The walk through renamed patterns meets the same. -/
theorem Language.walk_rename (className : String) {visited visited' : OrderedSet CombinatorId}
    (hvisited : ∀ id, ρ.onInstance id ∈ visited' ↔ id ∈ visited) (f : Found) (stack : List Pattern) :
  l'.walk className visited' (f.rename ρ) (stack.map (Pattern.rename ρ))
    = (l.walk className visited f stack).map (Found.rename ρ)
  := by
  fun_induction Language.walk l className visited f stack generalizing visited' with
  | case1 visited f =>
      rw [List.map_nil, walk]
      rfl
  | case2 visited f t stack ih =>
      rw [List.map_cons, Pattern.rename, walk]
      apply ih hvisited
  | case3 visited f items stack ih =>
      rw [List.map_cons, Pattern.rename, walk, Pattern.renameList_eq_map, ← List.map_append]
      apply ih hvisited
  | case4 visited f id stack hv ih =>
      rw [List.map_cons, Pattern.rename, walk, dif_pos ((hvisited id).mpr hv)]
      apply ih hvisited
  | case5 visited f id stack hv hid c e =>
      rename_i he
      obtain ⟨hid', hc⟩ := h.exists_combinator hid
      have hadd : Found.addCombinator className (f.rename ρ) l'.combinators[(ρ.onInstance id).index]
          = .error e := by
        rw [hc, Found.addCombinator_rename, he]
        rfl
      rw [List.map_cons, Pattern.rename, walk, dif_neg (fun hv' => hv ((hvisited id).mp hv')),
        dif_pos hid']
      simp only [hadd]
      rfl
  | case6 visited f id stack hv hid c f' he =>
      rename_i ih
      obtain ⟨hid', hc⟩ := h.exists_combinator hid
      have hadd : Found.addCombinator className (f.rename ρ) l'.combinators[(ρ.onInstance id).index]
          = .ok (f'.rename ρ) := by
        rw [hc, Found.addCombinator_rename, he]
        rfl
      have hvisited' : ∀ id', ρ.onInstance id' ∈ visited'.insert (ρ.onInstance id)
          ↔ id' ∈ visited.insert id := by
        intro id'
        rw [OrderedSet.mem_insert, OrderedSet.mem_insert, hvisited, ρ.onInstance_injective.eq_iff]
      rw [List.map_cons, Pattern.rename, walk, dif_neg (fun hv' => hv ((hvisited id).mp hv')),
        dif_pos hid']
      simp only [hadd]
      rw [hc, Combinator.parts_rename, ← List.map_append]
      apply ih hvisited'
  | case7 visited f id stack hv hid ih =>
      rw [List.map_cons, Pattern.rename, walk, dif_neg (fun hv' => hv ((hvisited id).mp hv')),
        dif_neg (h.not_lt_combinator hid)]
      apply ih hvisited

/-! ### Collecting -/

/-- Under the other number of a class stands the renamed declaration. -/
theorem Language.IsRenamed.exists_class {c : ClassId} (hc : c.index < l.classes.size) :
  ∃ hc' : (ρ.onClass c).index < l'.classes.size,
    l'.classes[(ρ.onClass c).index] = l.classes[c.index].rename ρ
  := by
  have hget := h.classes c
  rw [Array.getElem?_eq_getElem hc] at hget
  apply Array.getElem?_eq_some_iff.mp hget

/-- Where no class is declared, none is under the other number. -/
theorem Language.IsRenamed.not_lt_class {c : ClassId} (hc : ¬ c.index < l.classes.size) :
  ¬ (ρ.onClass c).index < l'.classes.size
  := by
  have hget := h.classes c
  rw [Array.getElem?_eq_none (Nat.le_of_not_lt hc)] at hget
  apply Nat.not_lt_of_le (Array.getElem?_eq_none_iff.mp hget)

theorem ClassTable.examine_rename {t t' : ClassTable} (ht : t.IsRenamed ρ t') (d : ClassDecl) :
  t'.examine l' (d.rename ρ) = (t.examine l d).map (Found.rename ρ)
  := by
  unfold examine
  simp only [ClassDecl.rename]
  cases d.pattern with
  | none => rfl
  | some p =>
      simp only [Option.map_some, ht.isSome_byName?]
      split
      · rfl
      · apply Language.walk_rename h d.name _ ⟨∅, []⟩ [p]
        intro id
        exact ⟨nofun, nofun⟩

/-- Classes are collected alike from renamed queues. -/
theorem ClassTable.alike_collectQueue {t t' : ClassTable} (ht : t.IsRenamed ρ t')
    (queue : List ClassId) :
  Alike (IsRenamed ρ) (t.collectQueue l queue) (t'.collectQueue l' (queue.map ρ.onClass))
  := by
  fun_induction ClassTable.collectQueue l t queue generalizing t' with
  | case1 t =>
      rw [List.map_nil, collectQueue]
      exact .ok ht
  | case2 t c queue hc ih =>
      rw [List.map_cons, collectQueue, dif_pos (ht.contains.trans hc)]
      apply ih ht
  | case3 t c queue hc hlt d e =>
      rename_i he
      obtain ⟨hlt', hd⟩ := h.exists_class hlt
      have hexamine : t'.examine l' l'.classes[(ρ.onClass c).index] = .error e := by
        rw [hd, examine_rename h ht, he]
        rfl
      rw [List.map_cons, collectQueue, dif_neg (fun hc' => hc (ht.contains.symm.trans hc')),
        dif_pos hlt']
      simp only [hexamine]
      apply Alike.error
  | case4 t c queue hc hlt d found he =>
      rename_i ih
      obtain ⟨hlt', hd⟩ := h.exists_class hlt
      have hexamine : t'.examine l' l'.classes[(ρ.onClass c).index] = .ok (found.rename ρ) := by
        rw [hd, examine_rename h ht, he]
        rfl
      rw [List.map_cons, collectQueue, dif_neg (fun hc' => hc (ht.contains.symm.trans hc')),
        dif_pos hlt']
      simp only [hexamine]
      rw [hd, Found.rename, ← List.map_append]
      apply ih
      apply OrderedMap.IsMapped.insert ht ρ.onClass_injective
  | case5 t c queue hc hlt =>
      rw [List.map_cons, collectQueue, dif_neg (fun hc' => hc (ht.contains.symm.trans hc')),
        dif_neg (h.not_lt_class hlt)]
      apply Alike.error

/-- Classes are collected alike from renamed roots. -/
theorem ClassTable.alike_collect (root : ClassId) :
  Alike (IsRenamed ρ) (collect l root) (collect l' (ρ.onClass root))
  := by
  apply alike_collectQueue h _ [root]
  rfl

end Renamed

end CaptureLR

import CaptureLR.Error
import CaptureLR.Language
import CaptureLR.NodeClass

/-!
# Class tables

The classes that matter for a root are those reached from it through matches. They are
collected breadth first; the fields of a class are the properties captured in its pattern, in
the order in which they are met from left to right, each instance of a combinator being
entered once.
-/

namespace CaptureLR

/-! ### The fields of one class -/

/-- What a walk through the pattern of a class has met. -/
structure Found where
  fields : Fields
  /-- The classes that matches refer to, in the order of the matches. -/
  classes : List ClassId
deriving DecidableEq, Inhabited

namespace Found

/-- The finds with a property that is captured. -/
def addProp (className : String) (isArray : Bool) (f : Found) (prop : String) :
    Except BuildError Found :=
  match f.fields.get? prop with
  | none => .ok { f with fields := f.fields.insert prop isArray }
  | some b => if b = isArray then .ok f else .error (.fieldMismatch className prop)

/-- The finds with a target of a match. -/
def addTarget (className : String) (f : Found) : Option Target → Except BuildError Found
  | none => .error (.uninitializedMatch s!"class \"{className}\"")
  | some (.nodeClass c) => .ok { f with classes := f.classes ++ [c] }
  | some (.pattern _) => .ok f

/-- The finds with what stands directly in a combinator. -/
def addCombinator (className : String) (f : Found) (c : Combinator) : Except BuildError Found :=
  match c.shape with
  | .capture m =>
      match m.prop with
      | some prop => do
          let f ← f.addProp className m.isArray prop
          f.addTarget className m.target
      | none => f.addTarget className m.target
  | _ => .ok f

end Found

/-- The number of indices below a bound that a set of instances lacks. -/
def missingCount (bound : Nat) (visited : OrderedSet CombinatorId) : Nat :=
  ((List.range bound).filter (fun i => decide (⟨i⟩ ∉ visited))).length

/-- Filtering by a stricter condition that fails for a kept member leaves fewer members. -/
theorem length_filter_lt {α : Type} {p q : α → Bool} {l : List α} (h : ∀ x, q x = true → p x = true)
    {a : α} (ha : a ∈ l) (hp : p a = true) (hq : q a = false) :
  (l.filter q).length < (l.filter p).length
  := by
  have hle : ∀ l : List α, (l.filter q).length ≤ (l.filter p).length := by
    intro l
    induction l with
    | nil => apply Nat.le_refl
    | cons x xs ih =>
        by_cases hx : q x = true
        · simp [hx, h x hx, ih]
        · rw [List.filter_cons_of_neg hx, List.filter_cons]
          split
          · apply Nat.le_succ_of_le ih
          · apply ih
  induction l with
  | nil => cases ha
  | cons x xs ih =>
      rcases List.mem_cons.mp ha with rfl | ha'
      · rw [List.filter_cons_of_neg (by simp [hq]), List.filter_cons_of_pos hp, List.length_cons]
        apply Nat.lt_succ_of_le (hle xs)
      · by_cases hx : q x = true
        · simp [hx, h x hx, ih ha']
        · rw [List.filter_cons_of_neg hx, List.filter_cons]
          split
          · apply Nat.lt_succ_of_lt (ih ha')
          · apply ih ha'

/-- Visiting one more instance leaves fewer to visit. -/
theorem missingCount_insert_lt {bound : Nat} {visited : OrderedSet CombinatorId} {id : CombinatorId}
    (hid : id.index < bound) (h : id ∉ visited) :
  missingCount bound (visited.insert id) < missingCount bound visited
  := by
  apply length_filter_lt (a := id.index)
  · intro i hi
    simp only [decide_eq_true_eq, OrderedSet.mem_insert, not_or] at hi ⊢
    apply hi.1
  · apply List.mem_range.mpr hid
  · simpa using h
  · simp

/-- Walks through the patterns of a stack and what they are made of, from left to right. -/
def Language.walk (l : Language) (className : String) (visited : OrderedSet CombinatorId)
    (found : Found) : List Pattern → Except BuildError Found
  | [] => .ok found
  | .literal _ :: stack => walk l className visited found stack
  | .sequence items :: stack => walk l className visited found (items ++ stack)
  | .combinator id :: stack =>
      if hv : id ∈ visited then walk l className visited found stack
      else if hid : id.index < l.combinators.size then
        let c := l.combinators[id.index]
        match found.addCombinator className c with
        | .error e => .error e
        | .ok found => walk l className (visited.insert id) found (c.parts ++ stack)
      else walk l className visited found stack
termination_by stack => (missingCount l.combinators.size visited, Pattern.weightList stack)
decreasing_by
  · apply Prod.Lex.right
    simp only [Pattern.weightList, Pattern.weight]
    omega
  · apply Prod.Lex.right
    rw [Pattern.weightList_append]
    simp only [Pattern.weightList, Pattern.weight]
    omega
  · apply Prod.Lex.right
    simp only [Pattern.weightList, Pattern.weight]
    omega
  · apply Prod.Lex.left
    apply missingCount_insert_lt hid hv
  · apply Prod.Lex.right
    simp only [Pattern.weightList, Pattern.weight]
    omega

/-! ### The table -/

/-- The classes reached from a root, in the order in which they were discovered. -/
structure ClassTable where
  classes : OrderedMap ClassId NodeClass
deriving DecidableEq, Inhabited

namespace ClassTable

/-- The table without classes. -/
def empty : ClassTable := ⟨∅⟩

/-- A class of the table. -/
def get? (t : ClassTable) (c : ClassId) : Option NodeClass := t.classes.get? c

/-- The class of a name. -/
def byName? (t : ClassTable) (name : String) : Option NodeClass :=
  t.classes.values.find? (fun c => decide (c.name = name))

/-- The number of classes. -/
def size (t : ClassTable) : Nat := t.classes.size

/-- The number of indices below a bound that the table has no class for. -/
def missing (bound : Nat) (t : ClassTable) : Nat :=
  ((List.range bound).filter (fun i => !t.classes.contains ⟨i⟩)).length

theorem missing_insert_lt {bound : Nat} {t : ClassTable} {c : ClassId} {n : NodeClass}
    (hc : c.index < bound) (h : t.classes.contains c = false) :
  missing bound ⟨t.classes.insert c n⟩ < missing bound t
  := by
  apply length_filter_lt (a := c.index)
  · intro i hi
    simp only [OrderedMap.contains, OrderedMap.get?_insert, Bool.not_eq_true'] at hi ⊢
    split at hi
    · cases hi
    · apply hi
  · apply List.mem_range.mpr hc
  · simpa using h
  · simp [OrderedMap.contains]

/-- The fields of a class and the classes its matches refer to, if the class can be used beside
those of the table. -/
def examine (l : Language) (t : ClassTable) (d : ClassDecl) : Except BuildError Found :=
  match d.pattern with
  | none => .error (.undefinedClass d.name)
  | some p =>
      if (t.byName? d.name).isSome then .error (.duplicateClassName d.name)
      else l.walk d.name ∅ ⟨∅, []⟩ [p]

/-- The table with the classes of a queue and all that are reached from them. -/
def collectQueue (l : Language) (t : ClassTable) : List ClassId → Except BuildError ClassTable
  | [] => .ok t
  | c :: queue =>
      if hc : t.classes.contains c = true then collectQueue l t queue
      else if h : c.index < l.classes.size then
        let d := l.classes[c.index]
        match t.examine l d with
        | .error e => .error e
        | .ok found =>
            collectQueue l ⟨t.classes.insert c ⟨c, d.name, d.hidden, found.fields⟩⟩
              (queue ++ found.classes)
      else .error (.undefinedClass c.display)
termination_by queue => (missing l.classes.size t, queue.length)
decreasing_by
  · apply Prod.Lex.right
    apply Nat.lt_succ_self
  · apply Prod.Lex.left
    apply missing_insert_lt h
    simpa using hc

/-- Collects the classes reached from a root. -/
def collect (l : Language) (root : ClassId) : Except BuildError ClassTable :=
  collectQueue l empty [root]

end ClassTable

end CaptureLR

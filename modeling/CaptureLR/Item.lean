import CaptureLR.Grammar.First

/-!
# Items

An item is a rule with a dot in its expansion and the context that may follow the rule. Its
core is the rule and the dot. Items of one core are kept together, their contexts united.
-/

namespace CaptureLR

/-- A rule with a dot in its expansion. -/
structure Core where
  rule : Nat
  /-- The number of symbols before the dot. -/
  dot : Nat
deriving DecidableEq, Inhabited, Repr

namespace Core

/-- The order of items: smaller rules first, and of one rule the later dot first. -/
def le (a b : Core) : Bool :=
  decide (a.rule < b.rule) || (decide (a.rule = b.rule) && decide (b.dot ≤ a.dot))

/-- How two cores compare in the order of items. -/
def compare (a b : Core) : Ordering :=
  (Ord.compare a.rule b.rule).then (Ord.compare b.dot a.dot)

/-- The symbol behind the dot, or nothing if the dot is at the end. -/
def symbol? (g : Grammar) (c : Core) : Option Symbol := (g.expansion c.rule)[c.dot]?

/-- The core with the dot one symbol further. -/
def advance (c : Core) : Core := ⟨c.rule, c.dot + 1⟩

end Core

/-- A core with the context that may follow its rule. -/
structure Item where
  core : Core
  follow : Context
deriving DecidableEq, Inhabited

namespace Item

/-- The symbol behind the dot, or nothing for a complete item. -/
def symbol? (g : Grammar) (i : Item) : Option Symbol := i.core.symbol? g

/-- What can follow the symbol behind the dot. -/
def followAt (g : Grammar) (i : Item) : Context :=
  g.firstOf i.follow ((g.expansion i.core.rule).drop (i.core.dot + 1))

/-- The item with the dot one symbol further. -/
def advance (i : Item) : Item := ⟨i.core.advance, i.follow⟩

/-- A context as messages show it. -/
def describeFollow (follow : Context) : String :=
  if follow.isEmpty then "∅" else ", ".intercalate (follow.toList.map Lookahead.display)

/-- An item as messages show it. -/
def describe (g : Grammar) (i : Item) : String :=
  g.name (g.head i.core.rule) ++ " -> "
    ++ g.describeExpansion (g.expansion i.core.rule) (some i.core.dot)
    ++ "   \x7b " ++ describeFollow i.follow ++ " \x7d"

end Item

/-! ### Lists of items -/

/-- The items with one more: its context joins that of the item with the same core, or it
comes last. -/
def addItem (item : Item) : List Item → List Item
  | [] => [item]
  | i :: is =>
      if i.core = item.core then ⟨i.core, i.follow ∪ item.follow⟩ :: is
      else i :: addItem item is

/-- The items with one more, in front of the first whose core does not come before its own. -/
def placeItem (item : Item) : List Item → List Item
  | [] => [item]
  | i :: is => if item.core.le i.core then item :: i :: is else i :: placeItem item is

/-- The items in the order of their cores; items of one core keep their order. -/
def sortItems (items : List Item) : List Item := items.foldr placeItem []

/-- The cores of a list of items. -/
def coresOf (items : List Item) : List Core := items.map Item.core

/-- The core is among the cores after an item is added exactly if it was there or is added. -/
theorem mem_cores_addItem {item : Item} {items : List Item} {c : Core} :
  c ∈ coresOf (addItem item items) ↔ c ∈ coresOf items ∨ c = item.core
  := by
  induction items with
  | nil => simp [addItem, coresOf]
  | cons i is ih =>
      unfold addItem
      by_cases h : i.core = item.core
      · simp only [if_pos h, coresOf, List.map_cons, List.mem_cons]
        constructor
        · exact Or.inl
        · rintro (h' | rfl)
          · apply h'
          · left
            apply h.symm
      · simp only [if_neg h, coresOf, List.map_cons, List.mem_cons] at ih ⊢
        rw [ih, or_assoc]

end CaptureLR

import CaptureLR.Item

/-!
# Closures

The closure of a list of items has, for every item with a nonterminal behind the dot, an item
for each rule of the nonterminal, with the dot in front and the context that can follow the
nonterminal there. It is computed in passes over a growing list until a pass adds nothing.
-/

namespace CaptureLR

namespace Grammar

/-- The items with those added that an item calls for. -/
def expandItem (g : Grammar) (item : Item) (items : List Item) : List Item :=
  match item.symbol? g with
  | some (.nonterminal n) =>
      let follow := item.followAt g
      (g.rulesFor n).foldl (fun is r => addItem ⟨⟨r, 0⟩, follow⟩ is) items
  | _ => items

/-- The rest of a pass from an index on: every item in turn, those added on the way included,
adds what it calls for. A pass visits no more items than allowed. -/
def scanItems (g : Grammar) : Nat → Nat → List Item → List Item
  | 0, _, items => items
  | fuel + 1, i, items =>
      match items[i]? with
      | none => items
      | some item => scanItems g fuel (i + 1) (g.expandItem item items)

/-- One pass. The closure of a list has no more items than the list and the rules together. -/
def closurePass (g : Grammar) (items : List Item) : List Item :=
  g.scanItems (items.length + g.rules.size) 0 items

/-- Passes until one changes nothing, but no more than allowed. -/
def closurePasses (g : Grammar) : Nat → List Item → List Item
  | 0, items => items
  | n + 1, items =>
      let items' := g.closurePass items
      if items' = items then items else closurePasses g n items'

/-- More passes than can change something: each of them adds an item or enlarges a context, and
a context holds lookaheads of the list, of the rules and of the first sets. -/
def closureBound (g : Grammar) (items : List Item) : Nat :=
  let follows := items.foldr (fun i n => i.follow.size + n) 0
  let lookaheads := follows + g.symbolCount + g.firstCount
  (items.length + g.rules.size) * (lookaheads + 1) + 1

/-- The closure of a list of items, in the order of items. -/
def closure (g : Grammar) (items : List Item) : List Item :=
  sortItems (g.closurePasses (g.closureBound items) items)

end Grammar

end CaptureLR

import CaptureLR.Item.Closure

/-!
# What items call for

The least closure of a list of items, as an inductive definition: the cores that are called for,
and the lookaheads that each of them can be followed by. A core can be called for although no
lookahead can follow it.
-/

namespace CaptureLR

/-- The core of one of the items, or a rule with the dot in front whose head stands behind the
dot of a core that is called for. -/
inductive CalledFor (g : Grammar) (items : List Item) : Core → Prop
  | item {i : Item} (hi : i ∈ items) : CalledFor g items i.core
  | rule {c : Core} {n : Nonterminal} {r : Nat} (hc : CalledFor g items c)
      (hn : c.symbol? g = some (.nonterminal n)) (hr : r ∈ g.rulesFor n) :
      CalledFor g items ⟨r, 0⟩

/-- What can follow the symbol behind the dot of a core, if a lookahead can follow its rule. -/
def Core.followAt (g : Grammar) (c : Core) (l : Lookahead) : Context :=
  Item.followAt g ⟨c, .singleton l⟩

/-- What can follow the symbol behind the dot of a core, if nothing is known to follow its
rule. -/
def Core.firstBehind (g : Grammar) (c : Core) : Context := Item.followAt g ⟨c, ∅⟩

/-- A lookahead that can follow the rule of a core that is called for: one of an item, or one
that can stand behind the head of the rule in a core that is called for. -/
inductive FollowedBy (g : Grammar) (items : List Item) : Core → Lookahead → Prop
  | item {i : Item} {l : Lookahead} (hi : i ∈ items) (hl : l ∈ i.follow) :
      FollowedBy g items i.core l
  | first {c : Core} {n : Nonterminal} {r : Nat} {l : Lookahead} (hc : CalledFor g items c)
      (hn : c.symbol? g = some (.nonterminal n)) (hr : r ∈ g.rulesFor n)
      (hl : l ∈ c.firstBehind g) :
      FollowedBy g items ⟨r, 0⟩ l
  | passed {c : Core} {n : Nonterminal} {r : Nat} {l l' : Lookahead}
      (hc : FollowedBy g items c l) (hn : c.symbol? g = some (.nonterminal n))
      (hr : r ∈ g.rulesFor n) (hl : l' ∈ c.followAt g l) :
      FollowedBy g items ⟨r, 0⟩ l'

/-- A core that can be followed by something is called for. -/
theorem FollowedBy.calledFor
    {g : Grammar} {items : List Item} {c : Core} {l : Lookahead} (h : FollowedBy g items c l) :
  CalledFor g items c
  := by
  induction h with
  | item hi _ => exact .item hi
  | first hc hn hr _ => exact .rule hc hn hr
  | passed _ hn hr _ ih => exact .rule ih hn hr

namespace Grammar

/-- What can stand first in a sequence comes from the sequence itself, or it is of the context
behind a sequence through which the context can be seen. -/
theorem mem_firstOf_iff
    {g : Grammar} {follow : Context} {ss : List Symbol} {l : Lookahead} :
  l ∈ g.firstOf follow ss
    ↔ l ∈ g.firstOf ∅ ss ∨ (l ∈ follow ∧ .endOfInput ∈ g.firstOf endContext ss)
  := by
  induction ss with
  | nil =>
      simp only [firstOf]
      constructor
      · intro h
        exact Or.inr ⟨h, List.mem_singleton.mpr rfl⟩
      · rintro (h | h)
        · cases h
        · apply h.1
  | cons s ss ih =>
      cases s with
      | terminal t =>
          simp only [firstOf]
          constructor
          · exact Or.inl
          · rintro (h | ⟨_, h⟩)
            · apply h
            · cases List.mem_singleton.mp h
      | nonterminal n =>
          simp only [firstOf]
          cases g.first? n with
          | none =>
              simp only
              constructor
              · exact Or.inl
              · rintro (h | ⟨_, h⟩)
                · apply h
                · cases h
          | some f =>
              simp only
              by_cases hf : .endOfInput ∈ f
              · simp only [if_pos hf, OrderedSet.mem_union, OrderedSet.mem_filter]
                rw [ih]
                have he : ¬ (.endOfInput ∈ f ∧ decide (Lookahead.endOfInput ≠ .endOfInput) = true) := by
                  simp
                constructor
                · rintro (h | h | ⟨h, h'⟩)
                  · left
                    left
                    apply h
                  · left
                    right
                    apply h
                  · exact Or.inr ⟨h, Or.inr h'⟩
                · rintro ((h | h) | ⟨h, h' | h'⟩)
                  · left
                    apply h
                  · right
                    left
                    apply h
                  · exact (he h').elim
                  · right
                    right
                    exact ⟨h, h'⟩
              · simp only [if_neg hf, OrderedSet.mem_filter]
                constructor
                · exact Or.inl
                · rintro (h | ⟨_, h⟩)
                  · apply h
                  · simp at h

end Grammar

end CaptureLR

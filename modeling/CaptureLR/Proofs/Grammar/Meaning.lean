import CaptureLR.Grammar.Derivation
import CaptureLR.Proofs.Grammar.Assembled

/-!
# Meanings of nonterminals

What a nonterminal generates is decided by the expansions of its rules. If some meaning is given
to every nonterminal, a sequence of symbols spells sequences of terminals, and a meaning that holds
whatever the expansions spell holds all that is generated.
-/

namespace CaptureLR

namespace Grammar

variable {g : Grammar} {n : Nonterminal} {ss ss' : List Symbol} {w : List Terminal}

/-! ### Expansions -/

/-- The expansions of the rules of a nonterminal, in the order of the rules. -/
def expansionsOf (g : Grammar) (n : Nonterminal) : List (List Symbol) :=
  (g.rulesFor n).map g.expansion

theorem mem_expansionsOf {e : List Symbol} :
  e ∈ g.expansionsOf n ↔ ∃ r ∈ g.rulesFor n, g.expansion r = e
  := List.mem_map

theorem expansionsOf_nextNonterminal (g : Grammar) :
  g.expansionsOf g.nextNonterminal = []
  := by
  rw [expansionsOf, rulesFor, info?_nextNonterminal, List.map_nil]

theorem expansionsOf_addNonterminal (g : Grammar) (name : String) (capture : Option Capture)
    (n : Nonterminal) :
  (g.addNonterminal name capture).expansionsOf n = g.expansionsOf n
  := by
  rw [expansionsOf, rulesFor_addNonterminal]
  rfl

theorem expansionsOf_computeFirst (g : Grammar) (n : Nonterminal) :
  g.computeFirst.expansionsOf n = g.expansionsOf n
  := by
  have hsame := sameRules_computeFirst g
  have hexpansion : g.computeFirst.expansion = g.expansion := by
    funext r
    rw [expansion, hsame.rules, expansion]
  rw [expansionsOf, hsame.rulesFor, hexpansion, expansionsOf]

/-- Rules that exist keep their expansions when another one is added. -/
theorem map_expansion_addRule (head : Nonterminal) (e : List Symbol) {rs : List Nat}
    (h : ∀ r ∈ rs, r < g.rules.size) :
  rs.map (g.addRule head e).expansion = rs.map g.expansion
  := by
  apply List.map_congr_left
  intro r hr
  have hlt := h r hr
  rw [expansion, addRule, Array.getElem?_push_lt hlt, ← Array.getElem?_eq_getElem hlt, expansion]

theorem expansionsOf_addRule_self (hg : g.ListsRules) (hn : n.index < g.nonterminals.size)
    (e : List Symbol) :
  (g.addRule n e).expansionsOf n = g.expansionsOf n ++ [e]
  := by
  have hinfo : g.info? n = some g.nonterminals[n.index] := Array.getElem?_eq_getElem hn
  have hrules : (g.addRule n e).rulesFor n = g.rulesFor n ++ [g.rules.size] := by
    rw [rulesFor, rulesFor, info?_addRule, hinfo, Option.map_some, if_pos rfl]
  have hnew : (g.addRule n e).expansion g.rules.size = e := by
    rw [expansion, addRule, Array.getElem?_push_size]
  rw [expansionsOf, hrules, List.map_append, map_expansion_addRule n e (hg n), List.map_singleton,
    hnew, expansionsOf]

theorem expansionsOf_addRule_of_ne (hg : g.ListsRules) {head : Nonterminal} (h : n ≠ head)
    (e : List Symbol) :
  (g.addRule head e).expansionsOf n = g.expansionsOf n
  := by
  have hrules : (g.addRule head e).rulesFor n = g.rulesFor n := by
    rw [rulesFor, rulesFor, info?_addRule]
    cases g.info? n with
    | none => rfl
    | some i => rw [Option.map_some, if_neg h.symm]
  rw [expansionsOf, hrules, map_expansion_addRule head e (hg n), expansionsOf]

/-- A nonterminal generates what one of its expansions generates. -/
theorem generates_nonterminal_iff :
  g.Generates [.nonterminal n] w ↔ ∃ e ∈ g.expansionsOf n, g.Generates e w
  := by
  constructor
  · intro h
    cases h with
    | nonterminal hr hu hv =>
        cases hv
        rw [List.append_nil]
        exact ⟨_, mem_expansionsOf.mpr ⟨_, hr, rfl⟩, hu⟩
  · rintro ⟨e, he, h⟩
    obtain ⟨r, hr, rfl⟩ := mem_expansionsOf.mp he
    rw [← List.append_nil w]
    apply Generates.nonterminal hr h .nil

/-! ### Meanings -/

/-- A sequence of symbols spells a sequence of terminals: each terminal itself, and each nonterminal
something that it means. -/
inductive Spells (means : Nonterminal → List Terminal → Prop) : List Symbol → List Terminal → Prop
  | nil : Spells means [] []
  | terminal {t : Terminal} {ss : List Symbol} {w : List Terminal} (h : Spells means ss w) :
      Spells means (.terminal t :: ss) (t :: w)
  | nonterminal {n : Nonterminal} {ss : List Symbol} {u v : List Terminal} (hu : means n u)
      (hv : Spells means ss v) :
      Spells means (.nonterminal n :: ss) (u ++ v)

section Spells

variable {means : Nonterminal → List Terminal → Prop}

/-- What two sequences spell together falls into what each of them spells. -/
theorem Spells.exists_append (h : Spells means (ss ++ ss') w) :
  ∃ u v, w = u ++ v ∧ Spells means ss u ∧ Spells means ss' v
  := by
  induction ss generalizing w with
  | nil => exact ⟨[], w, rfl, .nil, h⟩
  | cons s ss ih =>
      cases h with
      | terminal h =>
          obtain ⟨u, v, rfl, hu, hv⟩ := ih h
          exact ⟨_, v, rfl, .terminal hu, hv⟩
      | nonterminal hx h =>
          obtain ⟨u, v, rfl, hu, hv⟩ := ih h
          exact ⟨_, v, (List.append_assoc ..).symm, .nonterminal hx hu, hv⟩

theorem spells_singleton_iff :
  Spells means [.nonterminal n] w ↔ means n w
  := by
  constructor
  · intro h
    cases h with
    | nonterminal hu hv =>
        cases hv
        rw [List.append_nil]
        apply hu
  · intro h
    rw [← List.append_nil w]
    apply Spells.nonterminal h .nil

/-- What is generated is spelled, if nonterminals mean whatever their expansions spell. -/
theorem Generates.spells (h : g.Generates ss w)
    (hmeans : ∀ n, ∀ e ∈ g.expansionsOf n, ∀ w, Spells means e w → means n w) :
  Spells means ss w
  := by
  induction h with
  | nil => exact .nil
  | terminal _ ih => exact .terminal ih
  | nonterminal hr _ _ ihu ihv =>
      exact .nonterminal (hmeans _ _ (mem_expansionsOf.mpr ⟨_, hr, rfl⟩) _ ihu) ihv

end Spells

end Grammar

end CaptureLR

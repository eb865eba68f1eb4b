import CaptureLR.Item.Called
import CaptureLR.Proofs.Grammar.First

/-!
# What leads a sequence of symbols

First sets are the least sets that have what the rules of each nonterminal begin with. So a
terminal that can stand first in a sequence of symbols does so in a derivation, and a sequence
that the context behind it can be seen through generates nothing at all. The converse holds once
the first sets are at rest.
-/

namespace CaptureLR

namespace Grammar

variable {g g' : Grammar} {n : Nonterminal} {r : Nat} {ss : List Symbol} {t : Terminal}
  {l : Lookahead}

/-! ### First sets are least -/

/-- What opens a sequence of symbols if it is known what opens the nonterminals: a terminal, or the
end of the input if all symbols can be passed. -/
inductive Opens (first : Nonterminal → Lookahead → Prop) : List Symbol → Lookahead → Prop
  | nil : Opens first [] .endOfInput
  | terminal (t : Terminal) (ss : List Symbol) : Opens first (.terminal t :: ss) (.terminal t)
  | inside {n : Nonterminal} {t : Terminal} (h : first n (.terminal t)) (ss : List Symbol) :
      Opens first (.nonterminal n :: ss) (.terminal t)
  | past {n : Nonterminal} {ss : List Symbol} {l : Lookahead} (hn : first n .endOfInput)
      (h : Opens first ss l) :
      Opens first (.nonterminal n :: ss) l

/-- Something holds of all that is in the first sets. -/
def FirstHave (g : Grammar) (first : Nonterminal → Lookahead → Prop) : Prop :=
  ∀ (n : Nonterminal) (i : NonterminalInfo) (l : Lookahead),
    g.info? n = some i → l ∈ i.first → first n l

/-- Rules of registered nonterminals add nothing to what is known to open nonterminals. -/
def ClosedUnder (g : Grammar) (first : Nonterminal → Lookahead → Prop) : Prop :=
  ∀ r ∈ g.rules.toList, (g.info? r.head).isSome → ∀ l, Opens first r.expansion l → first r.head l

section Least

variable {first : Nonterminal → Lookahead → Prop}

theorem FirstHave.opens (h : g.FirstHave first) (hl : l ∈ g.firstOf endContext ss) :
  Opens first ss l
  := by
  induction ss with
  | nil =>
      obtain rfl : l = .endOfInput := List.mem_singleton.mp hl
      apply Opens.nil
  | cons s ss ih =>
      cases s with
      | terminal t =>
          obtain rfl : l = .terminal t := List.mem_singleton.mp hl
          apply Opens.terminal
      | nonterminal n =>
          rw [firstOf, first?] at hl
          cases hi : g.info? n with
          | none =>
              rw [hi] at hl
              cases hl
          | some i =>
              simp only [hi, Option.map_some] at hl
              have hinside : l ∈ i.first.filter (· ≠ .endOfInput) →
                  Opens first (.nonterminal n :: ss) l := by
                intro hl
                obtain ⟨hl, hne⟩ := OrderedSet.mem_filter.mp hl
                cases l with
                | terminal t => exact .inside (h n i _ hi hl) ss
                | endOfInput => simp at hne
              split at hl
              · next hend =>
                rcases OrderedSet.mem_union.mp hl with hl | hl
                · apply hinside hl
                · apply Opens.past (h n i _ hi hend) (ih hl)
              · apply hinside hl

theorem FirstHave.enlargeFirst (h : g.FirstHave first) {head : Nonterminal} {c : Context}
    (hc : (g.info? head).isSome → ∀ l ∈ c, first head l) :
  (g.enlargeFirst head c).FirstHave first
  := by
  intro n i l hi hl
  rw [info?_enlargeFirst] at hi
  obtain ⟨j, hj, rfl⟩ := Option.map_eq_some_iff.mp hi
  split at hl
  · next heq =>
    subst heq
    rcases OrderedSet.mem_union.mp hl with hl | hl
    · apply h head j l hj hl
    · apply hc _ l hl
      rw [hj, Option.isSome_some]
  · apply h n j l hj hl

theorem SameRules.isSome_info? (h : SameRules g g') (n : Nonterminal) :
  (g'.info? n).isSome = (g.info? n).isSome
  := by
  rw [Bool.eq_iff_iff, info?, info?, Option.isSome_iff_ne_none, Option.isSome_iff_ne_none, Ne, Ne,
    Array.getElem?_eq_none_iff, Array.getElem?_eq_none_iff, h.size]

theorem ClosedUnder.firstPass (hclosed : g.ClosedUnder first) (hsame : SameRules g g')
    (h : g'.FirstHave first) :
  SameRules g g'.firstPass ∧ g'.firstPass.FirstHave first
  := by
  have hr : ∀ r ∈ g'.rules.toList, r ∈ g.rules.toList := by
    rw [hsame.rules]
    exact fun _ => id
  rw [firstPass_eq]
  revert hr
  generalize g'.rules.toList = rs
  intro hr
  induction rs generalizing g' with
  | nil => exact ⟨hsame, h⟩
  | cons r rs ih =>
      rw [List.foldl_cons]
      apply ih (hsame.trans (sameRules_enlargeFirst _ _ _))
      · apply h.enlargeFirst
        intro hsome l hl
        rw [hsame.isSome_info?] at hsome
        apply hclosed r (hr r List.mem_cons_self) hsome l (h.opens hl)
      · intro r' hr'
        apply hr r' (List.mem_cons_of_mem _ hr')

/-- First sets are least: what they hold is of every family of sets that is closed under the
rules. -/
theorem Assembled.firstHave (hg : g.Assembled) (hclosed : g.ClosedUnder first) :
  g.FirstHave first
  := by
  induction hg with
  | empty =>
      rintro ⟨_ | i⟩ i' l hi hl
      · cases hi
        cases hl
      · cases hi
  | @addNonterminal g _ name capture ih =>
      have hsome : ∀ n, (g.info? n).isSome → ((g.addNonterminal name capture).info? n).isSome := by
        intro n hn
        rw [info?_addNonterminal]
        split
        · rfl
        · apply hn
      intro n i l hi hl
      rw [info?_addNonterminal] at hi
      split at hi
      · cases hi
        cases hl
      · apply ih (fun r hr hhead => hclosed r hr (hsome _ hhead)) n i l hi hl
  | @addRule g _ head expansion ih =>
      have hsome : ∀ n, ((g.addRule head expansion).info? n).isSome = (g.info? n).isSome := by
        intro n
        rw [info?_addRule, Option.isSome_map]
      have hold : g.ClosedUnder first := by
        intro r hr hhead
        rw [← hsome] at hhead
        apply hclosed r _ hhead
        rw [Grammar.addRule, Array.toList_push]
        apply List.mem_append_left _ hr
      intro n i l hi hl
      rw [info?_addRule] at hi
      obtain ⟨j, hj, rfl⟩ := Option.map_eq_some_iff.mp hi
      apply ih hold n j l hj
      split at hl <;> apply hl
  | @computeFirst g _ ih =>
      have hsame := sameRules_computeFirst g
      have hold : g.ClosedUnder first := by
        intro r hr hhead
        rw [← hsame.rules] at hr
        rw [← hsame.isSome_info?] at hhead
        apply hclosed r hr hhead
      have hpasses : SameRules g g.computeFirst ∧ g.computeFirst.FirstHave first :=
        passes_induction (fun _ => rfl) firstPasses_succ
          (P := fun g' => SameRules g g' ∧ g'.FirstHave first)
          (fun g' h => hold.firstPass h.1 h.2) _ ⟨SameRules.refl g, ih hold⟩
      apply hpasses.2

end Least

/-! ### Leading terminals -/

/-- A terminal comes to stand first in a sequence of symbols: it does, or it does in the expansion
of a nonterminal that stands first, or behind one that generates nothing. -/
inductive Fronts (g : Grammar) : List Symbol → Terminal → Prop
  | terminal (t : Terminal) (ss : List Symbol) : Fronts g (.terminal t :: ss) t
  | inside {n : Nonterminal} {r : Nat} {t : Terminal} (hr : r ∈ g.rulesFor n)
      (h : Fronts g (g.expansion r) t) (ss : List Symbol) :
      Fronts g (.nonterminal n :: ss) t
  | past {n : Nonterminal} {ss : List Symbol} {t : Terminal}
      (hn : g.Generates [.nonterminal n] []) (h : Fronts g ss t) :
      Fronts g (.nonterminal n :: ss) t

/-- What opens a nonterminal in a derivation. -/
def OpensOne (g : Grammar) (n : Nonterminal) : Lookahead → Prop
  | .terminal t => g.Fronts [.nonterminal n] t
  | .endOfInput => g.Generates [.nonterminal n] []

/-- Nothing is generated by nonterminals in front of what generates nothing. -/
theorem Generates.cons_nil (hn : g.Generates [.nonterminal n] []) (h : g.Generates ss []) :
  g.Generates (.nonterminal n :: ss) []
  := hn.append h

/-- What opens a sequence as derivations have it. -/
theorem Opens.derived (h : Opens g.OpensOne ss l) :
  (∀ t, l = .terminal t → g.Fronts ss t) ∧ (l = .endOfInput → g.Generates ss [])
  := by
  induction h with
  | nil => exact ⟨nofun, fun _ => .nil⟩
  | terminal t ss =>
      refine ⟨?_, nofun⟩
      rintro _ ⟨⟩
      apply Fronts.terminal
  | @inside n t h ss =>
      refine ⟨?_, nofun⟩
      rintro _ ⟨⟩
      cases h with
      | inside hr h => exact .inside hr h ss
      | past _ h => cases h
  | past hn _ ih =>
      constructor
      · intro t ht
        apply Fronts.past hn (ih.1 t ht)
      · intro hl
        apply hn.cons_nil (ih.2 hl)

/-- The rules of a grammar that lists them all add nothing to what derivations open with. -/
theorem ListsAll.closedUnder (h : g.ListsAll) :
  g.ClosedUnder g.OpensOne
  := by
  rintro ⟨n, e⟩ hrule - l hl
  obtain ⟨r, hr⟩ := List.mem_iff_getElem?.mp hrule
  rw [Array.getElem?_toList] at hr
  have hmem : r ∈ g.rulesFor n := h r _ hr
  have hexpansion : g.expansion r = e := by rw [expansion, hr]
  cases l with
  | terminal t =>
      apply Fronts.inside hmem _ []
      rw [hexpansion]
      apply hl.derived.1 t rfl
  | endOfInput =>
      have he : g.Generates (g.expansion r) [] := by
        rw [hexpansion]
        apply hl.derived.2 rfl
      exact .nonterminal hmem he .nil

/-- What stands first in a sequence of symbols comes from the symbols themselves. -/
theorem endOfInput_not_mem_firstOf (g : Grammar) (ss : List Symbol) :
  .endOfInput ∉ g.firstOf ∅ ss
  := by
  induction ss with
  | nil => exact nofun
  | cons s ss ih =>
      intro h
      cases s with
      | terminal t => cases List.mem_singleton.mp h
      | nonterminal n =>
          rw [firstOf] at h
          split at h
          · cases h
          · next f _ =>
            have hno : .endOfInput ∉ f.filter (· ≠ .endOfInput) := by
              rw [OrderedSet.mem_filter]
              simp
            simp only at h
            split at h
            · rcases OrderedSet.mem_union.mp h with h | h
              · apply hno h
              · apply ih h
            · apply hno h

section Exact

variable (hg : g.Assembled) (hall : g.ListsAll)

include hg hall

/-- A terminal that can stand first in a sequence comes to stand first in a derivation. -/
theorem exists_fronts_of_mem_firstOf (h : l ∈ g.firstOf ∅ ss) :
  ∃ t, l = .terminal t ∧ g.Fronts ss t
  := by
  cases l with
  | endOfInput => cases g.endOfInput_not_mem_firstOf ss h
  | terminal t =>
      have hopens := (hg.firstHave hall.closedUnder).opens (mem_firstOf_iff.mpr (Or.inl h))
      exact ⟨t, rfl, hopens.derived.1 t rfl⟩

/-- A sequence that a context can be seen through generates nothing. -/
theorem generates_nil_of_mem_firstOf (h : .endOfInput ∈ g.firstOf endContext ss) :
  g.Generates ss []
  := ((hg.firstHave hall.closedUnder).opens h).derived.2 rfl

end Exact

section AtRest

variable (hg : g.Assembled) (hrest : g.firstPass = g)

include hg hrest

/-- At rest, contexts can be seen through sequences that generate nothing. -/
theorem mem_firstOf_of_generates_nil (h : g.Generates ss []) {follow : Context}
    (hl : l ∈ follow) :
  l ∈ g.firstOf follow ss
  := mem_firstOf_of_generates hg hrest h follow hl

/-- At rest, a terminal that comes to stand first in a sequence can stand first in it. -/
theorem Fronts.mem_firstOf (h : g.Fronts ss t) :
  .terminal t ∈ g.firstOf ∅ ss
  := by
  have hinside : ∀ {n : Nonterminal} {i : NonterminalInfo} {ss : List Symbol} {t : Terminal},
      g.info? n = some i → .terminal t ∈ i.first →
      .terminal t ∈ g.firstOf ∅ (.nonterminal n :: ss) := by
    intro n i ss t hi ht
    have hf : .terminal t ∈ i.first.filter (· ≠ .endOfInput) :=
      OrderedSet.mem_filter.mpr ⟨ht, by simp⟩
    rw [firstOf, first?, hi]
    simp only [Option.map_some]
    split
    · apply OrderedSet.mem_union.mpr (Or.inl hf)
    · apply hf
  induction h with
  | terminal t ss => apply List.mem_singleton.mpr rfl
  | @inside n r t hr _ ss ih =>
      obtain ⟨i, hi⟩ := exists_info_of_mem_rulesFor hr
      obtain ⟨e, he⟩ := hg.exists_rule hr
      rw [expansion, he] at ih
      apply hinside hi
      apply mem_first_of_rest hrest (Array.mem_toList_iff.mpr (Array.mem_of_getElem? he)) hi
      apply mem_firstOf_iff.mpr (Or.inl ih)
  | @past n ss t hn _ ih =>
      have hpast : .terminal t ∈ g.firstOf (g.firstOf ∅ ss) [.nonterminal n] :=
        mem_firstOf_of_generates_nil hg hrest hn ih
      rw [firstOf] at hpast ⊢
      split at hpast
      · cases hpast
      · next f hf =>
        simp only [firstOf] at hpast ⊢
        apply hpast

end AtRest

end Grammar

end CaptureLR

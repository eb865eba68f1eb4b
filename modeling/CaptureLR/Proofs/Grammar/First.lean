import CaptureLR.Automaton
import CaptureLR.Grammar.Derivation
import CaptureLR.Proofs.Grammar.Assembled

/-!
# First sets at rest

The passes that compute first sets are enough to come to a rest. At rest, what a sequence of
symbols generates begins with a lookahead of the sequence; if it generates nothing at all, the
whole context behind it is seen.
-/

namespace CaptureLR

namespace Grammar

/-! ### Where lookaheads come from -/

/-- The lookaheads that rules and first sets mention. -/
def mentioned (g : Grammar) : List Lookahead :=
  g.rules.toList.flatMap (fun r => r.expansion.filterMap (fun
    | .terminal t => some (Lookahead.terminal t)
    | .nonterminal _ => none))
  ++ g.nonterminals.toList.flatMap (fun i => i.first.toList)

theorem mem_mentioned {g : Grammar} {l : Lookahead} :
  l ∈ g.mentioned
    ↔ (∃ r ∈ g.rules.toList, ∃ t, .terminal t ∈ r.expansion ∧ l = .terminal t)
      ∨ ∃ i ∈ g.nonterminals.toList, l ∈ i.first
  := by
  rw [mentioned, List.mem_append, List.mem_flatMap, List.mem_flatMap]
  apply or_congr_left
  apply exists_congr
  intro r
  apply and_congr_right
  intro _
  rw [List.mem_filterMap]
  constructor
  · rintro ⟨s, hs, h⟩
    cases s with
    | terminal t => exact ⟨t, hs, (Option.some.inj h).symm⟩
    | nonterminal n => cases h
  · rintro ⟨t, ht, rfl⟩
    use .terminal t, ht

theorem symbolCount_eq (g : Grammar) :
  g.symbolCount = (g.rules.toList.map (fun r => r.expansion.length)).sum
  := foldr_add_eq_sum _ _

theorem firstCount_eq (g : Grammar) :
  g.firstCount = (g.nonterminals.toList.map (fun i => i.first.size)).sum
  := foldr_add_eq_sum _ _

theorem length_mentioned_le (g : Grammar) :
  g.mentioned.length ≤ g.symbolCount + g.firstCount
  := by
  rw [mentioned, List.length_append, List.length_flatMap, List.length_flatMap, symbolCount_eq,
    firstCount_eq]
  apply Nat.add_le_add_right
  apply List.sum_le_sum
  intro r _
  apply List.length_filterMap_le

/-- The lookaheads of a grammar are those mentioned and the end of the input. -/
theorem mem_lookaheads {g : Grammar} {l : Lookahead} :
  l ∈ g.lookaheads ↔ l = .endOfInput ∨ l ∈ g.mentioned
  := by
  have h : l ∈ endContext.insertMany g.mentioned ↔ l ∈ endContext ∨ l ∈ g.mentioned :=
    OrderedSet.mem_insertMany
  have he : l ∈ endContext ↔ l = .endOfInput := List.mem_singleton
  rwa [he] at h

theorem size_lookaheads_le (g : Grammar) :
  g.lookaheads.size ≤ g.symbolCount + g.firstCount + 1
  := by
  have h : g.lookaheads.size ≤ (.endOfInput :: g.mentioned).length := by
    apply OrderedSet.size_le_of_subset
    intro l hl
    apply List.mem_cons.mpr
    apply mem_lookaheads.mp hl
  have := g.length_mentioned_le
  rw [List.length_cons] at h
  omega

/-- What can stand first in a sequence of symbols comes from the context behind it, is one of
its terminals or is of a first set. -/
theorem mem_of_mem_firstOf {g : Grammar} {follow : Context} {ss : List Symbol} {l : Lookahead}
    (h : l ∈ g.firstOf follow ss) :
  l ∈ follow ∨ (∃ t, .terminal t ∈ ss ∧ l = .terminal t) ∨ ∃ i ∈ g.nonterminals.toList, l ∈ i.first
  := by
  induction ss with
  | nil =>
      left
      apply h
  | cons s ss ih =>
      cases s with
      | terminal t =>
          right
          left
          use t, List.mem_cons_self, List.mem_singleton.mp h
      | nonterminal n =>
          simp only [firstOf, first?] at h
          cases hn : g.info? n with
          | none =>
              rw [hn] at h
              cases h
          | some i =>
              rw [hn] at h
              have hi : i ∈ g.nonterminals.toList := Array.mem_toList_iff.mpr (Array.mem_of_getElem? hn)
              simp only [Option.map_some] at h
              split at h
              · rcases OrderedSet.mem_union.mp h with h | h
                · right
                  right
                  exact ⟨i, hi, (OrderedSet.mem_filter.mp h).1⟩
                · rcases ih h with h | ⟨t, ht, h⟩ | h
                  · left
                    apply h
                  · right
                    left
                    exact ⟨t, List.mem_cons_of_mem _ ht, h⟩
                  · right
                    right
                    apply h
              · right
                right
                exact ⟨i, hi, (OrderedSet.mem_filter.mp h).1⟩

/-! ### The passes come to a rest -/

theorem growsTo_enlargeFirst (g : Grammar) (n : Nonterminal) (c : Context) :
  GrowsTo firstCount g (g.enlargeFirst n c)
  := by
  obtain ⟨rules, nonterminals⟩ := g
  have hf : ∀ i : NonterminalInfo,
      GrowsTo (fun i => i.first.size) i { i with first := i.first ∪ c } := by
    intro i
    rcases OrderedSet.growsTo_union i.first c with h | h
    · exact Or.inl (by rw [h])
    · right
      apply h
  rcases growsTo_modify hf nonterminals.toList n.index with h | h
  · left
    rw [← Array.toList_modify] at h
    rw [enlargeFirst, Array.toList_inj.mp h]
  · right
    rw [← Array.toList_modify] at h
    rw [firstCount_eq, firstCount_eq]
    apply h

theorem growsTo_firstPass (g : Grammar) :
  GrowsTo firstCount g g.firstPass
  := by
  rw [firstPass_eq]
  apply GrowsTo.foldl
  intro g' r
  apply growsTo_enlargeFirst

/-- The first sets hold nothing but lookaheads of another grammar of the same rules. -/
structure FirstWithin (g g' : Grammar) : Prop where
  same : SameRules g g'
  mem_lookaheads : ∀ i ∈ g'.nonterminals.toList, ∀ l ∈ i.first, l ∈ g.lookaheads

theorem FirstWithin.enlargeFirst {g g' : Grammar} (h : FirstWithin g g') (n : Nonterminal)
    {c : Context} (hc : ∀ l ∈ c, l ∈ g.lookaheads) :
  FirstWithin g (g'.enlargeFirst n c)
  where
  same := h.same.trans (sameRules_enlargeFirst g' n c)
  mem_lookaheads i hi l hl := by
    obtain ⟨k, hk⟩ := List.mem_iff_getElem?.mp hi
    rw [Array.getElem?_toList, Grammar.enlargeFirst, Array.getElem?_modify] at hk
    obtain ⟨j, hj, hi⟩ : ∃ j, g'.nonterminals[k]? = some j
        ∧ i = if n.index = k then { j with first := j.first ∪ c } else j := by
      by_cases h : n.index = k
      · rw [if_pos h] at hk
        obtain ⟨j, hj, hi⟩ := Option.map_eq_some_iff.mp hk
        exact ⟨j, hj, by rw [if_pos h, hi]⟩
      · rw [if_neg h] at hk
        exact ⟨i, hk, by rw [if_neg h]⟩
    have hj' : j ∈ g'.nonterminals.toList := Array.mem_toList_iff.mpr (Array.mem_of_getElem? hj)
    rw [hi] at hl
    split at hl
    · rcases OrderedSet.mem_union.mp hl with hl | hl
      · apply h.mem_lookaheads j hj' l hl
      · apply hc l hl
    · apply h.mem_lookaheads j hj' l hl

theorem FirstWithin.firstPass {g g' : Grammar} (h : FirstWithin g g') :
  FirstWithin g g'.firstPass
  := by
  have hr : ∀ r ∈ g'.rules.toList, r ∈ g.rules.toList := by
    rw [h.same.rules]
    exact fun _ => id
  rw [firstPass_eq]
  revert hr
  generalize g'.rules.toList = rs
  intro hr
  induction rs generalizing g' with
  | nil => apply h
  | cons r rs ih =>
      rw [List.foldl_cons]
      apply ih
      · apply h.enlargeFirst
        intro l hl
        rcases mem_of_mem_firstOf hl with hl | ⟨t, ht, rfl⟩ | ⟨i, hi, hl⟩
        · apply Grammar.mem_lookaheads.mpr (Or.inl (List.mem_singleton.mp hl))
        · apply Grammar.mem_lookaheads.mpr
          right
          apply mem_mentioned.mpr
          exact Or.inl ⟨r, hr r List.mem_cons_self, t, ht, rfl⟩
        · apply h.mem_lookaheads i hi l hl
      · intro r' hr'
        apply hr r' (List.mem_cons_of_mem _ hr')

theorem FirstWithin.firstCount_le {g g' : Grammar} (h : FirstWithin g g') :
  g'.firstCount ≤ g.nonterminals.size * (g.symbolCount + g.firstCount + 1)
  := by
  rw [← h.same.size, firstCount_eq g', ← Array.length_toList]
  apply sum_map_le
  intro i hi
  calc
    i.first.size ≤ g.lookaheads.toList.length := OrderedSet.size_le_of_subset (h.mem_lookaheads i hi)
    _ ≤ g.symbolCount + g.firstCount + 1 := size_lookaheads_le g

/-- Another pass changes nothing in a grammar whose first sets are computed. -/
theorem firstPass_computeFirst (g : Grammar) :
  g.computeFirst.firstPass = g.computeFirst
  := by
  apply pass_passes_eq firstPasses_succ growsTo_firstPass (P := FirstWithin g)
    (fun _ => FirstWithin.firstPass) (fun _ => FirstWithin.firstCount_le)
  · use SameRules.refl g
    intro i hi l hl
    apply mem_lookaheads.mpr (Or.inr (mem_mentioned.mpr (Or.inr ⟨i, hi, hl⟩)))
  · rw [firstBound]
    omega

/-! ### At rest -/

/-- At rest, the first set of the head of a rule has all that the rule begins with. -/
theorem mem_first_of_rest {g : Grammar} (hrest : g.firstPass = g) {r : Rule}
    (hr : r ∈ g.rules.toList) {i : NonterminalInfo} (hi : g.info? r.head = some i) {l : Lookahead}
    (hl : l ∈ g.firstOf endContext r.expansion) :
  l ∈ i.first
  := by
  rw [firstPass_eq] at hrest
  have h : g.enlargeFirst r.head (g.firstOf endContext r.expansion) = g :=
    GrowsTo.eq_of_foldl_eq (fun _ _ => growsTo_enlargeFirst _ _ _) hrest hr
  have hinfo := info?_enlargeFirst g r.head r.head (g.firstOf endContext r.expansion)
  rw [h, hi, Option.map_some, if_pos rfl, Option.some.injEq] at hinfo
  rw [hinfo]
  apply OrderedSet.mem_union.mpr (Or.inr hl)

/-- What a sequence of terminals followed by a context begins with. -/
def leads (follow : Context) : List Terminal → Context
  | [] => follow
  | t :: _ => .singleton (.terminal t)

/-- At rest, what is generated by a sequence of symbols begins with lookaheads of the
sequence. -/
theorem mem_firstOf_of_generates {g : Grammar} (hg : g.Assembled) (hrest : g.firstPass = g)
    {ss : List Symbol} {w : List Terminal} (h : g.Generates ss w) (follow : Context)
    {l : Lookahead} (hl : l ∈ leads follow w) :
  l ∈ g.firstOf follow ss
  := by
  induction h generalizing follow l with
  | nil => apply hl
  | terminal _ _ => apply hl
  | @nonterminal n r ss u v hr _ _ ihu ihv =>
      obtain ⟨e, he⟩ := hg.exists_rule hr
      have hexp : g.expansion r = e := by rw [expansion, he]
      rw [hexp] at ihu
      have hmem : ⟨n, e⟩ ∈ g.rules.toList := Array.mem_toList_iff.mpr (Array.mem_of_getElem? he)
      obtain ⟨i, hi⟩ := exists_info_of_mem_rulesFor hr
      have hfirst : ∀ l ∈ leads endContext u, l ∈ i.first := fun l hl =>
        mem_first_of_rest hrest hmem hi (ihu endContext hl)
      simp only [firstOf, first?, hi, Option.map_some]
      cases u with
      | nil =>
          have hend : .endOfInput ∈ i.first := hfirst _ (List.mem_singleton.mpr rfl)
          rw [if_pos hend]
          apply OrderedSet.mem_union.mpr (Or.inr (ihv follow hl))
      | cons t u =>
          obtain rfl : l = .terminal t := List.mem_singleton.mp hl
          have ht : .terminal t ∈ i.first := hfirst _ (List.mem_singleton.mpr rfl)
          have hf : .terminal t ∈ i.first.filter (· ≠ .endOfInput) :=
            OrderedSet.mem_filter.mpr ⟨ht, by simp⟩
          split
          · apply OrderedSet.mem_union.mpr (Or.inl hf)
          · apply hf

end Grammar

end CaptureLR

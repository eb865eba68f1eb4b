import CaptureLR.Proofs.Grammar.Leading

/-!
# First sets are exact

Rules may be there before their heads are registered; they are not listed then, but they take part
in first sets. So first sets are measured by derivations that may use every rule with a registered
head. Once they are computed, a first set has the terminals that its nonterminal can begin with,
and the end of the input if the nonterminal can derive nothing, and this determines what can stand
first in any sequence of symbols.
-/

namespace CaptureLR

namespace Grammar

variable {g : Grammar} {n : Nonterminal} {ss ss' ss'' : List Symbol} {l : Lookahead}

/-! ### Derivations by all rules -/

/-- A sequence of symbols becomes another one when registered nonterminals are replaced by
expansions of rules for them, be the rules listed or not. -/
inductive Derives (g : Grammar) : List Symbol → List Symbol → Prop
  | refl (ss : List Symbol) : Derives g ss ss
  | step {n : Nonterminal} {e before after ss : List Symbol} (hn : (g.info? n).isSome)
      (hr : ⟨n, e⟩ ∈ g.rules.toList) (h : Derives g (before ++ e ++ after) ss) :
      Derives g (before ++ .nonterminal n :: after) ss

theorem Derives.trans (h : g.Derives ss ss') (h' : g.Derives ss' ss'') :
  g.Derives ss ss''
  := by
  induction h with
  | refl => apply h'
  | step hn hr _ ih => exact .step hn hr (ih h')

/-- Derivations go on inside a longer sequence. -/
theorem Derives.within (h : g.Derives ss ss') (before after : List Symbol) :
  g.Derives (before ++ ss ++ after) (before ++ ss' ++ after)
  := by
  induction h with
  | refl => exact .refl _
  | @step n e b a _ hn hr _ ih =>
      have hs : before ++ (b ++ .nonterminal n :: a) ++ after
          = (before ++ b) ++ .nonterminal n :: (a ++ after) := by simp
      rw [hs]
      apply Derives.step hn hr
      simpa using ih

/-- A nonterminal derives what the expansion of one of its rules derives. -/
theorem Derives.expansion {e : List Symbol} (hn : (g.info? n).isSome)
    (hr : ⟨n, e⟩ ∈ g.rules.toList) (h : g.Derives e ss) :
  g.Derives [.nonterminal n] ss
  := by
  have hs : [.nonterminal n] = [] ++ .nonterminal n :: ([] : List Symbol) := rfl
  rw [hs]
  apply Derives.step hn hr
  simpa using h

/-- A sequence of symbols can begin with a terminal, or derives nothing. -/
def LedBy (g : Grammar) (ss : List Symbol) : Lookahead → Prop
  | .terminal t => ∃ rest, g.Derives ss (.terminal t :: rest)
  | .endOfInput => g.Derives ss []

theorem LedBy.of_derives (h : g.Derives ss ss') (h' : g.LedBy ss' l) :
  g.LedBy ss l
  := by
  cases l with
  | terminal t =>
      obtain ⟨rest, h'⟩ := h'
      use rest
      apply h.trans h'
  | endOfInput => apply h.trans h'

/-! ### First sets have only what is derived -/

/-- If nonterminals are opened by what they can begin with, so are sequences. -/
theorem Opens.ledBy (h : Opens (fun n => g.LedBy [.nonterminal n]) ss l) :
  g.LedBy ss l
  := by
  induction h with
  | nil => apply Derives.refl
  | terminal t ss => exact ⟨ss, .refl _⟩
  | @inside n t h ss =>
      obtain ⟨rest, h⟩ := h
      use rest ++ ss
      apply h.within [] ss
  | @past n ss l hn _ ih =>
      apply ih.of_derives
      apply hn.within [] ss

theorem closedUnder_ledBy (g : Grammar) :
  g.ClosedUnder (fun n => g.LedBy [.nonterminal n])
  := by
  rintro ⟨n, e⟩ hr hn l hl
  apply hl.ledBy.of_derives
  apply Derives.expansion hn hr (.refl e)

/-! ### At rest, first sets have all that is derived -/

theorem firstOf_append (g : Grammar) (follow : Context) (ss ss' : List Symbol) :
  g.firstOf follow (ss ++ ss') = g.firstOf (g.firstOf follow ss') ss
  := by
  induction ss with
  | nil => rfl
  | cons s ss ih =>
      cases s with
      | terminal t => rfl
      | nonterminal n => simp only [List.cons_append, firstOf, ih]

/-- What can stand first does so in front of more than before. -/
theorem firstOf_mono {follow follow' : Context} (h : ∀ l ∈ follow, l ∈ follow')
    (hl : l ∈ g.firstOf follow ss) :
  l ∈ g.firstOf follow' ss
  := by
  rcases mem_firstOf_iff.mp hl with hl | ⟨hl, hend⟩
  · apply mem_firstOf_iff.mpr (Or.inl hl)
  · apply mem_firstOf_iff.mpr (Or.inr ⟨h l hl, hend⟩)

theorem mem_firstOf_nonterminal {i : NonterminalInfo} (hi : g.info? n = some i)
    {follow : Context} :
  l ∈ g.firstOf follow [.nonterminal n]
    ↔ (l ∈ i.first ∧ l ≠ .endOfInput) ∨ (.endOfInput ∈ i.first ∧ l ∈ follow)
  := by
  have hbegins : l ∈ i.first.filter (· ≠ .endOfInput) ↔ l ∈ i.first ∧ l ≠ .endOfInput := by
    rw [OrderedSet.mem_filter, decide_eq_true_eq]
  simp only [firstOf, first?, hi, Option.map_some]
  split
  · next hend => rw [OrderedSet.mem_union, hbegins, and_iff_right hend]
  · next hend => rw [hbegins, or_iff_left (fun h => hend h.1)]

/-- At rest, what can stand first in the expansion of a rule can do so in its head. -/
theorem mem_firstOf_nonterminal_of_rest (hrest : g.firstPass = g) {e : List Symbol}
    (hn : (g.info? n).isSome) (hr : ⟨n, e⟩ ∈ g.rules.toList) {follow : Context}
    (hl : l ∈ g.firstOf follow e) :
  l ∈ g.firstOf follow [.nonterminal n]
  := by
  obtain ⟨i, hi⟩ := Option.isSome_iff_exists.mp hn
  have hfirst : ∀ l ∈ g.firstOf endContext e, l ∈ i.first := by
    intro l hl
    apply mem_first_of_rest hrest hr hi hl
  apply (mem_firstOf_nonterminal hi).mpr
  rcases mem_firstOf_iff.mp hl with hl | ⟨hl, hend⟩
  · left
    use hfirst l (mem_firstOf_iff.mpr (Or.inl hl))
    rintro rfl
    apply g.endOfInput_not_mem_firstOf e hl
  · right
    exact ⟨hfirst _ hend, hl⟩

/-- At rest, what can stand first in what a sequence derives can do so in the sequence. -/
theorem Derives.mem_firstOf (hrest : g.firstPass = g) (h : g.Derives ss ss') {follow : Context}
    (hl : l ∈ g.firstOf follow ss') :
  l ∈ g.firstOf follow ss
  := by
  induction h with
  | refl => apply hl
  | @step n e before after ss hn hr _ ih =>
      have hl := ih hl
      rw [List.append_assoc, firstOf_append, firstOf_append] at hl
      rw [List.append_cons, firstOf_append, firstOf_append]
      apply firstOf_mono _ hl
      intro l hl
      apply mem_firstOf_nonterminal_of_rest hrest hn hr hl

/-! ### Exactness -/

/-- What can stand first in a sequence is what it can begin with, and the whole context behind it
if it can derive nothing. -/
theorem mem_firstOf_iff_derives (hg : g.Assembled) (hrest : g.firstPass = g) {follow : Context} :
  l ∈ g.firstOf follow ss
    ↔ (∃ t rest, l = .terminal t ∧ g.Derives ss (.terminal t :: rest))
      ∨ (l ∈ follow ∧ g.Derives ss [])
  := by
  have hhave := hg.firstHave g.closedUnder_ledBy
  constructor
  · intro h
    rcases mem_firstOf_iff.mp h with h | ⟨h, hend⟩
    · left
      cases l with
      | terminal t =>
          obtain ⟨rest, hd⟩ := (hhave.opens (mem_firstOf_iff.mpr (Or.inl h))).ledBy
          exact ⟨t, rest, rfl, hd⟩
      | endOfInput => cases g.endOfInput_not_mem_firstOf ss h
    · right
      exact ⟨h, (hhave.opens hend).ledBy⟩
  · rintro (⟨t, rest, rfl, h⟩ | ⟨hl, h⟩)
    · apply h.mem_firstOf hrest
      apply List.mem_singleton.mpr rfl
    · apply h.mem_firstOf hrest hl

/-- At rest, a first set has what its nonterminal can begin with, and the end of the input if the
nonterminal can derive nothing. -/
theorem mem_first_iff_ledBy (hg : g.Assembled) (hrest : g.firstPass = g) {i : NonterminalInfo}
    (hi : g.info? n = some i) :
  l ∈ i.first ↔ g.LedBy [.nonterminal n] l
  := by
  constructor
  · apply hg.firstHave g.closedUnder_ledBy n i l hi
  · intro h
    have hmem : l ∈ g.firstOf endContext [.nonterminal n] := by
      cases l with
      | terminal t =>
          obtain ⟨rest, h⟩ := h
          apply h.mem_firstOf hrest
          apply List.mem_singleton.mpr rfl
      | endOfInput =>
          apply Derives.mem_firstOf hrest h
          apply List.mem_singleton.mpr rfl
    rcases (mem_firstOf_nonterminal hi).mp hmem with ⟨hl, -⟩ | ⟨hend, hl⟩
    · apply hl
    · rwa [List.mem_singleton.mp hl]

/-- Passes over the rules end, and what they leave is exact: first sets have the terminals that
their nonterminals can begin with and tell which of them can derive nothing, and so does what can
stand first from any place of a sequence on in front of a context. -/
theorem computeFirst_exact (hg : g.Assembled) :
  (∃ k, g.computeFirst = firstPass^[k] g ∧ firstPass^[k + 1] g = firstPass^[k] g
    ∧ ∀ j < k, firstPass^[j + 1] g ≠ firstPass^[j] g)
  ∧ (∀ n f, g.computeFirst.first? n = some f →
      (∀ t, .terminal t ∈ f
        ↔ ∃ rest, g.computeFirst.Derives [.nonterminal n] (.terminal t :: rest))
      ∧ (.endOfInput ∈ f ↔ g.computeFirst.Derives [.nonterminal n] []))
  ∧ ∀ (ss : List Symbol) (follow : Context) (start : Nat) (l : Lookahead),
      l ∈ g.computeFirst.firstOf follow (ss.drop start)
        ↔ (∃ t rest, l = .terminal t
            ∧ g.computeFirst.Derives (ss.drop start) (.terminal t :: rest))
          ∨ (l ∈ follow ∧ g.computeFirst.Derives (ss.drop start) [])
  := by
  have hrest := firstPass_computeFirst g
  refine ⟨?_, ?_, ?_⟩
  · obtain ⟨k, hk, hchanges⟩ :=
      exists_passes_eq_iterate (fun _ => rfl) firstPasses_succ g.firstBound g
    refine ⟨k, hk, ?_, hchanges⟩
    rw [Function.iterate_succ_apply', ← hk]
    apply hrest
  · intro n f hf
    obtain ⟨i, hi, rfl⟩ := Option.map_eq_some_iff.mp hf
    constructor
    · intro t
      apply mem_first_iff_ledBy hg.computeFirst hrest hi
    · apply mem_first_iff_ledBy hg.computeFirst hrest hi
  · intro ss follow start l
    apply mem_firstOf_iff_derives hg.computeFirst hrest

/-- A grammar with a rule that is there before its head is registered. -/
def hasty : Grammar :=
  (Grammar.empty.addRule ⟨1⟩ [.terminal "a"]).addNonterminal "A" none

/-- The rule is not listed, and yet the nonterminal begins with what it expands to. -/
theorem computeFirst_exact_hasty :
  hasty.Assembled ∧ hasty.computeFirst.rulesFor ⟨1⟩ = []
    ∧ (∃ rest, hasty.computeFirst.Derives [.nonterminal ⟨1⟩] (.terminal "a" :: rest))
    ∧ ¬ hasty.computeFirst.Derives [.nonterminal ⟨1⟩] []
  := by
  have hg : hasty.Assembled := (Assembled.empty.addRule _ _).addNonterminal _ _
  have hf : hasty.computeFirst.first? ⟨1⟩ = some (.singleton (.terminal "a")) := by
    decide +kernel
  obtain ⟨-, hfirst, -⟩ := computeFirst_exact hg
  obtain ⟨hterminal, hend⟩ := hfirst _ _ hf
  refine ⟨hg, by decide +kernel, (hterminal "a").mp (by decide), ?_⟩
  rw [← hend]
  decide

end Grammar

end CaptureLR

import CaptureLR.Proofs.Parse.Contraction
import Mathlib.Data.Fintype.Card
import Mathlib.Order.Interval.Finset.Nat

/-!
# Endless contractions

A stack that is contracted forever comes to a height below which it never falls again, and there
the same few states come to the top over and over, so the stack comes back. Each of these states
is reached with the head of a rule that begins a rule of the next one, with nothing to generate
behind it. If every state was expanded from its own kernel there is no such cycle: it would begin
behind some dot, and where the cycle goes on and where it is left the same contractions would come
to different ends.
-/

namespace CaptureLR

open Relation

/-- If everything in a finite set leads on to something in the set, something leads back to
itself. -/
theorem exists_transGen_self {α : Type} {R : α → α → Prop} {S : Set α} (hS : S.Finite)
    (hne : S.Nonempty) (h : ∀ x ∈ S, ∃ y ∈ S, R x y) :
  ∃ x ∈ S, TransGen R x x
  := by
  by_contra hno
  have hfinite : Finite S := hS
  let leads : S → S → Prop := fun y x => TransGen R x y
  have htrans : IsTrans S leads := ⟨fun _ _ _ hxy hyz => hyz.trans hxy⟩
  have hirrefl : Std.Irrefl leads := ⟨fun x hx => hno ⟨x, x.property, hx⟩⟩
  obtain ⟨x, -, hlast⟩ :=
    (Finite.wellFounded_of_trans_of_irrefl leads).has_min Set.univ
      (hne.to_subtype.elim (⟨·, trivial⟩))
  obtain ⟨y, hy, hxy⟩ := h x x.property
  apply hlast ⟨y, hy⟩ trivial (.single hxy)

variable {g : Grammar} {startRule : Nat} {a : Automaton} {t : Table} {l : Lookahead}
  {base i : Nat} {s : State} {path : List Symbol} {σ σ' : List Nat} {c : Core}
  {n : Nonterminal} {r : Nat}

/-! ### Ends of contractions -/

namespace Table

/-- A stack that does not come to an end is contracted to another one that does not. -/
theorem exists_contracts (h : ¬ t.Rests l base σ) :
  ∃ σ', t.Contracts l base σ σ' ∧ ¬ t.Rests l base σ'
  := by
  by_cases hmore : ∃ σ', t.Contracts l base σ σ'
  · obtain ⟨σ', hstep⟩ := hmore
    use σ', hstep
    intro hrests
    apply h (hrests.of_contracts (.single hstep))
  · cases h ⟨σ, .refl, fun σ' h => hmore ⟨σ', h⟩⟩

/-- There is only one stack at the end. -/
theorem eq_of_ends {ρ : List Nat} (hσ : ReflTransGen (t.Contracts l base) ρ σ)
    (hσ' : ReflTransGen (t.Contracts l base) ρ σ') (hend : ∀ τ, ¬ t.Contracts l base σ τ)
    (hend' : ∀ τ, ¬ t.Contracts l base σ' τ) :
  σ = σ'
  := by
  have hstuck : ∀ {σ σ'}, (∀ τ, ¬ t.Contracts l base σ τ) →
      ReflTransGen (t.Contracts l base) σ σ' → σ = σ' := by
    intro σ σ' hend h
    cases h using ReflTransGen.head_induction_on with
    | refl => rfl
    | head hstep _ => cases hend _ hstep
  rcases ReflTransGen.total_of_right_unique (t.rightUnique_contracts l base) hσ hσ' with h | h
  · apply hstuck hend h
  · apply (hstuck hend' h).symm

/-- What a stack that comes back is contracted to comes back as well. -/
theorem returns_of_contracts (h : TransGen (t.Contracts l base) σ σ)
    (hσ' : ReflTransGen (t.Contracts l base) σ σ') :
  TransGen (t.Contracts l base) σ' σ'
  := by
  induction hσ' with
  | refl => apply h
  | tail _ hstep ih =>
      obtain ⟨τ, hτ, hback⟩ := TransGen.head'_iff.mp ih
      obtain rfl := t.rightUnique_contracts l base hτ hstep
      apply TransGen.tail' hback hstep

/-- A stack that comes back does not come to an end. -/
theorem not_rests_of_returns (h : TransGen (t.Contracts l base) σ σ) :
  ¬ t.Rests l base σ
  := by
  rintro ⟨σ', hσ', hend⟩
  obtain ⟨τ, hτ, -⟩ := TransGen.head'_iff.mp (returns_of_contracts h hσ')
  apply hend τ hτ

/-- A reduction takes the symbols of the expansion of its rule. -/
theorem popCount_eq {red : Reduction} (h : (reductionsOf g).get? r = some red) :
  red.popCount = (g.expansion r).length
  := by
  rw [get?_reductionsOf] at h
  obtain ⟨rule, hrule, rfl⟩ := Option.map_eq_some_iff.mp h
  rw [Grammar.expansion, hrule]

end Table

/-- A stack that holds too few symbols of the rule that is to be reduced is not contracted. -/
theorem Automaton.Completes.not_contracts (ha : a.Finished g startRule) {size : Nat}
    (h : a.Completes l base r size σ) (hlt : size < (g.expansion r).length) :
  ¬ (Table.ofAutomaton a).Contracts l base σ σ'
  := by
  obtain ⟨hlength, hreduce⟩ := h
  intro hc
  cases hc with
  | mk haction hr hpop =>
      cases haction.symm.trans hreduce
      rw [Table.ofAutomaton, ha.grammar_eq] at hr
      rw [Table.popCount_eq hr, hlength] at hpop
      apply Nat.not_le_of_lt hlt hpop

theorem Automaton.ShiftsOn.not_contracts (h : a.ShiftsOn l base σ) :
  ¬ (Table.ofAutomaton a).Contracts l base σ σ'
  := by
  obtain ⟨target, hshift⟩ := h
  apply Table.not_contracts_of_action
  intro rule
  rw [hshift]
  exact nofun

/-! ### The lowest stacks -/

namespace Automaton

variable {classes : ClassTable}

/-- The symbols that are popped are on the stack. -/
theorem Pops.succ_le {d target : Nat} (h : Pops g a l σ r d n target)
    (hl : a.Lines g startRule path σ) :
  d + 1 ≤ σ.length
  := by
  obtain ⟨s, hs, hgrants⟩ := h.grants
  obtain ⟨s', hs', hb⟩ := hl.behind
  cases hs.symm.trans hs'
  have hclosure : AtClosure g startRule path ⟨r, d + 1⟩ := .kernel ((hb _).mpr hgrants.mem_coresOf)
  obtain ⟨front, rfl, -⟩ := hclosure.exists_front
  rw [← hl.length_eq, List.length_append, List.length_take_of_le hclosure.dot_le]
  apply Nat.le_add_left

variable (ha : a.Finished g startRule) (hg : g.Compiled startRule classes) (hall : g.ListsAll)

include ha hg hall

/-- Of the stacks that an endless one is contracted to, the lowest ones differ in their top states
only. Each of these has read the first symbol of a rule, with nothing to generate behind it, and
the head of the rule leads to the next one. -/
theorem Lines.exists_tops (hl : a.Lines g startRule path σ)
    (h : ¬ (Table.ofAutomaton a).Rests l 0 σ) :
  ∃ (front : List Symbol) (τ : List Nat) (tops : Set Nat), a.Lines g startRule front τ
    ∧ tops.Nonempty
    ∧ (∀ i ∈ tops, i < a.states.size
      ∧ ReflTransGen ((Table.ofAutomaton a).Contracts l 0) σ (i :: τ))
    ∧ ∀ i ∈ tops, ∃ r n, ∃ target ∈ tops, Pops g a l (i :: τ) r 0 n target
  := by
  have hpops : ∀ ρ, ReflTransGen ((Table.ofAutomaton a).Contracts l 0) σ ρ →
      ∃ r d n target, Pops g a l ρ r d n target ∧ d + 1 ≤ ρ.length := by
    intro ρ hρ
    obtain ⟨path', hl'⟩ := hl.contracts ha hg hρ
    obtain ⟨r, d, n, target, hpops⟩ :=
      (hl'.rests_or_pops ha hg hall (l := l)).resolve_left
        (fun hrests => h (hrests.of_contracts hρ))
    exact ⟨r, d, n, target, hpops, hpops.succ_le hl'⟩
  obtain ⟨ρ, hρ, hlowest⟩ := (measure List.length).wf.has_min
    {ρ | ReflTransGen ((Table.ofAutomaton a).Contracts l 0) σ ρ} ⟨σ, .refl⟩
  have hlowest : ∀ ρ', ReflTransGen ((Table.ofAutomaton a).Contracts l 0) σ ρ' →
      ρ.length ≤ ρ'.length := fun ρ' hρ' => Nat.le_of_not_lt (hlowest ρ' hρ')
  cases ρ with
  | nil =>
      obtain ⟨r, d, n, target, -, hle⟩ := hpops [] hρ
      cases hle
  | cons i τ =>
      obtain ⟨path', hl'⟩ := hl.contracts ha hg hρ
      cases hl' with
      | push hl' _ =>
          refine ⟨_, τ, {j | ReflTransGen ((Table.ofAutomaton a).Contracts l 0) σ (j :: τ)}, hl',
            ⟨i, hρ⟩, ?_, ?_⟩
          · intro j hj
            obtain ⟨path'', hl''⟩ := hl.contracts ha hg hj
            obtain ⟨s, hs, -⟩ := hl''.behind
            exact ⟨(Array.getElem?_eq_some_iff.mp hs).1, hj⟩
          · intro j hj
            obtain ⟨r, d, n, target, hpop, hle⟩ := hpops (j :: τ) hj
            have hcontracts := hj.trans hpop.contracts.to_reflTransGen
            have hheight := hlowest _ hcontracts
            simp only [List.length_cons, List.length_drop] at hle hheight
            obtain rfl : d = 0 := by omega
            exact ⟨r, n, target, hcontracts, hpop⟩

/-- A stack whose contractions come to no end is contracted to one that comes back. -/
theorem Lines.exists_returns (hl : a.Lines g startRule path σ)
    (h : ¬ (Table.ofAutomaton a).Rests l 0 σ) :
  ∃ σ', ReflTransGen ((Table.ofAutomaton a).Contracts l 0) σ σ'
    ∧ TransGen ((Table.ofAutomaton a).Contracts l 0) σ' σ'
  := by
  obtain ⟨front, τ, tops, -, hne, htops, hnext⟩ := hl.exists_tops ha hg hall h
  have hfinite : tops.Finite :=
    (Set.finite_lt_nat a.states.size).subset (fun i hi => (htops i hi).1)
  obtain ⟨i, hi, hback⟩ := exists_transGen_self
    (R := fun i j => TransGen ((Table.ofAutomaton a).Contracts l 0) (i :: τ) (j :: τ)) hfinite hne
    (by
      intro i hi
      obtain ⟨r, n, target, htarget, hpops⟩ := hnext i hi
      exact ⟨target, htarget, hpops.contracts⟩)
  exact ⟨i :: τ, (htops i hi).2, hback.lift' (· :: τ) (fun _ _ h => h)⟩

end Automaton

/-! ### Cycles of rules -/

/-- A rule begins with the head of another one, with nothing to generate behind it. -/
def Grammar.Climbs (g : Grammar) (r r' : Nat) : Prop :=
  ∃ n rest, r ∈ g.rulesFor n ∧ g.expansion r' = .nonterminal n :: rest ∧ g.Generates rest []

/-- Two rules on a cycle of rules that begin with the heads of each other. -/
def Grammar.Cycles (g : Grammar) (r r' : Nat) : Prop :=
  TransGen g.Climbs r r' ∧ TransGen g.Climbs r' r

/-- A cycle goes on. -/
theorem Grammar.Cycles.exists_climbs {r' : Nat} (h : g.Cycles r r') :
  ∃ r'', g.Climbs r' r'' ∧ g.Cycles r r''
  := by
  obtain ⟨hto, hback⟩ := h
  obtain ⟨r'', hclimbs, hback'⟩ := TransGen.head'_iff.mp hback
  exact ⟨r'', hclimbs, hto.tail hclimbs, .trans_right hback' (hto.trans hback)⟩

/-- Where a rule is expected, so are the rules that climb to it. -/
theorem ExpectsInside.of_climbs (hg : g.Assembled) (hrest : g.firstPass = g) {r' : Nat}
    (he : ExpectsInside g startRule path ⟨r', 0⟩ l) (h : ReflTransGen g.Climbs r r') :
  ExpectsInside g startRule path ⟨r, 0⟩ l
  := by
  induction h using ReflTransGen.head_induction_on with
  | refl => apply he
  | @head r r'' hclimbs _ ih =>
      obtain ⟨n, rest, hr, hexpansion, hnothing⟩ := hclimbs
      have hn : (⟨r'', 0⟩ : Core).symbol? g = some (.nonterminal n) := by
        rw [Core.symbol?, hexpansion]
        rfl
      apply ExpectsInside.passed ih hn hr
      apply Grammar.mem_firstOf_of_generates_nil hg hrest
      · rw [hexpansion]
        apply hnothing
      · apply List.mem_singleton.mpr rfl

/-- Every state was expanded from its own kernel. -/
def Automaton.IsCurrent (g : Grammar) (startRule : Nat) (a : Automaton) : Prop :=
  ∀ (i : Nat) (s : State), a.states[i]? = some s → s.Finished g startRule a.states s.kernel

namespace Automaton

theorem IsCurrent.not_stale (h : a.IsCurrent g startRule) :
  ¬ a.Stale g startRule i
  := by
  rintro ⟨s, hs, hno⟩
  apply hno (h i s hs)

/-- Nothing is stale, so what is brought is brought. -/
theorem IsCurrent.brings (h : a.IsCurrent g startRule) {P : List Nat → Prop}
    (hbrings : a.Brings g startRule l base P) :
  ∃ σ, ReflTransGen ((Table.ofAutomaton a).Contracts l base) [] σ ∧ P σ
  := by
  obtain ⟨σ, hσ, hend⟩ := hbrings
  exact ⟨σ, hσ, hend.resolve_left h.not_stale⟩

section Cycles

variable {classes : ClassTable} (ha : a.Finished g startRule) (hg : g.Compiled startRule classes)

include ha hg

/-- The rules that an endless stack is reduced by form a cycle, and the first symbol of one of them
has been read where the lookahead is expected behind it. -/
theorem Lines.exists_cycles (hall : g.ListsAll) (hl : a.Lines g startRule path σ)
    (h : ¬ (Table.ofAutomaton a).Rests l 0 σ) :
  ∃ (r i : Nat) (s : State), g.Cycles r r ∧ a.states[i]? = some s ∧ Grants s.kernel ⟨r, 1⟩ l
  := by
  obtain ⟨front, τ, tops, hτ, ⟨i₀, hi₀⟩, htops, hnext⟩ := hl.exists_tops ha hg hall h
  have hlists := hg.assembled.listsRules
  have hrules : ∃ r ∈ {r | ∃ i ∈ tops, ∃ n, ∃ target ∈ tops, Pops g a l (i :: τ) r 0 n target},
      TransGen g.Climbs r r := by
    apply exists_transGen_self
    · apply (Set.finite_lt_nat g.rules.size).subset
      rintro r ⟨i, -, n, target, -, hpops⟩
      apply hlists n r hpops.rule
    · obtain ⟨r, n, target, htarget, hpops⟩ := hnext i₀ hi₀
      exact ⟨r, i₀, hi₀, n, target, htarget, hpops⟩
    · rintro r ⟨i, -, n, target, htarget, hpops⟩
      obtain ⟨r', n', target', htarget', hpops'⟩ := hnext target htarget
      refine ⟨r', ⟨target, htarget, n', target', htarget', hpops'⟩, ?_⟩
      -- the target stands behind the head of the rule
      obtain ⟨e, he, hbe⟩ := hτ.behind
      obtain ⟨k, hk⟩ := ha.states _ e he
      have hgoto := hpops.successor
      rw [zero_add, List.drop_one, List.tail_cons] at hgoto
      obtain ⟨-, s, hs, hb⟩ := hk.isBehind_shift (x := .nonterminal n) hlists hbe
        ((successor?_ofAutomaton he).mp hgoto)
      obtain ⟨s', hs', hgrants⟩ := hpops'.grants
      cases hs.symm.trans hs'
      obtain ⟨⟨r'', d⟩, -, hn, hadvance⟩ := atKernel_concat.mp ((hb _).mpr hgrants.mem_coresOf)
      cases hadvance
      exact ⟨n, _, hpops.rule, Core.drop_of_symbol hn, hpops'.nothing⟩
  obtain ⟨r, ⟨i, -, n, target, -, hpops⟩, hcycle⟩ := hrules
  obtain ⟨s, hs, hgrants⟩ := hpops.grants
  exact ⟨r, i, s, ⟨hcycle, hcycle⟩, hs, hgrants⟩

/-- In current states, the states behind a path know what is expected there. -/
theorem IsCurrent.exists_knows (h : a.IsCurrent g startRule) (hc : AtClosure g startRule path c) :
  ∃ (i : Nat) (s : State), a.states[i]? = some s ∧ s.IsBehind g startRule path
    ∧ s.Knows g startRule path
  := by
  induction path using List.reverseRecOn generalizing c with
  | nil =>
      obtain ⟨s, hs⟩ := ha.isBehind_nil
      exact ⟨0, s, hs⟩
  | append_singleton path x ih =>
      obtain ⟨d, hd⟩ : ∃ d, AtKernel g startRule (path ++ [x]) d :=
        hc.closure_induction (P := fun _ => ∃ d, AtKernel g startRule (path ++ [x]) d)
          (fun c hc => ⟨c, hc⟩) (fun _ _ _ h _ _ => h)
      obtain ⟨d, hd, hx, -⟩ := atKernel_concat.mp hd
      obtain ⟨i, s, hs, hb, hknows⟩ := ih hd
      obtain ⟨target, s', -, hs', hb', hknows'⟩ :=
        (h i s hs).exists_shift hg.assembled.listsRules hb hd hx
      exact ⟨target, s', hs', hb', hknows' hknows⟩

/-- A rule of a cycle goes on behind the head of the one before it, so nothing else can be done
there under the lookahead: neither is the lookahead shifted in the end, nor another core
completed. -/
theorem IsCurrent.eq_of_climbs (h : a.IsCurrent g startRule) (hs : a.states[i]? = some s)
    (hb : s.IsBehind g startRule path) (hc : AtClosure g startRule path c)
    (hn : c.symbol? g = some (.nonterminal n)) {rest : List Symbol}
    (hexpansion : g.expansion r = .nonterminal n :: rest) (hrest : g.Generates rest [])
    (hr : FollowedBy g s.kernel ⟨r, 0⟩ l) :
  (∀ k, l = .terminal k → ¬ g.Fronts ((g.expansion c.rule).drop (c.dot + 1)) k)
    ∧ (FollowedBy g s.kernel c l → g.Generates ((g.expansion c.rule).drop (c.dot + 1)) [] →
      c = ⟨r, 0⟩)
  := by
  have hlists := hg.assembled.listsRules
  obtain ⟨target, s', -, hs', hb', hgrants⟩ := (h i s hs).exists_successor hlists hb hc hn
  have hrn : (⟨r, 0⟩ : Core).symbol? g = some (.nonterminal n) := by
    rw [Core.symbol?, hexpansion]
    rfl
  have hdrop : (g.expansion r).drop 1 = rest := by
    rw [hexpansion]
    rfl
  obtain ⟨σ, hσ, hcompletes⟩ := h.brings
    (brings_completes ha hg hrest hs' hb' (hgrants _ l hr hrn).followedBy hdrop)
  have hend : ∀ τ, ¬ (Table.ofAutomaton a).Contracts l target σ τ := by
    intro τ
    apply hcompletes.not_contracts ha
    rw [← hdrop, List.length_drop]
    change _ < (g.expansion r).length
    have hpos : 0 < (g.expansion r).length := by
      rw [hexpansion]
      apply Nat.succ_pos
    apply Nat.sub_lt hpos Nat.one_pos
  constructor
  · rintro k rfl hfronts
    obtain ⟨σ', hσ', hshift⟩ := h.brings (brings_shiftsOn ha hg hfronts hs' hb'
      (.kernel (.advance hc hn)) rfl)
    obtain rfl := Table.eq_of_ends hσ hσ' hend (fun τ => hshift.not_contracts)
    obtain ⟨target', haction⟩ := hshift
    cases haction.symm.trans hcompletes.2
  · intro hfollowed hnothing
    obtain ⟨σ', hσ', hcompletes'⟩ := h.brings
      (brings_completes ha hg hnothing hs' hb' (hgrants c l hfollowed hn).followedBy rfl)
    have hlt : c.dot < (g.expansion c.rule).length := (List.getElem?_eq_some_iff.mp hn).1
    have hend' : ∀ τ, ¬ (Table.ofAutomaton a).Contracts l target σ' τ := by
      intro τ
      apply hcompletes'.not_contracts ha
      change _ < (g.expansion c.rule).length
      rw [List.length_drop]
      omega
    obtain rfl := Table.eq_of_ends hσ hσ' hend hend'
    cases hcompletes'.2.symm.trans hcompletes.2
    obtain ⟨r, d⟩ := c
    have hlength := hcompletes.1.symm.trans hcompletes'.1
    rw [← hdrop, List.length_drop, List.length_drop] at hlength
    simp only at hlt hlength
    obtain rfl : d = 0 := by omega
    rfl

/-- In a current automaton the rules of a cycle are never expected where one of them has read the
first symbol. -/
theorem IsCurrent.not_cycles (h : a.IsCurrent g startRule) (hall : g.ListsAll)
    (hcycles : g.Cycles r r) (hs : a.states[i]? = some s) (hgrants : Grants s.kernel ⟨r, 1⟩ l) :
  False
  := by
  obtain ⟨paths, hcomposed⟩ := (h i s hs).isKernel.composed
  obtain ⟨path, -, hexpects⟩ := (hcomposed.grants _ _).mp hgrants
  obtain ⟨front, -, hfront⟩ := (ExpectsInside.kernel hexpects).exists_front
  obtain ⟨j, e, he, hb, hknows⟩ := h.exists_knows ha hg hfront.atClosure
  -- the cycle goes on behind the head of the rule
  have hnext : ∀ r', g.Cycles r r' → ∀ n, r' ∈ g.rulesFor n → ∃ r'' rest, g.Cycles r r''
      ∧ g.expansion r'' = .nonterminal n :: rest ∧ g.Generates rest []
      ∧ FollowedBy g e.kernel ⟨r'', 0⟩ l := by
    intro r' hr' n hn
    obtain ⟨r'', ⟨m, rest, hm, hexpansion, hrest⟩, hcycles⟩ := hr'.exists_climbs
    obtain rfl : m = n := (hg.assembled.head_eq hm).symm.trans (hg.assembled.head_eq hn)
    refine ⟨r'', rest, hcycles, hexpansion, hrest, ?_⟩
    apply hknows.followedBy hb
    apply hfront.of_climbs hg.assembled hg.atRest hcycles.2.to_reflTransGen
  have hnever : ∀ c l', ExpectsInside g startRule front c l' →
      ¬ (l' = l ∧ ∃ r', c = ⟨r', 0⟩ ∧ g.Cycles r r') := by
    intro c l' hc
    apply hc.closure_induction (P := fun c l' => ¬ (l' = l ∧ ∃ r', c = ⟨r', 0⟩ ∧ g.Cycles r r'))
    · rintro c l' hc ⟨rfl, r', rfl, hr'⟩
      obtain rfl := hc.atKernel.eq_nil_of_dot
      cases atKernel_nil.mp hc.atKernel
      obtain ⟨r'', ⟨n, rest, hn, hexpansion, -⟩, -⟩ := hr'.exists_climbs
      obtain rfl := hg.rooted.eq_start_of_mem hg.assembled hn
      apply hg.rooted.absent r''
      rw [hexpansion]
      apply List.mem_cons_self
    · rintro c n r' l' hc hn hr hl ⟨rfl, r'', hcore, hr'⟩
      cases hcore
      obtain ⟨r'', rest, -, hexpansion, hrest, hfollowed⟩ := hnext r' hr' n hr
      obtain ⟨k, rfl, hfronts⟩ := Grammar.exists_fronts_of_mem_firstOf hg.assembled hall hl
      apply (h.eq_of_climbs ha hg he hb hc hn hexpansion hrest hfollowed).1 k rfl hfronts
    · rintro c n r' l₁ l' hc hnot hn hr hl ⟨rfl, r'', hcore, hr'⟩
      cases hcore
      obtain ⟨r'', rest, hr'', hexpansion, hrest, hfollowed⟩ := hnext r' hr' n hr
      have heq := h.eq_of_climbs ha hg he hb hc.atClosure hn hexpansion hrest hfollowed
      rcases Core.mem_followAt_iff.mp hl with hl | ⟨rfl, ht⟩
      · obtain ⟨k, rfl, hfronts⟩ := Grammar.exists_fronts_of_mem_firstOf hg.assembled hall hl
        apply heq.1 k rfl hfronts
      · apply hnot
        refine ⟨rfl, r'', ?_, hr''⟩
        apply heq.2 (hknows.followedBy hb hc)
        apply Grammar.generates_nil_of_mem_firstOf hg.assembled hall ht
  apply hnever _ _ hfront ⟨rfl, r, rfl, hcycles⟩

/-- In a current automaton the contractions of every stack come to an end. -/
theorem IsCurrent.rests (h : a.IsCurrent g startRule) (hall : g.ListsAll)
    (hl : a.Lines g startRule path σ) (l : Lookahead) :
  (Table.ofAutomaton a).Rests l 0 σ
  := by
  by_contra hno
  obtain ⟨r, i, s, hcycles, hs, hgrants⟩ := hl.exists_cycles ha hg hall hno
  apply h.not_cycles ha hg hall hcycles hs hgrants

end Cycles

end Automaton

end CaptureLR

import CaptureLR.Proofs.Grammar.Leading
import CaptureLR.Proofs.Grammar.Meaning
import CaptureLR.Proofs.Parse.Soundness

/-!
# Contractions of stacks

Reductions under one lookahead, seen on the numbers of the states alone. A stack is contracted
when the symbols of a rule are replaced by its head; what is below the symbols does not matter.
If a core expects a lookahead behind symbols that generate nothing, contractions put the symbols
on the stack and complete the rule. So a stack that can be contracted comes to one in which a
kernel item of its top state has been completed and reduced, or to its end.
-/

namespace CaptureLR

open Relation

variable {g : Grammar} {startRule : Nat} {a : Automaton} {t : Table} {l : Lookahead}
  {base i target : Nat} {s : State} {path front ss : List Symbol} {σ σ' ρ ρ' : List Nat} {c : Core}
  {n : Nonterminal} {r d : Nat}

/-! ### Contractions -/

/-- A rule is reduced on a stack of states, top first. The stack stands on another state. -/
inductive Table.Contracts (t : Table) (l : Lookahead) (base : Nat) : List Nat → List Nat → Prop
  | mk {σ : List Nat} {rule target : Nat} {r : Reduction}
      (ha : t.action? (σ.headD base) l.toColumn = some (.reduce rule))
      (hr : t.reductions.get? rule = some r) (hpop : r.popCount ≤ σ.length)
      (hgoto : t.successor? ((σ.drop r.popCount).headD base) r.into = some target) :
      Contracts t l base σ (target :: σ.drop r.popCount)

namespace Table

theorem rightUnique_contracts (t : Table) (l : Lookahead) (base : Nat) :
  Relator.RightUnique (t.Contracts l base)
  := by
  intro x y z hy hz
  cases hy with
  | mk ha hr _ hgoto =>
      cases hz with
      | mk ha' hr' _ hgoto' =>
          cases ha.symm.trans ha'
          cases hr.symm.trans hr'
          cases hgoto.symm.trans hgoto'
          rfl

theorem headD_append (ρ σ : List Nat) (base : Nat) :
  (ρ ++ σ).headD base = ρ.headD (σ.headD base)
  := by
  cases ρ <;> rfl

/-- Contractions take place on top of any stack. -/
theorem Contracts.above (h : t.Contracts l (σ.headD base) ρ ρ') :
  t.Contracts l base (ρ ++ σ) (ρ' ++ σ)
  := by
  cases h with
  | @mk _ _ r ha hr hpop hgoto =>
      have hdrop : (ρ ++ σ).drop r.popCount = ρ.drop r.popCount ++ σ :=
        List.drop_append_of_le_length hpop
      rw [List.cons_append, ← hdrop]
      apply Contracts.mk _ hr
      · rw [List.length_append]
        apply Nat.le_add_right_of_le hpop
      · rw [hdrop, headD_append, hgoto]
      · rw [headD_append, ha]

theorem contracts_above (σ : List Nat)
    (h : ReflTransGen (t.Contracts l (σ.headD base)) ρ ρ') :
  ReflTransGen (t.Contracts l base) (ρ ++ σ) (ρ' ++ σ)
  := h.lift (· ++ σ) (fun _ _ h => h.above)

/-- A stack under whose top state nothing is reduced is not contracted. -/
theorem not_contracts_of_action
    (h : ∀ rule, t.action? (σ.headD base) l.toColumn ≠ some (.reduce rule)) :
  ¬ t.Contracts l base σ σ'
  := by
  intro hc
  cases hc with
  | mk ha => apply h _ ha

/-- Contracting a stack comes to an end. -/
def Rests (t : Table) (l : Lookahead) (base : Nat) (σ : List Nat) : Prop :=
  ∃ σ', ReflTransGen (t.Contracts l base) σ σ' ∧ ∀ σ'', ¬ t.Contracts l base σ' σ''

theorem Rests.of_contracts (h : t.Rests l base σ') (hc : ReflTransGen (t.Contracts l base) σ σ') :
  t.Rests l base σ
  := by
  obtain ⟨σ'', hσ, hend⟩ := h
  exact ⟨σ'', hc.trans hσ, hend⟩

end Table

/-! ### Stacks of an automaton -/

/-- A state was expanded from a kernel that is not its own. -/
def Automaton.Stale (g : Grammar) (startRule : Nat) (a : Automaton) (i : Nat) : Prop :=
  ∃ s : State, a.states[i]? = some s ∧ ¬ s.Finished g startRule a.states s.kernel

/-- The states of a stack, top first, stand behind the beginnings of a path. -/
inductive Automaton.Lines (g : Grammar) (startRule : Nat) (a : Automaton) :
    List Symbol → List Nat → Prop
  | nil (h : a.Behind g startRule [] 0) : Lines g startRule a [] []
  | push {path : List Symbol} {σ : List Nat} {x : Symbol} {i : Nat}
      (h : Lines g startRule a path σ) (hi : a.Behind g startRule (path ++ [x]) i) :
      Lines g startRule a (path ++ [x]) (i :: σ)

namespace Automaton.Lines

theorem behind (h : a.Lines g startRule path σ) :
  a.Behind g startRule path (σ.headD 0)
  := by
  cases h with
  | nil h => apply h
  | push _ hi => apply hi

theorem length_eq (h : a.Lines g startRule path σ) :
  path.length = σ.length
  := by
  induction h with
  | nil => rfl
  | push _ _ ih => rw [List.length_append, List.length_singleton, List.length_cons, ih]

/-- The states of the last symbols of the path can be removed. -/
theorem drop (h : a.Lines g startRule (front ++ ss) σ) :
  a.Lines g startRule front (σ.drop ss.length)
  := by
  induction ss using List.reverseRecOn generalizing σ with
  | nil =>
      rw [List.append_nil] at h
      apply h
  | append_singleton ss s ih =>
      rw [← List.append_assoc] at h
      generalize hp : front ++ ss ++ [s] = path at h
      cases h with
      | nil => simp at hp
      | push h _ =>
          obtain ⟨rfl, -⟩ := List.append_inj' hp rfl
          rw [List.length_append, List.length_singleton, List.drop_succ_cons]
          apply ih h

end Automaton.Lines

theorem Automaton.action?_ofAutomaton (hs : a.states[i]? = some s) (col : Column) :
  (Table.ofAutomaton a).action? i col = s.actions.get? col
  := by
  rw [Table.action?, Table.states_ofAutomaton, hs]
  rfl

theorem Automaton.successor?_ofAutomaton (hs : a.states[i]? = some s) :
  (Table.ofAutomaton a).successor? i n = some target
    ↔ s.actions.get? (.nonterminal n) = some (.shift target)
  := by
  rw [Table.successor?_eq_some, Table.states_ofAutomaton, hs]
  simp

/-- The dot of a core stands in the expansion or behind it. -/
theorem AtClosure.dot_le (h : AtClosure g startRule path c) :
  c.dot ≤ (g.expansion c.rule).length
  := by
  cases h with
  | kernel h =>
      cases h with
      | start => apply Nat.zero_le
      | advance _ hs => exact (List.getElem?_eq_some_iff.mp hs).1
  | rule => apply Nat.zero_le

theorem Core.symbol_of_drop {x : Symbol} (h : (g.expansion c.rule).drop c.dot = x :: ss) :
  c.symbol? g = some x ∧ (g.expansion c.rule).drop (c.dot + 1) = ss
  := by
  constructor
  · rw [Core.symbol?, ← List.head?_drop, h]
    rfl
  · rw [← List.tail_drop, h]
    rfl

/-! ### Completing a rule -/

/-- On top of a state, contractions come to a stale state, or to a stack of which something
holds. -/
def Automaton.Brings (g : Grammar) (startRule : Nat) (a : Automaton) (l : Lookahead) (base : Nat)
    (P : List Nat → Prop) : Prop :=
  ∃ σ, ReflTransGen ((Table.ofAutomaton a).Contracts l base) [] σ
    ∧ (a.Stale g startRule (σ.headD base) ∨ P σ)

/-- The top state of a stack reduces a rule, of which some symbols are on the stack. -/
def Automaton.Completes (a : Automaton) (l : Lookahead) (base rule size : Nat) (σ : List Nat) :
    Prop :=
  σ.length = size ∧ (Table.ofAutomaton a).action? (σ.headD base) l.toColumn = some (.reduce rule)

/-- The top state of a stack shifts the lookahead. -/
def Automaton.ShiftsOn (a : Automaton) (l : Lookahead) (base : Nat) (σ : List Nat) : Prop :=
  ∃ target, (Table.ofAutomaton a).action? (σ.headD base) l.toColumn = some (.shift target)

namespace Automaton

variable {P : List Nat → Prop}

/-- What is brought on top of a state that was brought itself. -/
theorem Brings.above (h : a.Brings g startRule l i P)
    (hi : ReflTransGen ((Table.ofAutomaton a).Contracts l base) [] [i]) :
  a.Brings g startRule l base (fun σ => ∃ σ', σ = σ' ++ [i] ∧ P σ')
  := by
  obtain ⟨σ, hσ, hend⟩ := h
  refine ⟨σ ++ [i], hi.trans (Table.contracts_above [i] hσ), ?_⟩
  rw [Table.headD_append]
  apply hend.imp_right
  intro hP
  exact ⟨σ, rfl, hP⟩

/-- What is brought is brought for less. -/
theorem Brings.mono {Q : List Nat → Prop} (h : a.Brings g startRule l base P)
    (hPQ : ∀ σ, P σ → Q σ) :
  a.Brings g startRule l base Q
  := by
  obtain ⟨σ, hσ, hend⟩ := h
  exact ⟨σ, hσ, hend.imp_right (hPQ σ)⟩

/-- A stale state is brought. -/
theorem Stale.brings (h : a.Stale g startRule base) :
  a.Brings g startRule l base P
  := ⟨[], .refl, Or.inl h⟩

variable {classes : ClassTable} (ha : a.Finished g startRule) (hg : g.Compiled startRule classes)

include ha hg

/-- Nothing is reduced in a stale state: it was expanded from a mute kernel. -/
theorem Stale.action_ne (h : a.Stale g startRule i) (rule : Nat) :
  (Table.ofAutomaton a).action? i l.toColumn ≠ some (.reduce rule)
  := by
  obtain ⟨s, hs, hno⟩ := h
  obtain ⟨k, hk⟩ := ha.states i s hs
  rw [action?_ofAutomaton hs]
  intro hr
  have hmute : Mute g k := by
    apply hk.current.resolve_left
    rintro rfl
    apply hno hk
  obtain ⟨c, l', hc, hcomplete, -, -⟩ :=
    (reduces_closure hg.assembled.listsRules hk.born.ordered).mp (hk.justified.reduce _ _ hr)
  apply hmute.silent c l' hc hcomplete

/-- A state goes on with a nonterminal that is called for. -/
theorem Behind.exists_goto (hs : a.states[i]? = some s) (hb : s.IsBehind g startRule path)
    (hc : AtClosure g startRule path c) (hn : c.symbol? g = some (.nonterminal n)) :
  ∃ (target : Nat) (s' : State), s.actions.get? (.nonterminal n) = some (.shift target)
    ∧ a.states[target]? = some s' ∧ s'.IsBehind g startRule (path ++ [.nonterminal n])
  := by
  have hlists := hg.assembled.listsRules
  obtain ⟨k, hk⟩ := ha.states i s hs
  obtain ⟨target, ht⟩ := hk.exists_target hlists hb hc hn
  obtain ⟨-, s', hs', hb'⟩ := hk.isBehind_shift hlists hb ht
  exact ⟨target, s', ht, hs', hb'⟩

/-- Once a rule of a nonterminal is completed on top of a state, the state goes on with the
nonterminal. -/
theorem Brings.contract
    (h : a.Brings g startRule l base (a.Completes l base r (g.expansion r).length))
    (hs : a.states[base]? = some s) (hr : r ∈ g.rulesFor n)
    (ht : s.actions.get? (.nonterminal n) = some (.shift target))
    (hP : ReflTransGen ((Table.ofAutomaton a).Contracts l base) [] [target] →
      a.Brings g startRule l base P) :
  a.Brings g startRule l base P
  := by
  obtain ⟨σ, hσ, hstale | ⟨hlength, hreduce⟩⟩ := h
  · exact ⟨σ, hσ, Or.inl hstale⟩
  · apply hP
    apply hσ.tail
    have hreduction : (Table.ofAutomaton a).reductions.get? r
        = some ⟨(g.expansion r).length, n, g.capture? n⟩ := by
      rw [Table.ofAutomaton, ha.grammar_eq]
      apply Table.get?_reductionsOf_rule hg.assembled hr
    have hdrop : σ.drop (g.expansion r).length = [] := List.drop_of_length_le (Nat.le_of_eq hlength)
    rw [← hdrop]
    apply Table.Contracts.mk hreduce hreduction (Nat.le_of_eq hlength.symm)
    rw [hdrop]
    apply (successor?_ofAutomaton hs).mpr ht

/-- If a rule expects a lookahead and nothing is generated behind its dot, contractions complete
it. -/
theorem brings_completes (hss : g.Generates ss []) (hs : a.states[base]? = some s)
    (hb : s.IsBehind g startRule path) (hc : FollowedBy g s.kernel c l)
    (hdrop : (g.expansion c.rule).drop c.dot = ss) :
  a.Brings g startRule l base (a.Completes l base c.rule ss.length)
  := by
  have hlists := hg.assembled.listsRules
  generalize hw : [] = w at hss
  induction hss generalizing base s path c with
  | nil =>
      by_cases hcurrent : s.Finished g startRule a.states s.kernel
      · refine ⟨[], .refl, Or.inr ⟨rfl, ?_⟩⟩
        rw [List.headD_nil, action?_ofAutomaton hs]
        apply hcurrent.answers.reduce
        apply (reduces_closure hlists hcurrent.isKernel.ordered).mpr
        refine ⟨c, l, hc, ?_, rfl, rfl⟩
        apply List.getElem?_eq_none_iff.mpr (List.drop_eq_nil_iff.mp hdrop)
      · apply Stale.brings ⟨s, hs, hcurrent⟩
  | terminal => cases hw
  | @nonterminal n r ss u v hr _ hv ihu ihv =>
      obtain ⟨rfl, rfl⟩ := List.append_eq_nil_iff.mp hw.symm
      by_cases hcurrent : s.Finished g startRule a.states s.kernel
      · obtain ⟨hn, hdrop'⟩ := Core.symbol_of_drop hdrop
        have hclosure := hb.calledFor_iff.mp hc.calledFor
        obtain ⟨target, s', ht, hs', hb', hgrants⟩ :=
          hcurrent.exists_successor hlists hb hclosure hn
        have hrule : FollowedBy g s.kernel ⟨r, 0⟩ l := by
          apply FollowedBy.passed hc hn hr
          apply Grammar.mem_firstOf_of_generates_nil hg.assembled hg.atRest
          · rw [hdrop']
            apply hv
          · apply List.mem_singleton.mpr rfl
        apply (ihu hs hb hrule rfl rfl).contract ha hg hs hr ht
        intro htarget
        have hadvance := (hgrants c l hc hn).followedBy (g := g)
        apply ((ihv hs' hb' hadvance hdrop' rfl).above htarget).mono
        rintro _ ⟨σ, rfl, hlength, hreduce⟩
        constructor
        · rw [List.length_append, hlength]
          rfl
        · rw [Table.headD_append]
          apply hreduce
      · apply Stale.brings ⟨s, hs, hcurrent⟩

/-- If a terminal comes to stand first behind the dot of a core, contractions under it come to a
state that shifts it. -/
theorem brings_shiftsOn {k : Terminal} (hss : g.Fronts ss k) (hs : a.states[base]? = some s)
    (hb : s.IsBehind g startRule path) (hc : AtClosure g startRule path c)
    (hdrop : (g.expansion c.rule).drop c.dot = ss) :
  a.Brings g startRule (.terminal k) base (a.ShiftsOn (.terminal k) base)
  := by
  have hlists := hg.assembled.listsRules
  induction hss generalizing base s path c with
  | terminal k ss =>
      obtain ⟨k', hk'⟩ := ha.states base s hs
      obtain ⟨target, ht⟩ := hk'.exists_target hlists hb hc (Core.symbol_of_drop hdrop).1
      refine ⟨[], .refl, Or.inr ⟨target, ?_⟩⟩
      rw [List.headD_nil, action?_ofAutomaton hs]
      apply ht
  | inside hr _ ss ih =>
      apply ih hs hb (.rule hc (Core.symbol_of_drop hdrop).1 hr) rfl
  | @past n ss k hn hfronts ih =>
      obtain ⟨hsymbol, hdrop'⟩ := Core.symbol_of_drop hdrop
      obtain ⟨e, he, hnothing⟩ := Grammar.generates_nonterminal_iff.mp hn
      obtain ⟨r, hr, rfl⟩ := Grammar.mem_expansionsOf.mp he
      obtain ⟨target, s', ht, hs', hb'⟩ := Behind.exists_goto ha hg hs hb hc hsymbol
      have hrule : FollowedBy g s.kernel ⟨r, 0⟩ (.terminal k) := by
        apply FollowedBy.first (hb.calledFor_iff.mpr hc) hsymbol hr
        rw [Core.firstBehind, Item.followAt, hdrop']
        apply hfronts.mem_firstOf hg.assembled hg.atRest
      apply (brings_completes ha hg hnothing hs hb hrule rfl).contract ha hg hs hr ht
      intro htarget
      apply ((ih hs' hb' (.kernel (.advance hc hsymbol)) hdrop').above htarget).mono
      rintro _ ⟨σ, rfl, hshift⟩
      rw [ShiftsOn, Table.headD_append]
      apply hshift

end Automaton

/-! ### Contractions of a stack -/

/-- A contraction of a stack behind a path: the symbols of a rule end the path, and the head of the
rule takes their place. -/
structure Automaton.Replaces (g : Grammar) (startRule : Nat) (a : Automaton) (l : Lookahead)
    (path : List Symbol) (σ σ' : List Nat) (front : List Symbol) (n : Nonterminal)
    (r target : Nat) : Prop where
  path_eq : path = front ++ g.expansion r
  rule : r ∈ g.rulesFor n
  ne : r ≠ startRule
  followed : ∃ (s : State) (d : Nat), a.states[σ.headD 0]? = some s ∧ s.IsBehind g startRule path
    ∧ FollowedBy g s.kernel ⟨r, d⟩ l ∧ (⟨r, d⟩ : Core).symbol? g = none
  action : (Table.ofAutomaton a).action? (σ.headD 0) l.toColumn = some (.reduce r)
  successor : (Table.ofAutomaton a).successor? ((σ.drop (g.expansion r).length).headD 0) n
    = some target
  eq : σ' = target :: σ.drop (g.expansion r).length
  lines : a.Lines g startRule (front ++ [.nonterminal n]) σ'

/-- A core from which a complete core is passed on to has nothing to generate behind its dot. -/
theorem Passes.generates_nil (hg : g.Assembled) (hall : g.ListsAll) {c d : Core}
    (h : Passes g c d) (hd : g.Generates ((g.expansion d.rule).drop d.dot) []) :
  g.Generates ((g.expansion c.rule).drop c.dot) []
  := by
  induction h with
  | refl => apply hd
  | @step d n r _ hn ht hr ih =>
      apply ih
      rw [Core.drop_of_symbol hn]
      have hrule : g.Generates [.nonterminal n] [] := .nonterminal hr hd .nil
      apply hrule.cons_nil
      apply Grammar.generates_nil_of_mem_firstOf hg hall ht

namespace Automaton

variable {classes : ClassTable} (ha : a.Finished g startRule) (hg : g.Compiled startRule classes)

include ha hg

/-- A contraction of a stack replaces the symbols of a rule of which the head was called for. -/
theorem Lines.exists_replaces (hl : a.Lines g startRule path σ)
    (h : (Table.ofAutomaton a).Contracts l 0 σ σ') :
  ∃ front n r target, Replaces g startRule a l path σ σ' front n r target
  := by
  have hlists := hg.assembled.listsRules
  cases h with
  | @mk rule target r haction hr hpop hgoto =>
      obtain ⟨s, hs, hb⟩ := hl.behind
      obtain ⟨k, hk⟩ := ha.states _ s hs
      have haction' := haction
      rw [action?_ofAutomaton hs] at haction'
      obtain ⟨⟨rule, d⟩, l', hc, hcomplete, rfl, hcol⟩ :=
        (reduces_closure hlists hk.born.ordered).mp (hk.justified.reduce _ _ haction')
      obtain rfl := Lookahead.toColumn_injective hcol
      have hfollowed := hk.widens.followedBy hc
      obtain ⟨front, rfl, hfront⟩ :=
        (hb.calledFor_iff.mp hfollowed.calledFor).exists_front_expansion hcomplete
      have hdrop := hl.drop
      rw [Table.ofAutomaton, ha.grammar_eq] at hr
      rcases hfront.exists_rule with ⟨c, n, hc', hn, hrule⟩ | ⟨rfl, rfl⟩
      · rw [Table.get?_reductionsOf_rule hg.assembled hrule] at hr
        cases hr
        obtain ⟨s', hs', hb'⟩ := hdrop.behind
        obtain ⟨k', hk'⟩ := ha.states _ s' hs'
        obtain ⟨-, s'', hs'', hb''⟩ :=
          hk'.isBehind_shift (x := .nonterminal n) hlists hb'
            ((successor?_ofAutomaton hs').mp hgoto)
        refine ⟨front, n, rule, target, rfl, hrule, ?_, ⟨s, d, hs, hb, hfollowed, hcomplete⟩,
          haction, hgoto, rfl, hdrop.push ⟨s'', hs'', hb''⟩⟩
        rintro rfl
        obtain rfl := hg.rooted.eq_start_of_mem hg.assembled hrule
        cases hg.rooted.symbol_ne_start hn
      · -- the start symbol stands behind no dot
        rw [Table.get?_reductionsOf, hg.rooted.rule] at hr
        cases hr
        have hbottom : a.Lines g rule [] (σ.drop (g.expansion rule).length) := hl.drop
        obtain ⟨s', hs', hb'⟩ := hbottom.behind
        rw [hg.rooted.expansion_eq] at hs'
        obtain ⟨k', hk'⟩ := ha.states _ s' hs'
        obtain ⟨⟨c, -, hc⟩, -⟩ := hk'.isBehind_shift (x := .nonterminal .start) hlists hb'
          ((successor?_ofAutomaton hs').mp hgoto)
        cases hg.rooted.symbol_ne_start hc

/-- The paths of stacks follow contractions. -/
theorem Lines.contracts (hl : a.Lines g startRule path σ)
    (h : ReflTransGen ((Table.ofAutomaton a).Contracts l 0) σ σ') :
  ∃ path', a.Lines g startRule path' σ'
  := by
  induction h with
  | refl => exact ⟨path, hl⟩
  | tail _ hstep ih =>
      obtain ⟨path', hl'⟩ := ih
      obtain ⟨front, n, r, target, hreplaces⟩ := hl'.exists_replaces ha hg hstep
      exact ⟨_, hreplaces.lines⟩

/-- A rule of which some symbols are on the stack, with nothing to generate behind them, and which
expects the lookahead: it is completed and replaced by its head. -/
structure Pops (g : Grammar) (a : Automaton) (l : Lookahead) (σ : List Nat) (r d : Nat)
    (n : Nonterminal) (target : Nat) : Prop where
  grants : ∃ s : State, a.states[σ.headD 0]? = some s ∧ Grants s.kernel ⟨r, d + 1⟩ l
  nothing : g.Generates ((g.expansion r).drop (d + 1)) []
  rule : r ∈ g.rulesFor n
  successor : (Table.ofAutomaton a).successor? ((σ.drop (d + 1)).headD 0) n = some target
  contracts : TransGen ((Table.ofAutomaton a).Contracts l 0) σ (target :: σ.drop (d + 1))

/-- What a core of the kernel on top of a stack leads to if nothing is generated behind its dot. -/
theorem Lines.pops_of_grants (hl : a.Lines g startRule path σ) (hs : a.states[σ.headD 0]? = some s)
    (hb : s.IsBehind g startRule path) (hc : Grants s.kernel c l)
    (hnothing : g.Generates ((g.expansion c.rule).drop c.dot) []) :
  (Table.ofAutomaton a).Rests l 0 σ ∨ ∃ r d n target, Pops g a l σ r d n target
  := by
  have hkernel := (hb c).mpr hc.mem_coresOf
  obtain ⟨ρ, hρ, hend⟩ := brings_completes ha hg hnothing hs hb hc.followedBy rfl
  have hcontracts := Table.contracts_above σ hρ
  rw [List.nil_append] at hcontracts
  by_cases hmore : ∃ σ', (Table.ofAutomaton a).Contracts l 0 (ρ ++ σ) σ'
  · obtain ⟨σ', hstep⟩ := hmore
    obtain ⟨path', hl'⟩ := hl.contracts ha hg hcontracts
    obtain ⟨front, n, r, target, hreplaces⟩ := hl'.exists_replaces ha hg hstep
    have haction := hreplaces.action
    rw [Table.headD_append] at haction
    rcases hend with hstale | ⟨hlength, hreduce⟩
    · cases hstale.action_ne ha hg r haction
    · cases haction.symm.trans hreduce
      obtain ⟨r, d⟩ := c
      cases d with
      | zero =>
          obtain rfl := hkernel.eq_nil_of_dot
          cases atKernel_nil.mp hkernel
          cases hreplaces.ne rfl
      | succ d =>
          have hle := (AtClosure.kernel hkernel).dot_le
          have hdrop : (ρ ++ σ).drop (g.expansion r).length = σ.drop (d + 1) := by
            rw [List.drop_append, List.drop_of_length_le, List.nil_append]
            · congr 1
              rw [hlength, List.length_drop]
              apply Nat.sub_sub_self hle
            · rw [hlength, List.length_drop]
              apply Nat.sub_le
          right
          refine ⟨r, d, n, target, ⟨s, hs, hc⟩, hnothing, hreplaces.rule, ?_, ?_⟩
          · rw [← hdrop]
            apply hreplaces.successor
          · rw [← hdrop, ← hreplaces.eq]
            apply TransGen.tail' hcontracts hstep
  · left
    exact ⟨ρ ++ σ, hcontracts, fun σ' h => hmore ⟨σ', h⟩⟩

/-- Where something is reduced under a lookahead, a core of the kernel expects it behind symbols
that generate nothing, or the lookahead comes to stand first behind the dot of a core. -/
theorem Lines.rests_or_pops (hall : g.ListsAll) (hl : a.Lines g startRule path σ) :
  (Table.ofAutomaton a).Rests l 0 σ ∨ ∃ r d n target, Pops g a l σ r d n target
  := by
  by_cases hmore : ∃ σ', (Table.ofAutomaton a).Contracts l 0 σ σ'
  · obtain ⟨σ', hstep⟩ := hmore
    obtain ⟨front, n, r, target, hreplaces⟩ := hl.exists_replaces ha hg hstep
    obtain ⟨s, d, hs, hb, hfollowed, hcomplete⟩ := hreplaces.followed
    have hempty : g.Generates ((g.expansion r).drop d) [] := by
      rw [List.drop_of_length_le (List.getElem?_eq_none_iff.mp hcomplete)]
      apply Grammar.Generates.nil
    rcases followedBy_iff.mp hfollowed with ⟨c, hc, hpasses⟩ | ⟨c, hc, hsprings⟩
    · apply hl.pops_of_grants ha hg hs hb hc (hpasses.generates_nil hg.assembled hall hempty)
    · left
      cases hsprings with
      | @mk n' r' hn hr hfirst hpasses =>
          obtain ⟨k, rfl, hfronts⟩ :=
            Grammar.exists_fronts_of_mem_firstOf hg.assembled hall hfirst
          have hrule : g.Generates [.nonterminal n'] [] :=
            .nonterminal hr (hpasses.generates_nil hg.assembled hall hempty) .nil
          have hdrop := Core.drop_of_symbol hn
          obtain ⟨ρ, hρ, hend⟩ := brings_shiftsOn ha hg (Grammar.Fronts.past hrule hfronts) hs hb
            (hb.calledFor_iff.mp hc) hdrop
          have hcontracts := Table.contracts_above σ hρ
          rw [List.nil_append] at hcontracts
          refine ⟨ρ ++ σ, hcontracts, ?_⟩
          intro σ''
          apply Table.not_contracts_of_action
          intro rule
          rw [Table.headD_append]
          rcases hend with hstale | ⟨target, hshift⟩
          · apply hstale.action_ne ha hg
          · rw [hshift]
            exact nofun
  · left
    exact ⟨σ, .refl, fun σ' h => hmore ⟨σ', h⟩⟩

end Automaton

end CaptureLR

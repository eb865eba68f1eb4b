import CaptureLR.Proofs.Automaton.Expansion

/-!
# Runs of the construction

Every step of the construction keeps the invariant, or it finds a conflict that a canonical
state has. When no state is left, every state has the actions that its kernel calls for, or
those that a mute kernel of its cores calls for.
-/

namespace CaptureLR

variable {g : Grammar} {startRule : Nat}

/-- A fold keeps what each of its steps keeps, step by step along the list. -/
theorem foldl_prefixes {α β : Type} {f : α → β → α} {P : List β → α → Prop} {bs : List β}
    (hf : ∀ before b after a, bs = before ++ b :: after → P before a → P (before ++ [b]) (f a b))
    {a : α} (h : P [] a) :
  P bs (bs.foldl f a)
  := by
  -- the steps are those of a fold that cannot fail
  have hfold : OkOr (P bs) False (bs.foldlM (fun a b => (.ok (f a b) : Except Empty α)) a) := by
    apply OkOr.foldlM _ h
    apply hf
  have hpure : bs.foldlM (fun a b => (.ok (f a b) : Except Empty α)) a = .ok (bs.foldl f a) :=
    List.foldlM_pure
  rw [hpure] at hfold
  apply hfold

namespace Builder

variable {b b' : Builder} {i : Nat} {k : List Item} {symbols : Symbol → Prop}

/-! ### Steps -/

/-- The state that comes next is the first dirty one. If none is dirty, it is the first that was not
expanded yet. -/
theorem pop_cases (h : b.pop = some (i, b')) :
  (∃ dirty, b.dirty = i :: dirty ∧ b' = { b with dirty })
    ∨ (b.dirty = [] ∧ i = b.next ∧ b.next < b.states.size ∧ b' = { b with next := b.next + 1 })
  := by
  unfold pop at h
  split at h
  · next j dirty hd =>
    left
    cases h
    exact ⟨dirty, hd, rfl⟩
  · next hd =>
    split at h
    · next hlt =>
      right
      cases h
      exact ⟨hd, rfl, hlt, rfl⟩
    · cases h

/-- When no state comes next, none is dirty and all were expanded. -/
theorem done_of_pop_eq_none (h : b.pop = none) :
  b.dirty = [] ∧ b.states.size ≤ b.next
  := by
  unfold pop at h
  split at h
  · cases h
  · next hd =>
    use hd
    split at h
    · cases h
    · next hlt => apply Nat.le_of_not_lt hlt

theorem states_pop (h : b.pop = some (i, b')) :
  b'.states = b.states
  := by
  obtain ⟨dirty, -, rfl⟩ | ⟨-, -, -, rfl⟩ := pop_cases h
  · rfl
  · rfl

/-- Expanding a state keeps what is kept by changing its actions and by inserting the kernels that
the symbols behind the dots of its closure lead to. -/
theorem expand_induction_successors {P : Builder → Prop} (halter : ∀ b f, P b → P (b.alter i f))
    (hinsert : ∀ s : State, b.states[i]? = some s → ∀ b x, Shifts g (g.closure s.kernel) x → P b →
      P (b.insert startRule (successorKernel g s.kernel x) (s.lane ++ [x.toColumn])).1)
    (hb : P b) (h : b.expand g startRule i = .ok b') :
  P b'
  := by
  unfold expand at h
  cases hs : b.states[i]? with
  | none =>
      rw [hs] at h
      cases h
      apply hb
  | some s =>
      have hrow := Row.addItems_spec g s.actions (s.closure g)
      simp only [hs] at h
      split at h
      · cases h
      · next row heq =>
        cases h
        rw [heq] at hrow
        have hcovers : row.Covers g s.actions (g.closure s.kernel) := hrow
        apply List.foldlRecOn (motive := P)
        · rw [setActions_eq]
          apply halter _ _ hb
        · rintro b' hb' ⟨col, k⟩ hmem
          have hget := OrderedMap.mem_toList_iff.mp hmem
          obtain ⟨x, hx, rfl⟩ := hcovers.keys col (OrderedMap.mem_keys_iff.mpr ⟨k, hget⟩)
          obtain rfl := Option.some.inj ((hcovers.successors x hx).symm.trans hget)
          rw [addSuccessor_eq]
          apply halter
          apply hinsert s hs _ x hx hb'

/-- Expanding a state keeps what is kept by changing actions and by inserting kernels. -/
theorem expand_induction {P : Builder → Prop} (halter : ∀ b i f, P b → P (b.alter i f))
    (hinsert : ∀ b k lane, P b → P (b.insert startRule k lane).1) (hb : P b)
    (h : b.expand g startRule i = .ok b') :
  P b'
  := expand_induction_successors (fun b f => halter b i f) (fun _ _ b _ _ => hinsert b _ _) hb h

/-- A run keeps what is kept by taking the state that comes next and by expanding it. -/
theorem run_induction {P : Builder → Prop}
    (hpop : ∀ b b' i, b.pop = some (i, b') → P b → P b')
    (hexpand : ∀ b b' i, b.expand g startRule i = .ok b' → P b → P b') (hb : P b) {fuel : Nat}
    (h : b.run g startRule fuel = .ok b') :
  P b'
  := by
  induction fuel generalizing b with
  | zero => cases h
  | succ fuel ih =>
      unfold Builder.run at h
      cases hp : b.pop with
      | none =>
          simp only [hp, Except.ok.injEq] at h
          rw [← h]
          apply hb
      | some p =>
          obtain ⟨i, b₁⟩ := p
          simp only [hp] at h
          cases he : b₁.expand g startRule i with
          | error c =>
              rw [he] at h
              cases h
          | ok b₂ =>
              rw [he] at h
              apply ih _ h
              apply hexpand b₁ b₂ i he
              apply hpop b b₁ i hp hb

/-! ### Expanding a state -/

/-- A shift is added to the state that is being expanded. -/
theorem Expanding.addSuccessor (h : Expanding g startRule i k symbols b) (hg : g.ListsRules)
    {x : Symbol} (hx : Shifts g (g.closure k) x) (lane : List Column)
    (hfree : ∀ r, ¬ Reduces g (g.closure k) x.toColumn r)
    (hmute : ∀ s : State, b.states[i]? = some s → s.actions = ∅ →
      coresOf k = coresOf (successorKernel g k x) → Mute g k) :
  Expanding g startRule i k (fun y => symbols y ∨ y = x)
    (b.addSuccessor startRule i lane (x.toColumn, successorKernel g k x))
  := by
  obtain ⟨s, hs, hsettled⟩ := h.own
  obtain ⟨hcoherent, hgrows, target, htarget, hw⟩ :=
    insert_spec h.coherent (hsettled.isKernel.successor hg hx) (lane ++ [x.toColumn])
  rw [addSuccessor_eq]
  generalize b.insert startRule (successorKernel g k x) (lane ++ [x.toColumn]) = p at *
  obtain ⟨b', t⟩ := p
  have hlt : i < b'.next := hgrows.next ▸ h.lt
  refine ⟨hcoherent.alter hlt _, hlt, ?_, ?_⟩
  · intro j u hj hlt' hu
    rw [states_alter_of_ne hj] at hu
    have hlt'' : j < b.next := hgrows.next ▸ hlt'
    have hu₀ := Array.getElem?_eq_getElem (Nat.lt_of_lt_of_le hlt'' h.coherent.next_le)
    obtain ⟨k', hk'⟩ := h.others j _ hj hlt'' hu₀
    exact ⟨k', (hk'.grows hgrows hu₀ hu (fun he _ => hk'.mute hg he)).alter i _⟩
  · obtain ⟨s', hs', -, hactions, -⟩ := hgrows.states i s hs
    have hsettled' := hsettled.grows hgrows hs hs' (by
      intro he hc
      apply hmute s hs he (hsettled.widens.cores ▸ hc))
    have hwiden := statesWiden_alter b' i (fun actions => actions.insert x.toColumn (.shift t))
    obtain ⟨target', htarget', hw'⟩ := hwiden t target htarget
    refine ⟨_, states_alter_self hs', hsettled'.isKernel, hsettled'.widens, ?_, ?_,
      hsettled'.current⟩
    · apply (hsettled'.justified.mono hwiden).insert hx htarget' (hw'.cores.trans hw.cores)
    · apply (hsettled'.answers.mono hwiden).insert hfree htarget' (hw.trans hw')

/-- A kernel whose closure calls for no reduction is mute if the first symbol behind a dot leads
back to its cores. -/
theorem mute_of_loop (hg : g.ListsRules) (hk : Ordered k) {x : Symbol}
    (hfirst : (g.closure k).findSome? (Item.symbol? g) = some x)
    (hloop : coresOf k = coresOf (successorKernel g k x))
    (hno : ∀ col r, ¬ Reduces g (g.closure k) col r) :
  Mute g k
  := by
  obtain ⟨before, item, after, heq, hitem, hbefore⟩ := List.findSome?_eq_some_iff.mp hfirst
  have hcalled : CalledFor g k item.core := by
    rw [← Grammar.mem_coresOf_closure hg hk.nodup, mem_coresOf]
    exact ⟨item, heq ▸ List.mem_append_right _ List.mem_cons_self, rfl⟩
  have hmem : item.core.advance ∈ coresOf k := by
    rw [hloop, mem_coresOf_successorKernel hg hk.nodup]
    exact ⟨item.core, hcalled, hitem, rfl⟩
  constructor
  · -- the first item over the symbol is kept advanced, and so before itself
    use item.core.advance, hmem
    have hadvance : item.core.advance ∈ coresOf (g.closure k) := by
      obtain ⟨j, hj, hcore⟩ := mem_coresOf.mp hmem
      rw [Grammar.mem_coresOf_closure hg hk.nodup, ← hcore]
      exact .item hj
    have hordered : Ordered (g.closure k) := Grammar.ordered_closure hk.nodup
    rw [Ordered, heq, coresOf, List.map_append, List.map_cons] at hordered
    obtain ⟨-, hcons, -⟩ := List.pairwise_append.mp hordered
    obtain ⟨j, hj, hcore⟩ := mem_coresOf.mp hadvance
    rw [heq] at hj
    have hlater : j ∉ item :: after := by
      intro hj
      rcases List.mem_cons.mp hj with rfl | hj
      · have := congrArg Core.dot hcore
        simp [Core.advance] at this
      · have := (List.pairwise_cons.mp hcons).1 j.core (List.mem_map_of_mem hj)
        rw [hcore] at this
        simp only [Core.Before, Core.advance] at this
        omega
    rcases List.mem_append.mp hj with hj | hj
    · rw [← hcore]
      apply hbefore j hj
    · exact absurd hj hlater
  · intro c l hc hs
    apply hno l.toColumn c.rule ((reduces_closure hg hk).mpr ⟨c, l, hc, hs, rfl, rfl⟩)

/-- Without any actions there are no shifts yet, so the symbol of the next one is the first of the
row. If it leads back to the cores of the kernel, the kernel is mute. -/
theorem mute_of_answers_empty (hg : g.ListsRules) (hk : Ordered k) {old : Actions} {row : Row}
    (hrow : row.Covers g old (g.closure k)) {states : Array State}
    {before after : List (Column × List Item)} {x : Symbol} {k' : List Item}
    (hlist : row.successors.toList = before ++ (x.toColumn, k') :: after)
    (ha : Answers g states k (fun y => y.toColumn ∈ before.map Prod.fst) ∅)
    (hloop : coresOf k = coresOf (successorKernel g k x)) :
  Mute g k
  := by
  have hbefore : before = [] := by
    rw [List.eq_nil_iff_forall_not_mem]
    rintro ⟨col, k'⟩ hmem
    obtain ⟨y, hy, rfl⟩ := hrow.keys col (OrderedMap.mem_keys_iff.mpr
      ⟨k', OrderedMap.mem_toList_iff.mp (hlist ▸ List.mem_append_left _ hmem)⟩)
    obtain ⟨t, -, ht, -⟩ := ha.shift y (List.mem_map.mpr ⟨_, hmem, rfl⟩) hy
    rw [OrderedMap.get?_empty] at ht
    cases ht
  have hfirst := hrow.first
  rw [OrderedMap.keys, hlist, hbefore] at hfirst
  cases hf : (g.closure k).findSome? (Item.symbol? g) with
  | none =>
      rw [hf] at hfirst
      cases hfirst
  | some y =>
      rw [hf] at hfirst
      have hcol : x.toColumn = y.toColumn := Option.some.inj hfirst
      obtain rfl := Symbol.toColumn_injective hcol
      apply mute_of_loop hg hk hf hloop
      intro col r hr
      have hno := ha.reduce col r hr
      rw [OrderedMap.get?_empty] at hno
      cases hno

/-- Shifts over fewer symbols are there as well. -/
theorem Expanding.imp (h : Expanding g startRule i k symbols b) {symbols' : Symbol → Prop}
    (himp : ∀ y, symbols' y → Shifts g (g.closure k) y → symbols y) :
  Expanding g startRule i k symbols' b
  where
  coherent := h.coherent
  lt := h.lt
  others := h.others
  own := by
    obtain ⟨s, hs, hsettled⟩ := h.own
    refine ⟨s, hs, hsettled.isKernel, hsettled.widens, hsettled.justified, ?_, hsettled.current⟩
    constructor
    · apply hsettled.answers.reduce
    · intro y hy hshift
      apply hsettled.answers.shift y (himp y hy hshift) hshift

/-- The shifts that a row calls for are added to the state that is being expanded. -/
theorem Expanding.addSuccessors (h : Expanding g startRule i k (fun _ => False) b)
    (hg : g.ListsRules) {old : Actions} {row : Row} (hrow : row.Covers g old (g.closure k))
    (lane : List Column) :
  Expanding g startRule i k (fun _ => True)
    (row.successors.toList.foldl (Builder.addSuccessor startRule i lane) b)
  := by
  have hfold : Expanding g startRule i k (fun y => y.toColumn ∈ row.successors.toList.map Prod.fst)
      (row.successors.toList.foldl (Builder.addSuccessor startRule i lane) b) := by
    apply foldl_prefixes
      (P := fun before => Expanding g startRule i k (fun y => y.toColumn ∈ before.map Prod.fst))
      _ (h.imp (by simp))
    rintro before ⟨col, k'⟩ after b hlist hb
    have hget : row.successors.get? col = some k' := by
      rw [← OrderedMap.mem_toList_iff, hlist]
      simp
    have hkey : col ∈ row.successors.keys := OrderedMap.mem_keys_iff.mpr ⟨k', hget⟩
    obtain ⟨x, hx, rfl⟩ := hrow.keys col hkey
    obtain rfl : k' = successorKernel g k x := by
      rw [hrow.successors x hx, Option.some.injEq] at hget
      apply hget.symm
    obtain ⟨s, hs, hsettled⟩ := hb.own
    have hk := hsettled.isKernel.ordered
    have hadded := hb.addSuccessor hg hx lane ?_ ?_
    · apply hadded.imp
      intro y hy _
      rw [List.map_append, List.mem_append] at hy
      rcases hy with hy | hy
      · left
        apply hy
      · right
        apply Symbol.toColumn_injective (List.mem_singleton.mp hy)
    · intro r hr
      apply hrow.apart _ hkey r ((hrow.actions _ _).mpr (Or.inr ⟨r, rfl, hr⟩))
    · intro s' hs' he hloop
      obtain rfl : s = s' := by rwa [hs, Option.some.injEq] at hs'
      have ha := hsettled.answers
      rw [he] at ha
      apply mute_of_answers_empty hg hk hrow hlist ha hloop
  apply hfold.imp
  intro y _ hshift
  apply OrderedMap.mem_keys_iff.mpr ⟨_, hrow.successors y hshift⟩

/-- When all shifts are there, the state is settled like the others. -/
theorem Expanding.invariant (h : Expanding g startRule i k (fun _ => True) b) :
  Invariant g startRule b
  where
  coherent := h.coherent
  settled j s hj hs := by
    by_cases hij : j = i
    · subst hij
      obtain ⟨s', hs', hsettled⟩ := h.own
      obtain rfl : s = s' := by rwa [hs, Option.some.injEq] at hs'
      exact ⟨k, hsettled⟩
    · apply h.others j s hij hj hs

/-- A state about to be expanded: its actions are justified by its kernel, and all other states
that were expanded are settled. -/
structure Chosen (g : Grammar) (startRule : Nat) (i : Nat) (b : Builder) : Prop where
  coherent : b.Coherent g startRule
  lt : i < b.next
  others : ∀ (j : Nat) (s : State), j ≠ i → j < b.next → b.states[j]? = some s →
    ∃ k, Settled g startRule b (fun _ => True) j s k
  own : ∃ s : State, b.states[i]? = some s ∧ Justified g b.states s.kernel s.actions

theorem justified_empty (g : Grammar) (states : Array State) (k : List Item) :
  Justified g states k ∅
  where
  reduce col r h := by cases h
  shift col t h := by cases h

/-- The state that comes next is either dirty or was not expanded yet. -/
theorem Invariant.chosen (h : Invariant g startRule b) (hg : g.ListsRules)
    (hp : b.pop = some (i, b')) :
  Chosen g startRule i b'
  := by
  have hc := h.coherent
  rcases pop_cases hp with ⟨dirty, hd, rfl⟩ | ⟨hd, rfl, hlt, rfl⟩
  · have hlt : i < b.next := hc.dirty_lt i (hd ▸ List.mem_cons_self)
    have hmem : ∀ j ∈ dirty, j ∈ b.dirty := fun j hj => hd ▸ List.mem_cons_of_mem _ hj
    refine ⟨⟨hc.isKernel, hc.byCores, hc.births, hc.accepting, hc.fresh, hc.next_le, ?_⟩, hlt, ?_, ?_⟩
    · intro j hj
      apply hc.dirty_lt j (hmem j hj)
    · intro j s hne hj hs
      obtain ⟨k, hk⟩ := h.settled j s hj hs
      use k, hk.isKernel, hk.widens, hk.justified, hk.answers
      rcases hk.current with hk | hk
      · rw [hd] at hk
        left
        apply (List.mem_cons.mp hk).resolve_left hne
      · right
        apply hk
    · have hs := Array.getElem?_eq_getElem (Nat.lt_of_lt_of_le hlt hc.next_le)
      obtain ⟨k, hk⟩ := h.settled i _ hlt hs
      exact ⟨_, hs, hk.justified.widen hg hk.isKernel.ordered hk.widens⟩
  · refine ⟨⟨hc.isKernel, hc.byCores, hc.births, hc.accepting, ?_, hlt, ?_⟩, Nat.lt_succ_self _, ?_, ?_⟩
    · intro j s hj hs
      apply hc.fresh j s (Nat.le_of_succ_le hj) hs
    · intro j hj
      apply Nat.lt_succ_of_lt (hc.dirty_lt j hj)
    · intro j s hne hj hs
      have hj' : j < b.next + 1 := hj
      obtain ⟨k, hk⟩ := h.settled j s (by omega) hs
      exact ⟨k, hk.isKernel, hk.widens, hk.justified, hk.answers, hk.current⟩
    · have hs := Array.getElem?_eq_getElem hlt
      refine ⟨_, hs, ?_⟩
      rw [hc.fresh b.next _ (Nat.le_refl _) hs]
      apply justified_empty

/-- Expanding a state keeps the invariant, or it finds a conflict that a canonical state has. -/
theorem Chosen.expand (h : Chosen g startRule i b) (hg : g.ListsRules) :
  OkOr (Invariant g startRule) (∃ path, g.Clashes startRule path) (b.expand g startRule i)
  := by
  obtain ⟨s, hs, hj⟩ := h.own
  have hk := h.coherent.isKernel i s hs
  have hrow := Row.addItems_spec g s.actions (s.closure g)
  simp only [Builder.expand, hs]
  cases heq : (s.closure g).foldlM (Row.addItem g) ⟨s.actions, ∅⟩ with
  | error c =>
      rw [heq] at hrow
      apply hj.exists_clashes hg hk hrow
  | ok row =>
      rw [heq] at hrow
      have hcovers : row.Covers g s.actions (g.closure s.kernel) := hrow
      apply Expanding.invariant (i := i) (k := s.kernel)
      apply Expanding.addSuccessors _ hg hcovers
      rw [setActions_eq]
      have hwiden := statesWiden_alter b i (fun _ => row.actions)
      refine ⟨h.coherent.alter h.lt _, h.lt, ?_, _, states_alter_self hs, hk, .refl _, ?_, ?_,
        Or.inr (Or.inl rfl)⟩
      · intro j t hne hlt ht
        rw [states_alter_of_ne hne] at ht
        obtain ⟨k, hsettled⟩ := h.others j t hne hlt ht
        exact ⟨k, hsettled.alter i _⟩
      · apply Justified.mono _ hwiden
        constructor
        · intro col r hr
          rcases (hcovers.actions _ _).mp hr with hr | ⟨r', heq, hr⟩
          · apply hj.reduce col r hr
          · cases heq
            apply hr
        · intro col t ht
          rcases (hcovers.actions _ _).mp ht with ht | ⟨r, heq, -⟩
          · apply hj.shift col t ht
          · cases heq
      · constructor
        · intro col r hr
          exact (hcovers.actions _ _).mpr (Or.inr ⟨r, rfl, hr⟩)
        · intro y hy
          apply hy.elim

/-! ### Runs -/

/-- The builder that a construction begins with. -/
theorem invariant_initial (g : Grammar) (startRule : Nat) :
  Invariant g startRule
    (Builder.empty.insert startRule (kernelOf [⟨⟨startRule, 0⟩, endContext⟩]) []).1
  := by
  have hempty : Builder.empty.Coherent g startRule := by
    constructor
    · intro i s hs
      cases hs
    · intro cores i
      simp [Builder.empty]
    · use [], rfl, List.Pairwise.nil
      intro i s hs
      cases hs
    · intro i s hs
      cases hs
    · intro i s _ hs
      cases hs
    · apply Nat.le_refl 0
    · intro i hi
      cases hi
  obtain ⟨hc, hgrows, -⟩ := insert_spec hempty (IsKernel.initial g startRule) []
  use hc
  intro i s hi
  rw [hgrows.next] at hi
  exact absurd hi (Nat.not_lt_zero i)

theorem statesWiden_insert (b : Builder) (startRule : Nat) (k : List Item) (lane : List Column) :
  StatesWiden b.states (b.insert startRule k lane).1.states
  := by
  simp only [insert]
  split
  · next i hi =>
    have ha := List.find?_some hi
    unfold accepts at ha
    split at ha
    · next s hs => apply (grows_merge hs ha).statesWiden
    · cases ha
  · apply (grows_push b startRule k lane).statesWiden

/-- Expanding a state keeps all states, with wider kernels. -/
theorem statesWiden_expand (h : b.expand g startRule i = .ok b') :
  StatesWiden b.states b'.states
  := by
  apply expand_induction (P := fun b' => StatesWiden b.states b'.states) _ _ (.refl _) h
  · intro b' i f hb'
    apply hb'.trans (statesWiden_alter b' i f)
  · intro b' k lane hb'
    apply hb'.trans (statesWiden_insert b' startRule k lane)

/-- A run keeps all states, with wider kernels. -/
theorem statesWiden_run {fuel : Nat} (h : b.run g startRule fuel = .ok b') :
  StatesWiden b.states b'.states
  := by
  apply run_induction (P := fun b' => StatesWiden b.states b'.states) _ _ (.refl _) h
  · intro b₁ b₂ i hp hb
    rw [states_pop hp]
    apply hb
  · intro b₁ b₂ i he hb
    apply hb.trans (statesWiden_expand he)

/-- A run ends in a builder of settled states that has nothing left to do, or it finds a conflict
that a canonical state has, or it was not allowed enough steps. -/
theorem Invariant.run (h : Invariant g startRule b) (hg : g.ListsRules) (fuel : Nat) :
  match b.run g startRule fuel with
  | .ok b' => Invariant g startRule b' ∧ b'.pop = none
  | .error (.conflict _ _) => ∃ path, g.Clashes startRule path
  | .error (.exhausted _) => True
  := by
  induction fuel generalizing b with
  | zero => trivial
  | succ fuel ih =>
      unfold Builder.run
      cases hp : b.pop with
      | none => exact ⟨h, hp⟩
      | some p =>
          obtain ⟨i, b'⟩ := p
          have hexpand := (h.chosen hg hp).expand hg
          simp only
          cases he : b'.expand g startRule i with
          | error c =>
              rw [he] at hexpand
              apply hexpand
          | ok b'' =>
              rw [he] at hexpand
              apply ih hexpand

end Builder

end CaptureLR

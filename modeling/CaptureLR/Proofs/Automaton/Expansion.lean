import CaptureLR.Proofs.Automaton.Insertion

/-!
# Expanding states

The invariant of the construction. The actions of a state that was expanded are those that the
closure of a kernel of its cores calls for: of its kernel as it is now or, if the state is
dirty, as it was. There is one gap. Whether a state was expanded is told by its having actions,
so growth goes unnoticed where a kernel with a complete item called for no reduction at all.
-/

namespace CaptureLR

variable {g : Grammar} {startRule : Nat} {k k' : List Item}

/-! ### What wider kernels call for -/

theorem reduces_closure (hg : g.ListsRules) (hk : Ordered k) {col : Column} {r : Nat} :
  Reduces g (g.closure k) col r
    ↔ ∃ c l, FollowedBy g k c l ∧ c.symbol? g = none ∧ c.rule = r ∧ col = l.toColumn
  := by
  simp only [Reduces, Grammar.grants_closure hg hk.nodup]

theorem shifts_closure (hg : g.ListsRules) (hk : Ordered k) {s : Symbol} :
  Shifts g (g.closure k) s ↔ ∃ c, CalledFor g k c ∧ c.symbol? g = some s
  := by
  simp only [Shifts, Grammar.mem_coresOf_closure hg hk.nodup]

namespace Widens

theorem ordered (h : Widens k k') (hk : Ordered k) :
  Ordered k'
  := by
  rw [Ordered, h.cores]
  apply hk

theorem followedBy (h : Widens k k') {c : Core} {l : Lookahead} (hc : FollowedBy g k c l) :
  FollowedBy g k' c l
  := hc.mono (fun _ hc => h.cores ▸ hc) h.grants

theorem reduces (h : Widens k k') (hg : g.ListsRules) (hk : Ordered k) {col : Column} {r : Nat}
    (hr : Reduces g (g.closure k) col r) :
  Reduces g (g.closure k') col r
  := by
  obtain ⟨c, l, hc, hr⟩ := (reduces_closure hg hk).mp hr
  exact (reduces_closure hg (h.ordered hk)).mpr ⟨c, l, h.followedBy hc, hr⟩

/-- What is shifted depends on the cores alone. -/
theorem shifts_iff (h : Widens k k') (hg : g.ListsRules) (hk : Ordered k) {s : Symbol} :
  Shifts g (g.closure k') s ↔ Shifts g (g.closure k) s
  := by
  rw [shifts_closure hg hk, shifts_closure hg (h.ordered hk)]
  simp only [calledFor_congr h.cores]

/-- A wider kernel leads to wider kernels. -/
theorem successor (h : Widens k k') (hg : g.ListsRules) (hk : Ordered k) (s : Symbol) :
  Widens (successorKernel g k s) (successorKernel g k' s)
  where
  cores := by
    apply (ordered_successorKernel g k' s).coresOf_eq (ordered_successorKernel g k s)
    intro c
    rw [mem_coresOf_successorKernel hg hk.nodup, mem_coresOf_successorKernel hg (h.ordered hk).nodup]
    simp only [calledFor_congr h.cores]
  grants c l hc := by
    rw [grants_successorKernel hg hk.nodup] at hc
    rw [grants_successorKernel hg (h.ordered hk).nodup]
    obtain ⟨d, hd, hs⟩ := hc
    exact ⟨d, h.followedBy hd, hs⟩

end Widens

/-! ### Actions and kernels -/

/-- Every action is one that the closure of a kernel calls for, and a shift leads to a state of
the right cores. -/
structure Justified (g : Grammar) (states : Array State) (k : List Item) (actions : Actions) :
    Prop where
  reduce : ∀ col r, actions.get? col = some (.reduce r) → Reduces g (g.closure k) col r
  shift : ∀ col t, actions.get? col = some (.shift t) → ∃ s, col = s.toColumn
    ∧ Shifts g (g.closure k) s ∧ ∃ target : State, states[t]? = some target
      ∧ coresOf target.kernel = coresOf (successorKernel g k s)

/-- The actions have every reduction that the closure of a kernel calls for, and over some of the
symbols the shifts, to states that widen the kernels called for. -/
structure Answers (g : Grammar) (states : Array State) (k : List Item) (symbols : Symbol → Prop)
    (actions : Actions) : Prop where
  reduce : ∀ col r, Reduces g (g.closure k) col r → actions.get? col = some (.reduce r)
  shift : ∀ s, symbols s → Shifts g (g.closure k) s → ∃ (t : Nat) (target : State),
    actions.get? s.toColumn = some (.shift t) ∧ states[t]? = some target
      ∧ Widens (successorKernel g k s) target.kernel

/-- States that are still there, with wider kernels. -/
def StatesWiden (states states' : Array State) : Prop :=
  ∀ (i : Nat) (s : State), states[i]? = some s → ∃ s' : State, states'[i]? = some s'
    ∧ Widens s.kernel s'.kernel

theorem StatesWiden.refl (states : Array State) :
  StatesWiden states states
  := fun _ s hs => ⟨s, hs, .refl _⟩

theorem StatesWiden.trans {states states' states'' : Array State} (h : StatesWiden states states')
    (h' : StatesWiden states' states'') :
  StatesWiden states states''
  := by
  intro i s hs
  obtain ⟨s', hs', hw⟩ := h i s hs
  obtain ⟨s'', hs'', hw'⟩ := h' i s' hs'
  exact ⟨s'', hs'', hw.trans hw'⟩

section Actions

variable {states states' : Array State} {actions : Actions} {symbols : Symbol → Prop}

theorem Justified.mono (h : Justified g states k actions) (hs : StatesWiden states states') :
  Justified g states' k actions
  where
  reduce := h.reduce
  shift col t ht := by
    obtain ⟨s, hcol, hshift, target, htarget, hc⟩ := h.shift col t ht
    obtain ⟨target', htarget', hw⟩ := hs t target htarget
    exact ⟨s, hcol, hshift, target', htarget', hw.cores.trans hc⟩

/-- What a kernel justifies a wider one justifies too. -/
theorem Justified.widen (h : Justified g states k actions) (hg : g.ListsRules) (hk : Ordered k)
    (hw : Widens k k') :
  Justified g states k' actions
  where
  reduce col r hr := hw.reduces hg hk (h.reduce col r hr)
  shift col t ht := by
    obtain ⟨s, hcol, hshift, target, htarget, hc⟩ := h.shift col t ht
    exact ⟨s, hcol, (hw.shifts_iff hg hk).mpr hshift, target, htarget,
      hc.trans (hw.successor hg hk s).cores.symm⟩

theorem Answers.mono (h : Answers g states k symbols actions) (hs : StatesWiden states states') :
  Answers g states' k symbols actions
  where
  reduce := h.reduce
  shift s hdone hshift := by
    obtain ⟨t, target, ht, htarget, hw⟩ := h.shift s hdone hshift
    obtain ⟨target', htarget', hw'⟩ := hs t target htarget
    exact ⟨t, target', ht, htarget', hw.trans hw'⟩

/-- A shift to a state of the right cores is justified. -/
theorem Justified.insert (h : Justified g states k actions) {x : Symbol}
    (hx : Shifts g (g.closure k) x) {t : Nat} {target : State} (htarget : states[t]? = some target)
    (hc : coresOf target.kernel = coresOf (successorKernel g k x)) :
  Justified g states k (actions.insert x.toColumn (.shift t))
  where
  reduce col r hr := by
    rw [OrderedMap.get?_insert] at hr
    split at hr
    · cases hr
    · apply h.reduce col r hr
  shift col t' ht' := by
    rw [OrderedMap.get?_insert] at ht'
    split at ht'
    · next hcol =>
      cases ht'
      exact ⟨x, hcol, hx, target, htarget, hc⟩
    · apply h.shift col t' ht'

/-- A shift to a state that widens the kernel called for answers one more symbol. -/
theorem Answers.insert (h : Answers g states k symbols actions) {x : Symbol}
    (hfree : ∀ r, ¬ Reduces g (g.closure k) x.toColumn r) {t : Nat} {target : State}
    (htarget : states[t]? = some target) (hw : Widens (successorKernel g k x) target.kernel) :
  Answers g states k (fun y => symbols y ∨ y = x) (actions.insert x.toColumn (.shift t))
  where
  reduce col r hr := by
    have hcol : col ≠ x.toColumn := by
      rintro rfl
      apply hfree r hr
    rw [OrderedMap.get?_insert, if_neg hcol]
    apply h.reduce col r hr
  shift y hy hshift := by
    rw [OrderedMap.get?_insert]
    by_cases hyx : y = x
    · subst hyx
      exact ⟨t, target, if_pos rfl, htarget, hw⟩
    · rw [if_neg (fun h => hyx (Symbol.toColumn_injective h))]
      apply h.shift y (hy.resolve_right hyx) hshift

/-- Two things that a kernel calls for, or one of them and an action it justifies, clash only if
a canonical state has a conflict. -/
theorem Justified.exists_clashes (h : Justified g states k actions) (hg : g.ListsRules)
    (hk : IsKernel g startRule k) (hclash : Row.Clash g actions (g.closure k)) :
  ∃ path, g.Clashes startRule path
  := by
  obtain ⟨paths, hp⟩ := hk.composed
  -- a reduction against a shift of the same closure
  have hshift : ∀ {s r}, Shifts g (g.closure k) s → Reduces g (g.closure k) s.toColumn r →
      ∃ path, g.Clashes startRule path := by
    intro s r hs hr
    obtain ⟨d, hd, hds⟩ := (shifts_closure hg hk.ordered).mp hs
    obtain ⟨c, l, hc, hcs, -, hcol⟩ := (reduces_closure hg hk.ordered).mp hr
    obtain ⟨t, rfl, rfl⟩ := Symbol.toColumn_eq_toColumn hcol
    apply hp.clashes_of_shift hc hd hcs hds
  cases hclash with
  | @reduction col r a hr ha hne =>
      have hreduce : ∀ r', a = .reduce r' → Reduces g (g.closure k) col r' →
          ∃ path, g.Clashes startRule path := by
        rintro r' rfl hr'
        obtain ⟨c, l, hc, hcs, rfl, rfl⟩ := (reduces_closure hg hk.ordered).mp hr
        obtain ⟨d, l', hd, hds, rfl, hcol⟩ := (reduces_closure hg hk.ordered).mp hr'
        obtain rfl := Lookahead.toColumn_injective hcol
        apply hp.clashes_of_reductions hc hd hcs hds
        intro heq
        apply hne (congrArg Action.reduce heq.symm)
      rcases ha with ha | ⟨r', heq, hr'⟩
      · cases a with
        | reduce r' => apply hreduce r' rfl (h.reduce col r' ha)
        | shift t =>
            obtain ⟨s, rfl, hs, -⟩ := h.shift col t ha
            apply hshift hs hr
      · apply hreduce r' heq hr'
  | shift hs hr =>
      rcases hr with hr | hr
      · apply hshift hs (h.reduce _ _ hr)
      · apply hshift hs hr

end Actions

/-- A kernel with a complete item whose closure calls for no reduction. -/
structure Mute (g : Grammar) (k : List Item) : Prop where
  complete : ∃ c ∈ coresOf k, c.symbol? g = none
  silent : ∀ c l, FollowedBy g k c l → c.symbol? g ≠ none

namespace Builder

variable {b b' : Builder} {i : Nat} {s s' : State} {symbols : Symbol → Prop}

/-! ### Settled states -/

/-- A state was expanded from a kernel that it widens, and it is dirty, or the kernel is its own,
or the kernel is mute. -/
structure Settled (g : Grammar) (startRule : Nat) (b : Builder) (symbols : Symbol → Prop) (i : Nat)
    (s : State) (k : List Item) : Prop where
  isKernel : IsKernel g startRule k
  widens : Widens k s.kernel
  justified : Justified g b.states k s.actions
  answers : Answers g b.states k symbols s.actions
  current : i ∈ b.dirty ∨ s.kernel = k ∨ Mute g k

/-- A state that was expanded but has no actions comes from a mute kernel. -/
theorem Settled.mute (h : Settled g startRule b (fun _ => True) i s k) (hg : g.ListsRules)
    (he : s.actions = ∅) :
  Mute g k
  := by
  have hno : ∀ col a, s.actions.get? col ≠ some a := by
    intro col a
    rw [he, OrderedMap.get?_empty]
    exact nofun
  have hk := h.isKernel.ordered
  constructor
  · obtain ⟨i, hi⟩ := List.exists_mem_of_ne_nil k h.isKernel.nonempty
    use i.core, mem_coresOf.mpr ⟨i, hi, rfl⟩
    by_contra hne
    obtain ⟨x, hx⟩ := Option.ne_none_iff_exists'.mp hne
    obtain ⟨t, -, ht, -⟩ := h.answers.shift x trivial
      ((shifts_closure hg hk).mpr ⟨i.core, .item hi, hx⟩)
    apply hno _ _ ht
  · intro c l hc hs
    apply hno _ _ (h.answers.reduce l.toColumn c.rule
      ((reduces_closure hg hk).mpr ⟨c, l, hc, hs, rfl, rfl⟩))

theorem Grows.statesWiden (h : Grows k b b') :
  StatesWiden b.states b'.states
  := by
  intro i s hs
  obtain ⟨s', hs', hw, -⟩ := h.states i s hs
  exact ⟨s', hs', hw⟩

/-- A state stays settled when a kernel is inserted, if growth that goes unnoticed is that of a
mute kernel. -/
theorem Settled.grows (h : Settled g startRule b symbols i s k) (hb : Grows k' b b')
    (hs : b.states[i]? = some s) (hs' : b'.states[i]? = some s')
    (hmute : s.actions = ∅ → coresOf s.kernel = coresOf k' → Mute g k) :
  Settled g startRule b' symbols i s' k
  := by
  obtain ⟨s'', hs'', hw, ha, hd⟩ := hb.states i s hs
  obtain rfl : s'' = s' := by rwa [hs'', Option.some.injEq] at hs'
  refine ⟨h.isKernel, h.widens.trans hw, ?_, ?_, ?_⟩
  · rw [ha]
    apply h.justified.mono hb.statesWiden
  · rw [ha]
    apply h.answers.mono hb.statesWiden
  · rcases h.current with hc | hc | hc
    · left
      apply hb.dirty i hc
    · rcases hd with hd | hd | ⟨he, hc'⟩
      · right
        left
        apply hd.trans hc
      · left
        apply hd
      · right
        right
        apply hmute he hc'
    · right
      right
      apply hc

/-- All states that were expanded are settled. -/
structure Invariant (g : Grammar) (startRule : Nat) (b : Builder) : Prop where
  coherent : b.Coherent g startRule
  settled : ∀ (i : Nat) (s : State), i < b.next → b.states[i]? = some s →
    ∃ k, Settled g startRule b (fun _ => True) i s k

/-- All states that were expanded are settled but for one that is being expanded from a kernel: it
lacks the shifts over other symbols than some. -/
structure Expanding (g : Grammar) (startRule : Nat) (i : Nat) (k : List Item)
    (symbols : Symbol → Prop) (b : Builder) : Prop where
  coherent : b.Coherent g startRule
  lt : i < b.next
  others : ∀ (j : Nat) (s : State), j ≠ i → j < b.next → b.states[j]? = some s →
    ∃ k, Settled g startRule b (fun _ => True) j s k
  own : ∃ s : State, b.states[i]? = some s ∧ Settled g startRule b symbols i s k

/-! ### Changing actions -/

/-- The builder with the actions of a state changed. -/
def alter (b : Builder) (i : Nat) (f : Actions → Actions) : Builder :=
  { b with states := b.states.modify i (fun s => { s with actions := f s.actions }) }

theorem setActions_eq (b : Builder) (i : Nat) (actions : Actions) :
  b.setActions i actions = b.alter i (fun _ => actions)
  := rfl

/-- A successor is added by inserting its kernel and a shift to the state it went to. -/
theorem addSuccessor_eq (b : Builder) (startRule i : Nat) (lane : List Column) (col : Column)
    (k : List Item) :
  addSuccessor startRule i lane b (col, k)
    = (b.insert startRule k (lane ++ [col])).1.alter i
        (fun actions => actions.insert col (.shift (b.insert startRule k (lane ++ [col])).2))
  := rfl

section Alter

variable {f : Actions → Actions}

theorem states_alter_self (hs : b.states[i]? = some s) :
  (b.alter i f).states[i]? = some { s with actions := f s.actions }
  := by
  simp [alter, Array.getElem?_modify, hs]

theorem states_alter_of_ne {j : Nat} (h : j ≠ i) :
  (b.alter i f).states[j]? = b.states[j]?
  := by
  simp [alter, Array.getElem?_modify, h.symm]

/-- When a state gets other actions, every state was there before, with other actions at most. -/
theorem states_alter_cases {j : Nat} {t : State} (ht : (b.alter i f).states[j]? = some t) :
  ∃ (s : State) (actions : Actions), b.states[j]? = some s ∧ t = { s with actions }
    ∧ (j ≠ i → actions = s.actions)
  := by
  by_cases hji : j = i
  · subst hji
    cases hs : b.states[j]? with
    | none => simp [alter, Array.getElem?_modify, hs] at ht
    | some s =>
        rw [states_alter_self hs, Option.some.injEq] at ht
        exact ⟨s, f s.actions, rfl, ht.symm, fun hne => absurd rfl hne⟩
  · rw [states_alter_of_ne hji] at ht
    exact ⟨t, t.actions, ht, rfl, fun _ => rfl⟩

theorem statesWiden_alter (b : Builder) (i : Nat) (f : Actions → Actions) :
  StatesWiden b.states (b.alter i f).states
  := by
  intro j s hs
  by_cases hj : j = i
  · subst hj
    exact ⟨_, states_alter_self hs, .refl _⟩
  · exact ⟨s, (states_alter_of_ne hj).trans hs, .refl _⟩

/-- The kernels and their index stay as they are when a state gets other actions. -/
theorem Coherent.alter (h : b.Coherent g startRule) (hi : i < b.next) (f : Actions → Actions) :
  (b.alter i f).Coherent g startRule
  := by
  -- every state has the kernel it had, and the actions it had unless it is the one changed
  have hstates : ∀ (j : Nat) (t : State), (b.alter i f).states[j]? = some t →
      ∃ s : State, b.states[j]? = some s ∧ t.kernel = s.kernel ∧ t.accepting = s.accepting
        ∧ (j ≠ i → t = s) := by
    intro j t ht
    obtain ⟨s, actions, hs, rfl, hactions⟩ := states_alter_cases ht
    refine ⟨s, hs, rfl, rfl, ?_⟩
    intro hj
    rw [hactions hj]
  refine ⟨?_, ?_, ?_, ?_, ?_, ?_, h.dirty_lt⟩
  · intro j t ht
    obtain ⟨s, hs, hk, -⟩ := hstates j t ht
    rw [hk]
    apply h.isKernel j s hs
  · intro cores j
    change j ∈ (b.byCores.get? cores).getD [] ↔ _
    rw [h.byCores]
    constructor
    · rintro ⟨s, hs, hc⟩
      obtain ⟨t, ht, hw⟩ := statesWiden_alter b i f j s hs
      exact ⟨t, ht, hw.cores.trans hc⟩
    · rintro ⟨t, ht, hc⟩
      obtain ⟨s, hs, hk, -⟩ := hstates j t ht
      exact ⟨s, hs, hk ▸ hc⟩
  · obtain ⟨ks, hlength, hpairs, hwidens⟩ := h.births
    use ks, hlength.trans Array.size_modify.symm, hpairs
    intro j t ht
    obtain ⟨s, hs, hk, -⟩ := hstates j t ht
    rw [hk]
    apply hwidens j s hs
  · intro j t ht
    obtain ⟨s, hs, hk, ha, -⟩ := hstates j t ht
    rw [hk, ha]
    apply h.accepting j s hs
  · intro j t hj ht
    have hj' : b.next ≤ j := hj
    obtain ⟨s, hs, -, -, heq⟩ := hstates j t ht
    rw [heq (by omega)]
    apply h.fresh j s hj' hs
  · change b.next ≤ (b.states.modify i _).size
    rw [Array.size_modify]
    apply h.next_le

/-- Other states stay settled when a state gets other actions. -/
theorem Settled.alter {j : Nat} (h : Settled g startRule b symbols j s k) (i : Nat)
    (f : Actions → Actions) :
  Settled g startRule (b.alter i f) symbols j s k
  where
  isKernel := h.isKernel
  widens := h.widens
  justified := h.justified.mono (statesWiden_alter b i f)
  answers := h.answers.mono (statesWiden_alter b i f)
  current := h.current

end Alter

end Builder

end CaptureLR

import CaptureLR.Proofs.Automaton.Lookaheads
import CaptureLR.Proofs.Automaton.Reaching

/-!
# The lanes of states

A state remembers the symbols that led to it when it was created. It has the cores of the
canonical state behind these symbols, and merges, later expansions and the dropping of states do
not change that. The shifts of an automaton that is built can be followed along every path of a
canonical state and lead to its cores, so they lead along the lane of a state to the cores of the
state, though maybe not to the state itself.
-/

namespace CaptureLR

variable {g : Grammar} {startRule : Nat} {a : Automaton} {b b' : Builder} {s : State}
  {path : List Symbol} {c : Core}

/-! ### Following shifts -/

namespace Automaton

/-- The state that a state shifts to under a column. -/
def shift? (a : Automaton) (i : Nat) (col : Column) : Option Nat :=
  match a.states[i]?.bind (fun s => s.actions.get? col) with
  | some (.shift t) => some t
  | _ => none

/-- The state that the shifts under a list of columns lead to from the initial state, one after
the other. -/
def follow? (a : Automaton) (cols : List Column) : Option Nat := cols.foldlM a.shift? 0

theorem shift?_eq_some {i t : Nat} {col : Column} (hs : a.states[i]? = some s)
    (ha : s.actions.get? col = some (.shift t)) :
  a.shift? i col = some t
  := by
  rw [shift?, hs, Option.bind_some, ha]

theorem follow?_concat {cols : List Column} {col : Column} {i t : Nat}
    (hi : a.follow? cols = some i) (ht : a.shift? i col = some t) :
  a.follow? (cols ++ [col]) = some t
  := by
  rw [follow?] at hi
  simp [follow?, List.foldlM_append, hi, ht]

/-- The shifts of a finished automaton can be followed along every path that leads to a canonical
state, to a state with the cores of the canonical state. -/
theorem Finished.exists_follow (h : a.Finished g startRule) (hg : g.ListsRules)
    (hc : AtKernel g startRule path c) :
  ∃ (i : Nat) (s : State), a.follow? (path.map Symbol.toColumn) = some i
    ∧ a.states[i]? = some s ∧ s.IsBehind g startRule path
  := by
  induction path using List.reverseRecOn generalizing c with
  | nil =>
      obtain ⟨s, hs, hb, -⟩ := h.isBehind_nil
      exact ⟨0, s, rfl, hs, hb⟩
  | append_singleton path x ih =>
      -- the canonical state before the last symbol has a kernel, too
      obtain ⟨d, hd, hx, rfl⟩ := atKernel_concat.mp hc
      obtain ⟨k, hk⟩ : ∃ k, AtKernel g startRule path k := by
        apply AtClosure.closure_induction (P := fun _ => ∃ k, AtKernel g startRule path k) _ _ hd
        · intro k hk
          exact ⟨k, hk⟩
        · intro _ _ _ hk _ _
          apply hk
      obtain ⟨i, s, hi, hs, hb⟩ := ih hk
      obtain ⟨k, hfinished⟩ := h.states i s hs
      obtain ⟨t, ht⟩ := hfinished.exists_target hg hb hd hx
      obtain ⟨-, target, htarget, hb'⟩ := hfinished.isBehind_shift hg hb ht
      refine ⟨t, target, ?_, htarget, hb'⟩
      rw [List.map_append, List.map_singleton]
      apply follow?_concat hi (shift?_eq_some hs ht)

end Automaton

/-! ### Lanes of states -/

/-- A kernel has the cores of the canonical state that a lane leads to. -/
def HasLane (g : Grammar) (startRule : Nat) (k : List Item) (lane : List Column) : Prop :=
  ∃ path : List Symbol, lane = path.map Symbol.toColumn
    ∧ ∀ c, AtKernel g startRule path c ↔ c ∈ coresOf k

section Lane

variable {k : List Item} {lane : List Column}

/-- A merge changes no cores. -/
theorem HasLane.merge (h : HasLane g startRule k lane) (k' : List Item) :
  HasLane g startRule (mergeFollows k k') lane
  := by
  obtain ⟨path, hpath, hcores⟩ := h
  use path, hpath
  intro c
  rw [cores_mergeFollows]
  apply hcores

/-- The lane of a kernel, with a symbol added, leads to the cores that the symbol leads to from the
kernel. -/
theorem HasLane.successor (h : HasLane g startRule k lane) (hg : g.ListsRules) (hk : Ordered k)
    (x : Symbol) :
  HasLane g startRule (successorKernel g k x) (lane ++ [x.toColumn])
  := by
  obtain ⟨path, hpath, hcores⟩ := h
  use path ++ [x]
  constructor
  · rw [hpath, List.map_append, List.map_singleton]
  · intro c
    apply atKernel_concat_iff hg hk.nodup hcores

end Lane

namespace Builder

/-- Whatever is expanded, every state has the cores of the canonical state that its lane leads to:
the lane of a kernel that is merged into another state is forgotten. -/
theorem Explored.hasLane (h : Explored g startRule b) (hg : g.ListsRules) (hs : s ∈ b.states) :
  HasLane g startRule s.kernel s.lane
  := by
  have hall := Explored.forall_states
    (P := fun s => IsKernel g startRule s.kernel ∧ HasLane g startRule s.kernel s.lane)
    (Q := fun k lane => IsKernel g startRule k ∧ HasLane g startRule k lane) ?_ ?_ ?_ ?_ ?_ h
  · exact (hall s hs).2
  · intro s actions hs
    apply hs
  · intro s k lane hs hk hw
    exact ⟨hs.1.merge hk.1 hw, hs.2.merge k⟩
  · intro s hs
    apply hs
  · exact ⟨IsKernel.initial g startRule, [], rfl, (Composed.initial g startRule).cores [] rfl⟩
  · intro s x hs hx
    exact ⟨hs.1.successor hg hx, hs.2.successor hg hs.1.ordered x⟩

/-- A run explores. -/
theorem Explored.run (h : Explored g startRule b) {fuel : Nat}
    (hrun : b.run g startRule fuel = .ok b') :
  Explored g startRule b'
  := by
  apply run_induction (P := Explored g startRule) _ _ h hrun
  · intro b b' i hp hb
    apply hb.reorder (states_pop hp)
  · intro b b' i he hb
    apply hb.expand he

/-- Dropping states changes the numbers and the targets of the others only. -/
theorem exists_of_mem_dropUnreachable {states : Array State} (h : s ∈ dropUnreachable states) :
  ∃ s₀ ∈ states, s.kernel = s₀.kernel ∧ s.lane = s₀.lane
  := by
  unfold dropUnreachable at h
  simp only at h
  split at h
  · exact ⟨s, h, rfl, rfl⟩
  · rw [keepStates, Array.mem_mapIdx] at h
    obtain ⟨i, hi, rfl⟩ := h
    obtain ⟨j, -, hj⟩ := List.mem_filterMap.mp (List.mem_toArray.mp (Array.getElem_mem hi))
    exact ⟨_, Array.mem_of_getElem? hj, rfl, rfl⟩

end Builder

namespace Automaton

/-- In an automaton that is built, every state has the cores of the canonical state that its lane
leads to. -/
theorem hasLane_of_build (hg : g.ListsRules) (h : build g startRule = .ok a)
    (hs : s ∈ a.states) :
  HasLane g startRule s.kernel s.lane
  := by
  obtain ⟨b, hb, rfl⟩ := exists_run_of_build h
  obtain ⟨s₀, hs₀, hkernel, hlane⟩ := Builder.exists_of_mem_dropUnreachable hs
  rw [hkernel, hlane]
  apply (Builder.Explored.initial.run hb).hasLane hg hs₀

/-- Along the lane of a state, shifts lead from the initial state to a state with the same cores:
none of them is missing. -/
theorem exists_follow_lane (hg : g.Assembled) (h : build g startRule = .ok a) :
  ∀ s ∈ a.states, ∃ (i : Nat) (t : State),
    a.follow? s.lane = some i ∧ a.states[i]? = some t ∧ coresOf t.kernel = coresOf s.kernel
  := by
  intro s hs
  have hlists := hg.listsRules
  have hfinished := finished_of_build hlists h
  obtain ⟨path, hpath, hb⟩ := hasLane_of_build hlists h hs
  obtain ⟨j, hj⟩ := Array.mem_iff_getElem?.mp hs
  obtain ⟨k, hk⟩ := hfinished.states j s hj
  -- a kernel is not empty, so the path leads to a canonical state
  obtain ⟨item, hitem⟩ := List.exists_mem_of_ne_nil _ hk.isKernel.nonempty
  have hcore := (hb item.core).mpr (mem_coresOf.mpr ⟨item, hitem, rfl⟩)
  obtain ⟨i, t, hfollow, ht, hb'⟩ := hfinished.exists_follow hlists hcore
  obtain ⟨k', hk'⟩ := hfinished.states i t ht
  refine ⟨i, t, ?_, ht, ?_⟩
  · rw [hpath, hfollow]
  · apply hk'.isKernel.ordered.coresOf_eq hk.isKernel.ordered
    intro c
    rw [← hb, ← hb']

/-- The lanes of a grammar with a state that two canonical states were merged into, of which its
lane leads to one. -/
theorem exists_follow_lane_barren :
  Grammar.barren.Assembled
    ∧ build Grammar.barren 0 = .ok barren
    ∧ State.barren ∈ barren.states
    ∧ State.barren.lane = [.terminal "x"]
    ∧ ∃ (i : Nat) (t : State), barren.follow? State.barren.lane = some i
        ∧ barren.states[i]? = some t ∧ coresOf t.kernel = coresOf State.barren.kernel
  := by
  refine ⟨Grammar.assembled_barren, build_barren, State.mem_barren, by decide +kernel, ?_⟩
  apply exists_follow_lane Grammar.assembled_barren build_barren _ State.mem_barren

end Automaton

end CaptureLR

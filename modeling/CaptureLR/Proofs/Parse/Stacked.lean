import CaptureLR.Parse.Evaluation
import CaptureLR.Proofs.Parse.Moves
import CaptureLR.Proofs.Parse.Table

/-!
# Stacks of derivation trees

The frames of a stack stand for derivation trees of the symbols on the way to the top state: each
frame covers the tokens of its tree and holds what the tree captures. Shifts and reductions keep
this, whatever is known of the states behind the symbols.
-/

namespace CaptureLR

open DerivationTree

variable {g : Grammar} {classes : ClassTable} {stands : List Symbol → Nat → Prop}
  {behind : Position} {frames : List Frame} {path front ss : List Symbol}
  {trees : List DerivationTree}

theorem DerivationTree.deriveFrom_concat {cs : List DerivationTree} {s : Symbol}
    {c : DerivationTree} (hcs : DeriveFrom g ss cs) (hc : c.DerivesFrom g s) :
  DeriveFrom g (ss ++ [s]) (cs ++ [c])
  := by
  induction ss generalizing cs with
  | nil =>
      cases cs with
      | nil => exact ⟨hc, trivial⟩
      | cons c cs => cases hcs
  | cons s ss ih =>
      cases cs with
      | nil => cases hcs
      | cons c cs => exact ⟨hcs.1, ih hcs.2⟩

/-- Frames stand for derivation trees of the symbols of a path, top first. Something holds of the
state of each frame and the path to it; behind the last tree comes a position. -/
inductive Stacked (g : Grammar) (classes : ClassTable) (stands : List Symbol → Nat → Prop) :
    (behind : Position) → List Frame → List Symbol → List DerivationTree → Prop
  | bottom {behind : Position} (h : stands [] 0) : Stacked g classes stands behind [⟨0, 0, 0, ∅⟩] [] []
  | push {behind : Position} {f : Frame} {frames : List Frame} {path : List Symbol} {s : Symbol}
      {trees : List DerivationTree} {t : DerivationTree} {state : Nat}
      (h : Stacked g classes stands (startOf t.tokens behind) (f :: frames) path trees)
      (ht : t.DerivesFrom g s) (hs : stands (path ++ [s]) state) :
      Stacked g classes stands behind
        (⟨state, f.stop, f.stop + t.tokens.length, t.slots g classes behind⟩ :: f :: frames)
        (path ++ [s]) (t :: trees)

namespace Stacked

/-- Something holds of the top state, and the top frame ends behind all tokens. -/
theorem exists_top (h : Stacked g classes stands behind frames path trees) :
  ∃ top below, frames = top :: below ∧ stands path top.state
    ∧ top.stop = (tokensOf trees.reverse).length
  := by
  induction h with
  | bottom h => exact ⟨_, _, rfl, h, rfl⟩
  | @push behind f frames path s trees t state h ht hs ih =>
      refine ⟨_, _, rfl, hs, ?_⟩
      obtain ⟨top, below, hf, -, hstop⟩ := ih
      cases hf
      simp only [hstop, List.reverse_cons, tokensOf_append, tokensOf, List.append_nil,
        List.length_append]

/-- The trees are those of the symbols of the path. -/
theorem deriveFrom (h : Stacked g classes stands behind frames path trees) :
  DeriveFrom g path trees.reverse
  := by
  induction h with
  | bottom => trivial
  | push _ ht _ ih =>
      rw [List.reverse_cons]
      apply deriveFrom_concat ih ht

theorem eq_nil (h : Stacked g classes stands behind frames [] trees) :
  trees = []
  := by
  generalize hp : ([] : List Symbol) = path at h
  cases h with
  | bottom => rfl
  | push => simp at hp

/-- A stack behind a single symbol stands for one tree, which the top frame has the values of. -/
theorem exists_tree {top : Frame} {s : Symbol}
    (h : Stacked g classes stands behind (top :: frames) [s] trees) :
  ∃ t, trees = [t] ∧ t.DerivesFrom g s ∧ top.slots = t.slots g classes behind
  := by
  generalize hp : [s] = path at h
  cases h with
  | bottom => cases hp
  | @push _ f _ front x trees t _ h ht _ =>
      rw [← List.nil_append [s]] at hp
      obtain ⟨rfl, hx⟩ := List.append_inj' hp rfl
      cases hx
      obtain rfl := h.eq_nil
      exact ⟨t, rfl, ht, rfl⟩

/-- What the frames of some symbols on top of a stack stand for: the frame below them that is exposed
when they are popped, trees of the symbols, the tokens covered and what was captured. -/
structure Popped (g : Grammar) (classes : ClassTable) (stands : List Symbol → Nat → Prop)
    (behind : Position) (frames : List Frame) (front ss : List Symbol)
    (trees : List DerivationTree) (exposed : Frame) (below : List Frame) : Prop where
  drop : frames.drop ss.length = exposed :: below
  derive : DeriveFrom g ss (trees.take ss.length).reverse
  stacked : Stacked g classes stands
    (startOf (tokensOf (trees.take ss.length).reverse) behind) (exposed :: below) front
    (trees.drop ss.length)
  first : ((frames.take ss.length).reverse.head?.map Frame.first).getD
    (tokensOf trees.reverse).length = exposed.stop
  stop : ((frames.take ss.length).reverse.getLast?.map Frame.stop).getD
    (tokensOf trees.reverse).length = (tokensOf trees.reverse).length
  slots : Slots.joinAll ((frames.take ss.length).reverse.map Frame.slots)
    = slotsOf g classes behind ∅ (trees.take ss.length).reverse

/-- The frames of the last symbols of a path can be popped. -/
theorem exists_popped (h : Stacked g classes stands behind frames (front ++ ss) trees) :
  ∃ exposed below, Popped g classes stands behind frames front ss trees exposed below
  := by
  induction ss using List.reverseRecOn generalizing behind frames trees with
  | nil =>
      obtain ⟨top, below, rfl, -, hstop⟩ := h.exists_top
      rw [List.append_nil] at h
      exact ⟨top, below, rfl, trivial, h, hstop.symm, rfl, rfl⟩
  | append_singleton ss s ih =>
      obtain ⟨top, _, hframes, -, hstop⟩ := h.exists_top
      rw [← List.append_assoc] at h
      generalize hp : front ++ ss ++ [s] = path at h
      cases h with
      | bottom => simp at hp
      | @push _ f frames path s' trees t state h ht hs =>
          obtain ⟨rfl, hs'⟩ := List.append_inj' hp rfl
          obtain rfl := List.singleton_inj.mp hs'
          cases hframes
          obtain ⟨top', _, hframes', -, hstop'⟩ := h.exists_top
          cases hframes'
          obtain ⟨exposed, below, hpop⟩ := ih h
          use exposed, below
          have hlen : (ss ++ [s]).length = ss.length + 1 := by simp
          have hbehind : startOf (tokensOf ((trees.take ss.length).reverse ++ [t])) behind
              = startOf (tokensOf (trees.take ss.length).reverse) (startOf t.tokens behind) := by
            rw [tokensOf_append, startOf_append, tokensOf, tokensOf, List.append_nil]
          refine ⟨?_, ?_, ?_, ?_, ?_, ?_⟩
          · rw [hlen, List.drop_succ_cons]
            apply hpop.drop
          · rw [hlen, List.take_succ_cons, List.reverse_cons]
            apply deriveFrom_concat hpop.derive ht
          · rw [hlen, List.take_succ_cons, List.drop_succ_cons, List.reverse_cons, hbehind]
            apply hpop.stacked
          · rw [hlen, List.take_succ_cons, List.reverse_cons, List.head?_append]
            rw [← hpop.first, ← hstop']
            cases ((f :: frames).take ss.length).reverse.head? <;> rfl
          · rw [hlen, List.take_succ_cons, List.reverse_cons, List.getLast?_concat]
            apply hstop
          · rw [hlen, List.take_succ_cons, List.take_succ_cons, List.reverse_cons, List.reverse_cons,
              List.map_append, Slots.joinAll, List.foldl_append, ← Slots.joinAll, hpop.slots,
              slotsOf_append]
            simp only [slotsOf, tokensOf, List.append_nil]
            rfl

end Stacked

/-! ### Configurations -/

/-- The frames of a configuration stand for trees, and their leaves are the tokens consumed. -/
structure Config.Stands {σ : Type} (g : Grammar) (classes : ClassTable)
    (stands : List Symbol → Nat → Prop) (c : Config σ) (path : List Symbol)
    (trees : List DerivationTree) : Prop where
  stacked : Stacked g classes stands c.lookahead.start c.frames path trees
  consumed : c.consumed.toList = tokensOf trees.reverse

namespace Config.Stands

variable {σ : Type} {m : Machine} {c : Config σ} {n : Nonterminal} {r : Nat}

/-- A shift puts a leaf on the stack. -/
theorem shifted (h : c.Stands g classes stands path trees) {k : Terminal}
    (hk : c.lookahead.kind = some k) {target : Nat} (hs : stands (path ++ [.terminal k]) target)
    (t : Token) (lastEnd : Position) (source : σ) :
  (Machine.shifted c target t lastEnd source).Stands g classes stands (path ++ [.terminal k])
    (.leaf c.lookahead :: trees)
  := by
  obtain ⟨top, below, hframes, -, hstop⟩ := h.stacked.exists_top
  have hsize : c.consumed.size = top.stop := by
    rw [hstop, ← h.consumed, Array.length_toList]
  constructor
  · have hstacked := h.stacked
    rw [hframes] at hstacked
    have hleaf : (leaf c.lookahead).DerivesFrom g (.terminal k) := by rw [DerivesFrom, hk]
    rw [Machine.shifted, hframes, hsize]
    apply Stacked.push hstacked hleaf hs
  · rw [Machine.shifted, Array.toList_push, h.consumed, List.reverse_cons, tokensOf_append]
    rfl

/-- The consumed tokens are those that the last trees cover behind those of the trees before. -/
theorem consumed_eq (h : c.Stands g classes stands path trees) (n : Nat) :
  c.consumed.toList = tokensOf (trees.drop n).reverse ++ tokensOf (trees.take n).reverse
  := by
  rw [h.consumed, ← tokensOf_append, ← List.reverse_append, List.take_append_drop]

/-- The consumed tokens that the last trees cover. -/
theorem span_eq (h : c.Stands g classes stands path trees) {n first : Nat}
    (hfirst : first = (tokensOf (trees.drop n).reverse).length) :
  Machine.span c.consumed first c.consumed.size = tokensOf (trees.take n).reverse
  := by
  rw [Machine.span, Array.toList_extract, List.extract_eq_take_drop, h.consumed_eq n, hfirst,
    List.drop_left]
  apply List.take_of_length_le
  rw [← Array.length_toList, h.consumed_eq n, List.length_append, Nat.add_sub_cancel_left]

/-- What is stored for a capture whose class is known. -/
theorem capture_eq {state : Nat} {consumed : Array Token} {first stop : Nat} {behind : Position}
    {slots : Slots} {cap : Capture}
    (hknown : ∀ id, cap.kind = .node id → (m.classes.get? id).isSome) :
  m.capture state consumed first stop behind slots cap
    = .ok (slots.captured m.classes (Machine.span consumed first stop) behind cap)
  := by
  unfold Machine.capture Slots.captured
  cases hk : cap.kind with
  | token => rfl
  | span => rfl
  | node id =>
      obtain ⟨n, hn⟩ := Option.isSome_iff_exists.mp (hknown id hk)
      simp only [hn]

/-- A reduction exposes a frame below the expansion and goes on to the state that the head of the
rule leads to from there; it puts a tree of the rule on the stack. -/
theorem exists_exposed (h : c.Stands g m.classes stands (front ++ g.expansion r) trees)
    (hg : g.Assembled) (hr : r ∈ g.rulesFor n)
    (hknown : ∀ cap id, g.capture? n = some cap → cap.kind = .node id →
      (m.classes.get? id).isSome) (state : Nat) :
  ∃ (exposed : Frame) (frames : Nat → List Frame), stands front exposed.state
    ∧ (∀ frames', m.reduce ⟨(g.expansion r).length, n, g.capture? n⟩ state c.frames c.consumed
          c.lookahead.start = .ok frames'
        ↔ ∃ target, m.table.successor? exposed.state n = some target ∧ frames' = frames target)
    ∧ ∀ target, stands (front ++ [.nonterminal n]) target →
        Config.Stands g m.classes stands { c with frames := frames target }
          (front ++ [.nonterminal n])
          (.node r (trees.take (g.expansion r).length).reverse
            :: trees.drop (g.expansion r).length)
  := by
  obtain ⟨exposed, below, hdrop, hderive, hstacked, hfirst, hlast, hslots⟩ :=
    h.stacked.exists_popped
  obtain ⟨top, _, htop, hstands, hstop⟩ := hstacked.exists_top
  cases htop
  have hsize : (tokensOf trees.reverse).length = c.consumed.size := by
    rw [← h.consumed, Array.length_toList]
  rw [hsize] at hfirst hlast
  have hconsumed := h.consumed_eq (g.expansion r).length
  have hspan := h.span_eq hstop
  have hhead : g.head r = n := by
    obtain ⟨e, he⟩ := hg.exists_rule hr
    rw [Grammar.head, he]
  have htokens : exposed.stop + (tokensOf (trees.take (g.expansion r).length).reverse).length
      = c.consumed.size := by
    rw [hstop, ← List.length_append, ← hconsumed, Array.length_toList]
  generalize (trees.take (g.expansion r).length).reverse = children at *
  use exposed, fun target => ⟨target, exposed.stop, c.consumed.size,
    (node r children).slots g m.classes c.lookahead.start⟩ :: exposed :: below
  refine ⟨hstands, ?_, ?_⟩
  · intro frames'
    unfold Machine.reduce
    simp only [hdrop, hfirst, hlast, hslots, DerivationTree.slots, hhead]
    -- what is captured in the span is what is captured in the tree
    cases hcap : g.capture? n with
    | none =>
        simp only
        cases m.table.successor? exposed.state n with
        | none => simp
        | some target => simp [eq_comm]
    | some cap =>
        simp only [capture_eq (fun id => hknown cap id hcap), hspan]
        cases m.table.successor? exposed.state n with
        | none => simp
        | some target => simp [eq_comm]
  · intro target ht
    constructor
    · have hnode : (node r children).DerivesFrom g (.nonterminal n) := ⟨hr, hderive⟩
      have hpush := Stacked.push hstacked hnode ht
      rw [DerivationTree.tokens, htokens] at hpush
      apply hpush
    · rw [hconsumed, List.reverse_cons, tokensOf_append]
      simp only [tokensOf, DerivationTree.tokens, List.append_nil]

end Config.Stands

end CaptureLR

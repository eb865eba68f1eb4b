import CaptureLR.Proofs.Parse.Validity
import CaptureLR.Proofs.Table.Loading

/-!
# Parses with checked tables

What is checked when a table is loaded is all that a parse needs to know its stack. However
wrong the table is, the initial frame stays at the bottom of the stack, every frame has a state of
the table, and the frames cover the consumed tokens without gaps. So a parse can find its table
invalid only where a reduction goes below the stack or a state does not go on with a nonterminal.
-/

namespace CaptureLR

variable {σ : Type} {next : σ → Option (TokenItem × σ)} {source : σ} {m : Machine} {c c' : Config σ}
  {frames : List Frame} {stop : Nat}

/-! ### Tilings -/

/-- The frame that a parse begins with. -/
def Frame.initial : Frame := ⟨0, 0, 0, ∅⟩

/-- The frames, top first, cover the tokens before a position: the initial frame is at the bottom,
and each other frame begins where the one below it stops. -/
inductive Tiles : List Frame → (stop : Nat) → Prop
  | initial : Tiles [.initial] 0
  | cover {frames : List Frame} {first stop : Nat} (h : Tiles frames first) (state : Nat)
      (slots : Slots) (hle : first ≤ stop) :
      Tiles (⟨state, first, stop, slots⟩ :: frames) stop

namespace Tiles

/-- The initial frame is at the bottom. -/
theorem getLast?_eq (h : Tiles frames stop) :
  frames.getLast? = some .initial
  := by
  induction h with
  | initial => rfl
  | cover h _ _ _ ih => rw [List.getLast?_cons, ih, Option.getD_some]

/-- Frames that are popped leave a tiling up to where the first of them begins, and they reach from
there to the end. -/
theorem drop (h : Tiles frames stop) {n : Nat} {exposed : Frame} {below : List Frame}
    (hdrop : frames.drop n = exposed :: below) :
  ∃ first, Tiles (exposed :: below) first ∧ first ≤ stop
    ∧ ((frames.take n).reverse.head?.map Frame.first).getD stop = first
    ∧ ((frames.take n).reverse.getLast?.map Frame.stop).getD stop = stop
  := by
  induction n generalizing frames stop with
  | zero =>
      rw [List.drop_zero] at hdrop
      subst hdrop
      exact ⟨stop, h, Nat.le_refl _, rfl, rfl⟩
  | succ n ih =>
      cases h with
      | initial => simp at hdrop
      | @cover frames middle stop h state slots hle =>
          rw [List.drop_succ_cons] at hdrop
          obtain ⟨first, htiles, hfirst, hhead, -⟩ := ih h hdrop
          refine ⟨first, htiles, Nat.le_trans hfirst hle, ?_, ?_⟩
          · rw [List.take_succ_cons, List.reverse_cons, List.head?_append]
            rw [← hhead]
            cases (frames.take n).reverse.head? <;> rfl
          · rw [List.take_succ_cons, List.reverse_cons, List.getLast?_concat]
            rfl

end Tiles

/-! ### Configurations -/

/-- The stack of a configuration fits a table: the initial frame is at its bottom, the table has the
states of all frames, and the frames cover the consumed tokens. -/
structure Config.Fits (t : Table) (c : Config σ) : Prop where
  bottom : c.frames.getLast? = some .initial
  states : ∀ f ∈ c.frames, f.state < t.states.size
  tiles : Tiles c.frames c.consumed.size

namespace Config

/-- The first configuration of a parse fits every table that has a state. -/
theorem fits_start {t : Table} (ht : 0 < t.states.size) (h : Machine.start next source = .ok c) :
  c.Fits t
  := by
  unfold Machine.start at h
  split at h
  · cases h
  · cases h
    refine ⟨rfl, ?_, .initial⟩
    intro f hf
    rw [List.mem_singleton] at hf
    rw [hf]
    apply ht

/-- A stack that fits is not empty. -/
theorem Fits.exists_top {t : Table} (h : c.Fits t) :
  ∃ top below, c.frames = top :: below ∧ top.state < t.states.size
  := by
  obtain ⟨hbottom, hstates, -⟩ := h
  cases hframes : c.frames with
  | nil =>
      rw [hframes] at hbottom
      cases hbottom
  | cons top below =>
      rw [hframes] at hstates
      exact ⟨top, below, rfl, hstates top List.mem_cons_self⟩

end Config

namespace Machine

/-- What a reduction leaves on the stack, if it does not fail: the frames below the popped ones, and
a frame for all that was popped, with a state that the table has for the nonterminal. -/
theorem exists_of_reduce {r : Reduction} {state : Nat} {consumed : Array Token}
    {position : Position} {frames' : List Frame}
    (h : m.reduce r state frames consumed position = .ok frames') :
  ∃ exposed below target slots, frames.drop r.popCount = exposed :: below
    ∧ m.table.successor? exposed.state r.into = some target
    ∧ frames' = ⟨target,
        ((frames.take r.popCount).reverse.head?.map Frame.first).getD consumed.size,
        ((frames.take r.popCount).reverse.getLast?.map Frame.stop).getD consumed.size, slots⟩
      :: exposed :: below
  := by
  unfold reduce at h
  split at h
  · cases h
  · next exposed below hdrop =>
    simp only at h
    split at h
    · cases h
    · next slots hslots =>
      split at h
      · cases h
      · next target htarget =>
        cases h
        exact ⟨exposed, below, target, slots, hdrop, htarget, rfl⟩

/-- A reduction whose capture has a known class finds the table invalid only if it is too deep or
nowhere to go on to. -/
theorem gap_of_reduce {r : Reduction} {state : Nat} {consumed : Array Token} {position : Position}
    {state' : Nat} {gap : TableGap}
    (hknown : ∀ cap id, r.capture = some cap → cap.kind = .node id → (m.classes.get? id).isSome)
    (h : m.reduce r state frames consumed position = .error (.invalidTable state' gap)) :
  gap = .deepReduction ∨ gap = .successor r.into
  := by
  unfold reduce at h
  split at h
  · cases h
    left
    rfl
  · next exposed below hdrop =>
    simp only at h
    split at h
    · next e he =>
      cases hcap : r.capture with
      | none =>
          rw [hcap] at he
          cases he
      | some cap =>
          simp only [hcap] at he
          obtain ⟨slots, hslots⟩ := isOk_capture (m := m) (fun id => hknown cap id hcap)
          rw [hslots] at he
          cases he
    · split at h
      · cases h
        right
        rfl
      · cases h

/-- A move with a checked table leads from a stack that fits to one that fits. -/
theorem Moves.fits {trees trees' : List DerivationTree}
    (h : m.Moves next (c, trees) (c', trees')) (hm : m.table.IsChecked m.classes)
    (hc : c.Fits m.table) :
  c'.Fits m.table
  := by
  obtain ⟨hbottom, hstates, htiles⟩ := hc
  cases h with
  | @shift _ _ top target t lastEnd source habout hf =>
      obtain ⟨hframes, hrow, -, haction⟩ := habout
      refine ⟨?_, ?_, ?_⟩
      · rw [shifted, List.getLast?_cons, hbottom, Option.getD_some]
      · intro f hf
        rw [shifted, List.mem_cons] at hf
        rcases hf with rfl | hf
        · apply hm.shift _ _ _ _ hrow haction
        · apply hstates f hf
      · rw [shifted, Array.size_push]
        apply htiles.cover
        apply Nat.le_succ
  | @reduce _ _ top rule r frames habout hr hf =>
      obtain ⟨exposed, below, target, slots, hdrop, htarget, rfl⟩ := exists_of_reduce hf
      obtain ⟨first, hpopped, hle, hfirst, hstop⟩ := htiles.drop hdrop
      obtain ⟨row, hrow, haction⟩ := Table.successor?_eq_some.mp htarget
      have htiles' := hpopped.cover target slots hle
      rw [hfirst, hstop]
      refine ⟨htiles'.getLast?_eq, ?_, htiles'⟩
      intro f hf
      rcases List.mem_cons.mp hf with rfl | hf
      · apply hm.shift _ _ _ _ hrow haction
      · apply hstates f
        apply List.mem_of_mem_drop
        rw [hdrop]
        apply hf

/-- All configurations that a parse with a checked table comes by fit the table. -/
theorem Reached.fits (h : m.Reached next source c) (hm : m.table.IsChecked m.classes) :
  c.Fits m.table
  := by
  induction h with
  | start h => apply Config.fits_start hm.nonempty h
  | step _ hs ih =>
      obtain ⟨trees, hmove⟩ := Machine.exists_moves hs []
      apply hmove.fits hm ih

/-- A step from a stack that fits finds a checked table invalid only if a reduction is too deep or
has nowhere to go on to. -/
theorem gap_of_step (hm : m.table.IsChecked m.classes) (hc : c.Fits m.table) {state : Nat}
    {gap : TableGap} (h : m.step next c = .done (.error (.invalidTable state gap))) :
  gap = .deepReduction ∨ ∃ n, gap = .successor n
  := by
  obtain ⟨top, below, hframes, htop⟩ := hc.exists_top
  have hrow := Array.getElem?_eq_getElem htop
  unfold step at h
  simp only [hframes, hrow] at h
  split at h
  · cases h
  · split at h
    · cases h
    · split at h <;> cases h
    · next rule haction =>
      obtain ⟨r, hr⟩ := hm.reduce _ _ _ _ hrow haction
      simp only [hr] at h
      split at h
      · next e he =>
        cases h
        rcases gap_of_reduce (hm.known rule r · · hr) he with rfl | rfl
        · left
          rfl
        · exact Or.inr ⟨_, rfl⟩
      · cases h

end Machine

/-! ### Loaded tables -/

/-- What is checked when a table is loaded is enough for a parse with any source of tokens: the
stack keeps its initial frame and covers the tokens consumed, with states that the table has. So
the table is found invalid only for a reduction deeper than the stack or for a state without a
successor for a nonterminal. -/
theorem TableRecord.fits_of_load {classes : ClassTable} (hc : classes.Constructed)
    {record : TableRecord} {table : Table} (h : record.load classes = .ok table) {σ : Type}
    (next : σ → Option (TokenItem × σ)) (source : σ) :
  (∀ c, Machine.Reached ⟨table, classes⟩ next source c → c.Fits table)
    ∧ ∀ fuel state gap,
        Machine.parse ⟨table, classes⟩ next fuel source = some (.error (.invalidTable state gap)) →
        gap = .deepReduction ∨ ∃ n, gap = .successor n
  := by
  have hchecked := isChecked_of_load hc h
  constructor
  · intro c hreached
    apply hreached.fits hchecked
  · intro fuel state gap hparse
    rcases Machine.exists_step_of_parse hparse with ⟨e, -, he⟩ | ⟨c, hreached, hdone⟩
    · cases he
    · apply Machine.gap_of_step (m := ⟨table, classes⟩) hchecked (hreached.fits hchecked) hdone

/-- A stored table whose only state shifts to itself and reduces more than there is. -/
def TableRecord.greedy : TableRecord where
  states := [⟨false, [⟨.terminal "x", .shift 0⟩, ⟨.endOfInput, .reduce 0⟩]⟩]
  reductions := .ofList [(0, ⟨3, ⟨1⟩, some "root", some false, some (.nodeClass "Group")⟩)]

/-- The table that is loaded from it. -/
def Table.greedy : Table where
  states := #[⟨false, .ofList [(.terminal "x", .shift 0), (.endOfInput, .reduce 0)]⟩]
  reductions := .ofList [(0, ⟨3, ⟨1⟩, some ⟨false, "root", .node ⟨0⟩⟩⟩)]

/-- A single token. -/
def Token.single : List Token := [⟨some "x", ⟨0, 0, 0⟩, ⟨0, 1, 1⟩, .none⟩]

/-- The theorem at a table by which a parse goes below its stack. -/
theorem TableRecord.fits_of_load_greedy :
  ClassTable.group.Constructed ∧ TableRecord.greedy.load .group = .ok .greedy
    ∧ Machine.parse ⟨.greedy, .group⟩ nextOfList 3 Token.single
      = some (.error (.invalidTable 0 .deepReduction))
    ∧ (∀ c, Machine.Reached ⟨.greedy, .group⟩ nextOfList Token.single c → c.Fits Table.greedy)
    ∧ ∀ fuel state gap,
        Machine.parse ⟨.greedy, .group⟩ nextOfList fuel Token.single
          = some (.error (.invalidTable state gap)) →
        gap = .deepReduction ∨ ∃ n, gap = .successor n
  := by
  have hclasses : ClassTable.group.Constructed := .collected ClassTable.collect_group
  have hload : TableRecord.greedy.load .group = .ok .greedy := by decide +kernel
  use hclasses, hload, rfl
  apply TableRecord.fits_of_load hclasses hload

end CaptureLR

import CaptureLR.Grammar.Derivation
import CaptureLR.Parse.Machine
import Mathlib.Logic.Relation

/-!
# Runs of the parsing machine

A move is a step of the machine that does not end the parse, seen together with the derivation
trees that the frames of the stack stand for. A run is a sequence of moves and a last step; there
is only one. What a source of tokens has to give is described without the machine.
-/

namespace CaptureLR

variable {σ : Type} {next : σ → Option (TokenItem × σ)} {lastEnd behind : Position} {source : σ}
  {t : Token} {ts : List Token}

/-! ### Sources of tokens -/

/-- A source gives some tokens, without an error, and then ends or gives a token that marks the end
of the input. The position is that of the end mark, or the end of the last token before it. -/
inductive Reads (next : σ → Option (TokenItem × σ)) :
    (lastEnd : Position) → σ → List Token → (behind : Position) → Prop
  | exhausted {lastEnd : Position} {source : σ} (h : next source = none) :
      Reads next lastEnd source [] lastEnd
  | stopped {lastEnd : Position} {source source' : σ} {t : Token}
      (h : next source = some (.ok t, source')) (hk : t.kind = none) :
      Reads next lastEnd source [] t.start
  | token {lastEnd behind : Position} {source source' : σ} {t : Token} {ts : List Token}
      (h : next source = some (.ok t, source')) (hk : t.kind ≠ none)
      (hs : Reads next t.stop source' ts behind) :
      Reads next lastEnd source (t :: ts) behind

/-- What is to come if a token was fetched from a source. -/
inductive Ahead (next : σ → Option (TokenItem × σ)) (t : Token) (lastEnd : Position) (source : σ) :
    List Token → (behind : Position) → Prop
  | stopped (hk : t.kind = none) : Ahead next t lastEnd source [] t.start
  | token {ts : List Token} {behind : Position} (hk : t.kind ≠ none)
      (hs : Reads next lastEnd source ts behind) :
      Ahead next t lastEnd source (t :: ts) behind

/-- What a source gives is what is to come after a token is fetched. -/
theorem reads_iff :
  Reads next lastEnd source ts behind
    ↔ ∃ t lastEnd' source', fetch next lastEnd source = .ok (t, lastEnd', source')
      ∧ Ahead next t lastEnd' source' ts behind
  := by
  unfold fetch
  constructor
  · intro h
    cases h with
    | exhausted h =>
        rw [h]
        exact ⟨_, _, _, rfl, .stopped rfl⟩
    | stopped h hk =>
        rw [h]
        exact ⟨_, _, _, rfl, .stopped hk⟩
    | token h hk hs =>
        rw [h]
        exact ⟨_, _, _, rfl, .token hk hs⟩
  · rintro ⟨t, lastEnd', source', hf, ha⟩
    cases hn : next source with
    | none =>
        rw [hn] at hf
        cases hf
        cases ha with
        | stopped => apply Reads.exhausted hn
        | token hk => cases hk rfl
    | some item =>
        rw [hn] at hf
        obtain ⟨item, source''⟩ := item
        cases item with
        | error e => cases hf
        | ok t' =>
            cases hf
            cases ha with
            | stopped hk => apply Reads.stopped hn hk
            | token hk hs => apply Reads.token hn hk hs

/-- The source that gives the ts of a list. -/
def nextOfList : List Token → Option (TokenItem × List Token)
  | [] => none
  | t :: ts => some (.ok t, ts)

theorem exists_reads_nextOfList (h : ∀ t ∈ ts, t.kind ≠ none) (lastEnd : Position) :
  ∃ behind, Reads nextOfList lastEnd ts ts behind
  := by
  induction ts generalizing lastEnd with
  | nil => exact ⟨lastEnd, .exhausted rfl⟩
  | cons t ts ih =>
      obtain ⟨behind, hreads⟩ := ih (fun t ht => h t (List.mem_cons_of_mem _ ht)) t.stop
      exact ⟨behind, .token rfl (h t List.mem_cons_self) hreads⟩

namespace Machine

variable {m : Machine} {c c' : Config σ} {r : ParseResult}

/-! ### Moves -/

/-- The configuration behind a shift, with the token that comes next. -/
def shifted (c : Config σ) (target : Nat) (t : Token) (lastEnd : Position) (source : σ) :
    Config σ :=
  ⟨⟨target, c.consumed.size, c.consumed.size + 1, ∅⟩ :: c.frames, c.consumed.push c.lookahead,
    t, lastEnd, source⟩

/-- The top state does not accept and has an action for the lookahead. -/
inductive About (m : Machine) (c : Config σ) : Frame → Action → Prop
  | mk {top : Frame} {below : List Frame} {row : TableState} {action : Action}
      (hframes : c.frames = top :: below) (hrow : m.table.states[top.state]? = some row)
      (haccepting : row.accepting = false)
      (haction : row.actions.get? c.lookahead.lookahead.toColumn = some action) :
      About m c top action

/-- A configuration becomes another one in a step, and the trees that the frames stand for, top
first, grow by a leaf or are joined to a tree of the rule that is reduced. -/
inductive Moves (m : Machine) (next : σ → Option (TokenItem × σ)) :
    Config σ × List DerivationTree → Config σ × List DerivationTree → Prop
  | shift {c : Config σ} {trees : List DerivationTree} {top : Frame} {target : Nat} {t : Token}
      {lastEnd : Position} {source : σ} (h : m.About c top (.shift target))
      (hf : fetch next c.lastEnd c.source = .ok (t, lastEnd, source)) :
      Moves m next (c, trees) (shifted c target t lastEnd source, .leaf c.lookahead :: trees)
  | reduce {c : Config σ} {trees : List DerivationTree} {top : Frame} {rule : Nat} {r : Reduction}
      {frames : List Frame} (h : m.About c top (.reduce rule))
      (hr : m.table.reductions.get? rule = some r)
      (hf : m.reduce r top.state c.frames c.consumed c.lookahead.start = .ok frames) :
      Moves m next (c, trees) ({ c with frames },
        .node rule (trees.take r.popCount).reverse :: trees.drop r.popCount)

theorem About.unique {top top' : Frame} {action action' : Action} (h : m.About c top action)
    (h' : m.About c top' action') :
  top = top' ∧ action = action'
  := by
  obtain ⟨hframes, hrow, -, haction⟩ := h
  obtain ⟨hframes', hrow', -, haction'⟩ := h'
  rw [hframes] at hframes'
  cases hframes'
  rw [hrow] at hrow'
  cases hrow'
  rw [haction] at haction'
  cases haction'
  exact ⟨rfl, rfl⟩

/-- There is at most one move from a configuration. -/
theorem rightUnique_moves (m : Machine) (next : σ → Option (TokenItem × σ)) :
  Relator.RightUnique (m.Moves next)
  := by
  intro x y z hy hz
  cases hy with
  | shift h hf =>
      cases hz with
      | shift h' hf' =>
          obtain ⟨-, ha⟩ := h.unique h'
          cases ha
          rw [hf] at hf'
          cases hf'
          rfl
      | reduce h' =>
          obtain ⟨-, ha⟩ := h.unique h'
          cases ha
  | reduce h hr hf =>
      cases hz with
      | shift h' =>
          obtain ⟨-, ha⟩ := h.unique h'
          cases ha
      | reduce h' hr' hf' =>
          obtain ⟨rfl, ha⟩ := h.unique h'
          cases ha
          rw [hr] at hr'
          cases hr'
          rw [hf] at hf'
          cases hf'
          rfl

/-- A move is a step that does not end the parse. -/
theorem Moves.step {x y : Config σ × List DerivationTree} (h : m.Moves next x y) :
  m.step next x.1 = .continue y.1
  := by
  cases h with
  | shift h hf =>
      obtain ⟨hframes, hrow, haccepting, haction⟩ := h
      simp only [Machine.step, hframes, hrow, haccepting, haction, hf, shifted]
      rfl
  | reduce h hr hf =>
      obtain ⟨hframes, hrow, haccepting, haction⟩ := h
      rw [hframes] at hf
      simp only [Machine.step, hframes, hrow, haccepting, haction, hr, hf]
      rfl

/-- A step that does not end the parse is a move, whatever trees the frames stand for. -/
theorem exists_moves (h : m.step next c = .continue c') (trees : List DerivationTree) :
  ∃ trees', m.Moves next (c, trees) (c', trees')
  := by
  unfold step at h
  split at h
  · cases h
  · next top below hframes =>
    split at h
    · cases h
    · next row hrow =>
      split at h
      · cases h
      · next haccepting =>
        have haccepting : row.accepting = false := by simpa using haccepting
        split at h
        · cases h
        · next target haction =>
          have habout : m.About c top (.shift target) := ⟨hframes, hrow, haccepting, haction⟩
          split at h
          · cases h
          · next t lastEnd source hf =>
            rw [← hframes] at h
            cases h
            exact ⟨_, .shift habout hf⟩
        · next rule haction =>
          have habout : m.About c top (.reduce rule) := ⟨hframes, hrow, haccepting, haction⟩
          split at h
          · cases h
          · next r hr =>
            split at h
            · cases h
            · next frames hf =>
              rw [← hframes] at hf
              cases h
              exact ⟨_, .reduce habout hr hf⟩

/-- A step ends the parse with a value exactly if the top state accepts; the value is what was
captured as `root`. -/
theorem step_eq_ok_iff {v : Value} :
  m.step next c = .done (.ok v)
    ↔ ∃ (top : Frame) (below : List Frame) (row : TableState), c.frames = top :: below
      ∧ m.table.states[top.state]? = some row ∧ row.accepting = true ∧ v = rootValue top.slots
  := by
  constructor
  · intro h
    unfold step at h
    split at h
    · cases h
    · next top below hframes =>
      split at h
      · cases h
      · next row hrow =>
        split at h
        · next haccepting =>
          cases h
          exact ⟨top, below, row, hframes, hrow, haccepting, rfl⟩
        · split at h
          · cases h
          · split at h <;> cases h
          · split at h
            · cases h
            · split at h <;> cases h
  · rintro ⟨top, below, row, hframes, hrow, haccepting, rfl⟩
    simp only [step, hframes, hrow, haccepting, if_true]

/-- A reduction does not fail for the token that comes next. -/
theorem reduce_ne_parse (m : Machine) (r : Reduction) (state : Nat) (frames : List Frame)
    (consumed : Array Token) (position : Position) (e : ParseError) :
  m.reduce r state frames consumed position ≠ .error (.parse e)
  := by
  intro h
  unfold reduce at h
  split at h
  · cases h
  · next exposed below hdrop =>
    simp only at h
    split at h
    · next e' hcaptured =>
      cases h
      cases hcap : r.capture with
      | none =>
          rw [hcap] at hcaptured
          cases hcaptured
      | some cap =>
          simp only [hcap, capture] at hcaptured
          split at hcaptured
          · split at hcaptured <;> cases hcaptured
          · cases hcaptured
          · cases hcaptured
    · split at h <;> cases h

/-- A step ends with a parse error exactly if the top state, which does not accept, has no action
for the lookahead. -/
theorem step_eq_parse_iff {e : ParseError} :
  m.step next c = .done (.error (.parse e))
    ↔ ∃ (top : Frame) (below : List Frame) (row : TableState), c.frames = top :: below
      ∧ m.table.states[top.state]? = some row ∧ row.accepting = false
      ∧ row.actions.get? c.lookahead.lookahead.toColumn = none
      ∧ e = ⟨c.lookahead, m.table.expected top.state⟩
  := by
  constructor
  · intro h
    unfold step at h
    split at h
    · cases h
    · next top below hframes =>
      split at h
      · cases h
      · next row hrow =>
        split at h
        · cases h
        · next haccepting =>
          split at h
          · next haction =>
            cases h
            exact ⟨top, below, row, hframes, hrow, by simpa using haccepting, haction, rfl⟩
          · split at h <;> cases h
          · split at h
            · cases h
            · split at h
              · next hf =>
                cases h
                cases m.reduce_ne_parse _ _ _ _ _ _ hf
              · cases h
  · rintro ⟨top, below, row, hframes, hrow, haccepting, haction, rfl⟩
    simp only [step, hframes, hrow, haccepting, haction, Bool.false_eq_true, if_false]

/-! ### Runs -/

/-- The configurations that a parse of a source comes by. -/
inductive Reached (m : Machine) (next : σ → Option (TokenItem × σ)) (source : σ) : Config σ → Prop
  | start {c : Config σ} (h : start next source = .ok c) : Reached m next source c
  | step {c c' : Config σ} (h : Reached m next source c) (hs : m.step next c = .continue c') :
      Reached m next source c'

/-- Moves lead from the first configuration to every one that a parse comes by. -/
theorem Reached.exists_moves (h : m.Reached next source c) :
  ∃ c₀ trees, Machine.start next source = .ok c₀
    ∧ Relation.ReflTransGen (m.Moves next) (c₀, []) (c, trees)
  := by
  induction h with
  | start h => exact ⟨_, [], h, .refl⟩
  | step _ hs ih =>
      obtain ⟨c₀, trees, hstart, hmoves⟩ := ih
      obtain ⟨trees', hmove⟩ := Machine.exists_moves hs trees
      exact ⟨c₀, trees', hstart, hmoves.tail hmove⟩

/-- A run that ends comes by a configuration whose step ends the parse. -/
theorem Reached.exists_step_of_run (h : m.Reached next source c) {fuel : Nat}
    (hrun : m.run next fuel c = some r) :
  ∃ c', m.Reached next source c' ∧ m.step next c' = .done r
  := by
  induction fuel generalizing c with
  | zero => cases hrun
  | succ fuel ih =>
      unfold run at hrun
      cases hs : m.step next c with
      | done r' =>
          rw [hs] at hrun
          cases hrun
          exact ⟨c, h, hs⟩
      | «continue» c' =>
          rw [hs] at hrun
          apply ih (h.step hs) hrun

/-- A parse that ends does so at its first token, or with the step of a configuration it comes
by. -/
theorem exists_step_of_parse {fuel : Nat} (h : m.parse next fuel source = some r) :
  (∃ e, Machine.start next source = .error e ∧ r = .error (.tokenize e))
    ∨ ∃ c, m.Reached next source c ∧ m.step next c = .done r
  := by
  unfold parse at h
  cases hstart : Machine.start next source with
  | error e =>
      rw [hstart] at h
      cases h
      exact Or.inl ⟨e, rfl, rfl⟩
  | ok c =>
      rw [hstart] at h
      exact Or.inr (Reached.exists_step_of_run (.start hstart) h)

/-- A run that ends comes by moves to a step that ends the parse. -/
theorem exists_moves_of_run {fuel : Nat} (h : m.run next fuel c = some r)
    (trees : List DerivationTree) :
  ∃ y : Config σ × List DerivationTree,
    Relation.ReflTransGen (m.Moves next) (c, trees) y ∧ m.step next y.1 = .done r
  := by
  induction fuel generalizing c trees with
  | zero => cases h
  | succ fuel ih =>
      unfold run at h
      cases hs : m.step next c with
      | done r' =>
          rw [hs] at h
          cases h
          exact ⟨(c, trees), .refl, hs⟩
      | «continue» c' =>
          rw [hs] at h
          obtain ⟨trees', hmove⟩ := exists_moves hs trees
          obtain ⟨y, hmoves, hdone⟩ := ih h trees'
          exact ⟨y, .head hmove hmoves, hdone⟩

/-- What a parse comes by depends on the tokens that were fetched only: another source that gives
the same tokens leads to the same frames. -/
theorem Reached.replay (h : m.Reached next source c) (rest : List Token) :
  ∃ c', m.Reached nextOfList (c.consumed.toList ++ c.lookahead :: rest) c'
    ∧ c'.frames = c.frames ∧ c'.consumed = c.consumed ∧ c'.lookahead = c.lookahead
    ∧ c'.source = rest
  := by
  induction h generalizing rest with
  | @start c h =>
      unfold Machine.start at h
      split at h
      · cases h
      · next t lastEnd source' hf =>
        cases h
        exact ⟨_, .start rfl, rfl, rfl, rfl, rfl⟩
  | @step c c' _ hs ih =>
      obtain ⟨trees, hmove⟩ := Machine.exists_moves hs []
      cases hmove with
      | @shift _ _ top target t lastEnd source' habout hf =>
          obtain ⟨hframes, hrow, haccepting, haction⟩ := habout
          obtain ⟨d, hd, hdframes, hdconsumed, hdlookahead, hdsource⟩ := ih (t :: rest)
          rw [← hdframes] at hframes
          rw [← hdlookahead] at haction
          have hfetch : fetch nextOfList d.lastEnd d.source = .ok (t, t.stop, rest) := by
            rw [hdsource]
            rfl
          have hmove : m.Moves nextOfList (d, []) _ :=
            .shift ⟨hframes, hrow, haccepting, haction⟩ hfetch
          have hreached := hd.step hmove.step
          rw [shifted, Array.toList_push, List.append_assoc, List.singleton_append]
          refine ⟨_, hreached, ?_, ?_, rfl, rfl⟩
          · rw [shifted, hdframes, hdconsumed]
          · rw [shifted, hdconsumed, hdlookahead]
      | @reduce _ _ top rule r frames habout hr hf =>
          obtain ⟨hframes, hrow, haccepting, haction⟩ := habout
          obtain ⟨d, hd, hdframes, hdconsumed, hdlookahead, hdsource⟩ := ih rest
          rw [← hdframes] at hframes
          rw [← hdframes, ← hdconsumed, ← hdlookahead] at hf
          rw [← hdlookahead] at haction
          have hmove : m.Moves nextOfList (d, []) _ :=
            .reduce ⟨hframes, hrow, haccepting, haction⟩ hr hf
          exact ⟨_, hd.step hmove.step, rfl, hdconsumed, hdlookahead, hdsource⟩

/-- Moves to a step that ends the parse are a run that ends, with enough fuel. -/
theorem exists_run_of_moves {x y : Config σ × List DerivationTree}
    (h : Relation.ReflTransGen (m.Moves next) x y) (hdone : m.step next y.1 = .done r) :
  ∃ n, ∀ fuel, n ≤ fuel → m.run next fuel x.1 = some r
  := by
  induction h using Relation.ReflTransGen.head_induction_on with
  | refl =>
      use 1
      intro fuel hle
      obtain ⟨fuel, rfl⟩ := Nat.exists_eq_add_of_le' hle
      rw [run, hdone]
  | head hmove _ ih =>
      obtain ⟨n, hn⟩ := ih
      use n + 1
      intro fuel hle
      obtain ⟨fuel, rfl⟩ := Nat.exists_eq_add_of_le' (Nat.le_trans (Nat.le_add_left 1 n) hle)
      rw [run, hmove.step]
      apply hn
      apply Nat.le_of_succ_le_succ hle

/-- Moves from one configuration that both lead to the end of a parse lead to the same. -/
theorem eq_of_moves {x y z : Config σ × List DerivationTree} {r r' : ParseResult}
    (hy : Relation.ReflTransGen (m.Moves next) x y) (hydone : m.step next y.1 = .done r)
    (hz : Relation.ReflTransGen (m.Moves next) x z) (hzdone : m.step next z.1 = .done r') :
  y = z
  := by
  have hstuck : ∀ {u v : Config σ × List DerivationTree} {r : ParseResult},
      m.step next u.1 = .done r → Relation.ReflTransGen (m.Moves next) u v → u = v := by
    intro u v r hdone h
    cases h using Relation.ReflTransGen.head_induction_on with
    | refl => rfl
    | head hmove _ =>
        rw [hmove.step] at hdone
        cases hdone
  rcases Relation.ReflTransGen.total_of_right_unique (rightUnique_moves m next) hy hz with h | h
  · apply hstuck hydone h
  · apply (hstuck hzdone h).symm

end Machine

end CaptureLR

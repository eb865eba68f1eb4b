import CaptureLR.Proofs.Automaton.Shape
import CaptureLR.Proofs.Parse.Soundness

/-!
# What a parse reads

The end of the input is never shifted, and an item is fetched only when the one before it was
shifted. So a parse reads a source no further than the first item that is the end of the input or an
error, and one that fails at an item reads nothing behind it: sources that give the same items up to
there give the same result, with the same number of steps.
-/

namespace CaptureLR

open Relation (ReflTransGen)

variable {σ τ : Type} {next : σ → Option (TokenItem × σ)} {next' : τ → Option (TokenItem × τ)}
  {source : σ} {source' : τ} {lastEnd : Position} {m : Machine} {c c' : Config σ} {d : Config τ}
  {n k : Nat}

/-! ### Items -/

/-- The first items of a source that a parse can need: no more than asked for, and nothing behind
the first one that is an error or the end of the input. A source that runs out has the end of the
input where its last token ends. -/
def needed (next : σ → Option (TokenItem × σ)) : Nat → (lastEnd : Position) → σ → List TokenItem
  | 0, _, _ => []
  | n + 1, lastEnd, source =>
      match next source with
      | none => [.ok (.endOfInput lastEnd)]
      | some (.error e, _) => [.error e]
      | some (.ok t, source) => .ok t :: if t.isEnd then [] else needed next n t.stop source

/-- The first item needed is the one that is fetched. -/
theorem needed_succ (next : σ → Option (TokenItem × σ)) (n : Nat) (lastEnd : Position) (source : σ) :
  needed next (n + 1) lastEnd source
    = match fetch next lastEnd source with
      | .error e => [.error e]
      | .ok (t, lastEnd, source) => .ok t :: if t.isEnd then [] else needed next n lastEnd source
  := by
  rw [needed, fetch]
  cases next source with
  | none => rfl
  | some item =>
      obtain ⟨item, source'⟩ := item
      cases item <;> rfl

theorem eq_stop_of_fetch {t : Token} {p : Position} {s : σ}
    (h : fetch next lastEnd source = .ok (t, p, s)) :
  p = t.stop
  := by
  unfold fetch at h
  split at h
  · cases h
    rfl
  · cases h
  · cases h
    rfl

/-- What is fetched from two sources that agree is the same, and they still agree if it is not the
end of the input. -/
theorem fetch_of_needed_eq
    (h : needed next' (n + 1) lastEnd source' = needed next (n + 1) lastEnd source) :
  (∃ e, fetch next lastEnd source = .error e ∧ fetch next' lastEnd source' = .error e)
    ∨ ∃ t p s p' s', fetch next lastEnd source = .ok (t, p, s)
      ∧ fetch next' lastEnd source' = .ok (t, p', s')
      ∧ (t.kind ≠ none → p' = p ∧ needed next' n p' s' = needed next n p s)
  := by
  rw [needed_succ, needed_succ] at h
  cases hf : fetch next lastEnd source with
  | error e =>
      cases hf' : fetch next' lastEnd source' with
      | error e' =>
          rw [hf, hf'] at h
          cases h
          exact Or.inl ⟨_, rfl, rfl⟩
      | ok fetched =>
          rw [hf, hf'] at h
          cases h
  | ok fetched =>
      obtain ⟨t, p, s⟩ := fetched
      cases hf' : fetch next' lastEnd source' with
      | error e =>
          rw [hf, hf'] at h
          cases h
      | ok fetched =>
          obtain ⟨t', p', s'⟩ := fetched
          rw [hf, hf'] at h
          obtain ⟨ht, hrest⟩ := List.cons.inj h
          cases ht
          right
          refine ⟨t, p, s, p', s', rfl, rfl, ?_⟩
          intro hk
          have hend : ¬ t.isEnd = true := by simpa [Token.isEnd] using hk
          rw [if_neg hend, if_neg hend] at hrest
          exact ⟨(eq_stop_of_fetch hf').trans (eq_stop_of_fetch hf).symm, hrest⟩

/-! ### Runs over sources that agree -/

/-- Two configurations are the same but for their sources, and these agree on the items that are
still needed, so that so many are the same in all. -/
structure Config.Agrees (next : σ → Option (TokenItem × σ)) (next' : τ → Option (TokenItem × τ))
    (k : Nat) (c : Config σ) (d : Config τ) : Prop where
  frames : d.frames = c.frames
  consumed : d.consumed = c.consumed
  lookahead : d.lookahead = c.lookahead
  ahead : c.lookahead.kind ≠ none → d.lastEnd = c.lastEnd
    ∧ needed next' (k - (c.consumed.size + 1)) d.lastEnd d.source
      = needed next (k - (c.consumed.size + 1)) c.lastEnd c.source

/-- The end of the input is not shifted in any state. -/
def Table.KeepsEnd (t : Table) : Prop :=
  ∀ (i : Nat) (row : TableState) (target : Nat), t.states[i]? = some row →
    row.actions.get? .endOfInput ≠ some (.shift target)

namespace Machine

/-- A parse fails at its `k`-th item: it has shifted all before it, and it ends with an error for
this one. -/
def Refuses (m : Machine) (next : σ → Option (TokenItem × σ)) (source : σ) (k : Nat)
    (e : ParseError) : Prop :=
  ∃ c, m.Reached next source c ∧ c.consumed.size + 1 = k
    ∧ m.step next c = .done (.error (.parse e))

section Steps

variable (hm : m.table.KeepsEnd)

include hm

/-- What is shifted is not the end of the input. -/
theorem About.kind_ne_none {top : Frame} {target : Nat} (h : m.About c top (.shift target)) :
  c.lookahead.kind ≠ none
  := by
  obtain ⟨-, hrow, -, haction⟩ := h
  intro hk
  have hend : c.lookahead.lookahead.toColumn = .endOfInput := by
    rw [Token.lookahead, hk]
    rfl
  rw [hend] at haction
  apply hm _ _ _ hrow haction

/-- What the second of two configurations that agree fetches when it shifts is what the first one
fetches. -/
theorem fetch_of_agrees (h : c.Agrees next next' k d) {top : Frame} {target : Nat}
    (habout : m.About c top (.shift target)) (hk : c.consumed.size + 1 < k) :
  (∃ e, fetch next c.lastEnd c.source = .error e ∧ fetch next' d.lastEnd d.source = .error e)
    ∨ ∃ t p s p' s', fetch next c.lastEnd c.source = .ok (t, p, s)
      ∧ fetch next' d.lastEnd d.source = .ok (t, p', s')
      ∧ (t.kind ≠ none → p' = p
        ∧ needed next' (k - (c.consumed.size + 1 + 1)) p' s'
          = needed next (k - (c.consumed.size + 1 + 1)) p s)
  := by
  obtain ⟨hlast, hneeded⟩ := h.ahead (habout.kind_ne_none hm)
  obtain ⟨n, rfl⟩ := Nat.exists_eq_add_of_le hk
  have hn : c.consumed.size + 1 + 1 + n - (c.consumed.size + 1) = n + 1 := by omega
  rw [hn, hlast] at hneeded
  rw [Nat.add_sub_cancel_left, hlast]
  apply fetch_of_needed_eq hneeded

/-- A step from one of two configurations that agree is a step from the other, if it leaves an item
that is the same in both sources for the lookahead. -/
theorem step_of_agrees (h : c.Agrees next next' k d)
    (hk : ∀ (top : Frame) (target : Nat), m.About c top (.shift target) → c.consumed.size + 1 < k) :
  (∃ r, m.step next c = .done r ∧ m.step next' d = .done r)
    ∨ ∃ c' d', m.step next c = .continue c' ∧ m.step next' d = .continue d'
      ∧ c'.Agrees next next' k d'
  := by
  have hdframes := h.frames
  have hdlookahead := h.lookahead
  cases hframes : c.frames with
  | nil =>
      rw [hframes] at hdframes
      left
      simp only [step, hframes, hdframes]
      exact ⟨_, rfl, rfl⟩
  | cons top below =>
      rw [hframes] at hdframes
      cases hrow : m.table.states[top.state]? with
      | none =>
          left
          simp only [step, hframes, hdframes, hrow]
          exact ⟨_, rfl, rfl⟩
      | some row =>
          cases haccepting : row.accepting with
          | true =>
              left
              simp only [step, hframes, hdframes, hrow, haccepting, if_true]
              exact ⟨_, rfl, rfl⟩
          | false =>
              cases haction : row.actions.get? c.lookahead.lookahead.toColumn with
              | none =>
                  left
                  simp only [step, hframes, hdframes, hrow, haccepting, hdlookahead, haction]
                  exact ⟨_, rfl, rfl⟩
              | some action =>
                  have habout : m.About c top action := ⟨hframes, hrow, haccepting, haction⟩
                  cases action with
                  | shift target =>
                      rcases fetch_of_agrees hm h habout (hk top target habout) with
                        ⟨e, hf, hf'⟩ | ⟨t, p, s, p', s', hf, hf', hahead⟩
                      · left
                        simp only [step, hframes, hdframes, hrow, haccepting, hdlookahead, haction,
                          hf, hf']
                        exact ⟨_, rfl, rfl⟩
                      · right
                        simp only [step, hframes, hdframes, hrow, haccepting, hdlookahead, haction,
                          hf, hf', h.consumed]
                        refine ⟨_, _, rfl, rfl, rfl, rfl, rfl, ?_⟩
                        rw [Array.size_push]
                        apply hahead
                  | reduce rule =>
                      cases hr : m.table.reductions.get? rule with
                      | none =>
                          left
                          simp only [step, hframes, hdframes, hrow, haccepting, hdlookahead,
                            haction, hr]
                          exact ⟨_, rfl, rfl⟩
                      | some r =>
                          simp only [step, hframes, hdframes, hrow, haccepting, hdlookahead,
                            haction, hr, h.consumed]
                          cases m.reduce r top.state (top :: below) c.consumed
                              c.lookahead.start with
                          | error e => exact Or.inl ⟨_, rfl, rfl⟩
                          | ok frames =>
                              right
                              exact ⟨_, _, rfl, rfl, rfl, rfl, rfl, h.ahead⟩

end Steps

/-- A move shifts one token, or none if the action is not to shift. -/
theorem Moves.size_consumed {x y : Config σ × List DerivationTree} (h : m.Moves next x y) :
  y.1.consumed.size = x.1.consumed.size + 1
    ∨ y.1.consumed.size = x.1.consumed.size ∧ ∀ top target, ¬ m.About x.1 top (.shift target)
  := by
  cases h with
  | shift =>
      left
      rw [shifted, Array.size_push]
  | reduce habout =>
      right
      refine ⟨rfl, ?_⟩
      intro top target hshift
      obtain ⟨-, haction⟩ := habout.unique hshift
      cases haction

theorem size_consumed_le_of_moves {x y : Config σ × List DerivationTree}
    (h : ReflTransGen (m.Moves next) x y) :
  x.1.consumed.size ≤ y.1.consumed.size
  := by
  induction h with
  | refl => rfl
  | tail _ hmove ih =>
      rcases hmove.size_consumed with hsize | ⟨hsize, -⟩ <;> omega

/-! ### Runs over sources that agree -/

section Runs

variable (hm : m.table.KeepsEnd)

include hm

/-- Configurations that agree on as many items as there are steps to take run alike. -/
theorem run_of_agrees {fuel : Nat} (h : c.Agrees next next' k d)
    (hk : c.consumed.size + 1 + fuel ≤ k) :
  m.run next' fuel d = m.run next fuel c
  := by
  induction fuel generalizing c d with
  | zero => rfl
  | succ fuel ih =>
      have hlt : c.consumed.size + 1 < k := by omega
      rw [run, run]
      rcases step_of_agrees hm h (fun _ _ _ => hlt) with ⟨r, hc, hd⟩ | ⟨c', d', hc, hd, h'⟩
      · rw [hc, hd]
      · rw [hc, hd]
        apply ih h'
        obtain ⟨trees, hmove⟩ := exists_moves hc []
        rcases hmove.size_consumed with hsize | ⟨hsize, -⟩ <;> simp only at hsize <;> omega

/-- Configurations that agree up to the item at which one of them fails run alike, and the other
fails there too. -/
theorem refuses_of_agrees {x y : Config σ × List DerivationTree} {e : ParseError}
    (h : ReflTransGen (m.Moves next) x y) (hdone : m.step next y.1 = .done (.error (.parse e)))
    (hd : x.1.Agrees next next' (y.1.consumed.size + 1) d) (hreached : m.Reached next' source' d) :
  m.Refuses next' source' (y.1.consumed.size + 1) e
    ∧ ∀ fuel, m.run next' fuel d = m.run next fuel x.1
  := by
  induction h using ReflTransGen.head_induction_on generalizing d with
  | refl =>
      have hnone : ∀ top target, ¬ m.About y.1 top (.shift target) := by
        intro top target habout
        obtain ⟨_, _, _, hframes, hrow, -, haction, -⟩ := step_eq_parse_iff.mp hdone
        obtain ⟨hframes', hrow', -, haction'⟩ := habout
        cases hframes.symm.trans hframes'
        cases hrow.symm.trans hrow'
        cases haction.symm.trans haction'
      rcases step_of_agrees hm hd (fun _ _ habout => absurd habout (hnone _ _)) with
        ⟨r, hy, hstep⟩ | ⟨c', d', hy, -⟩
      · cases hdone.symm.trans hy
        refine ⟨⟨d, hreached, by rw [hd.consumed], hstep⟩, ?_⟩
        rintro (_ | fuel)
        · rfl
        · rw [run, run, hdone, hstep]
      · cases hdone.symm.trans hy
  | head hmove hmoves ih =>
      have hle := size_consumed_le_of_moves hmoves
      rcases step_of_agrees hm hd (by
          intro top target habout
          rcases hmove.size_consumed with hsize | ⟨-, hnone⟩
          · omega
          · cases hnone _ _ habout) with ⟨r, hx, -⟩ | ⟨c', d', hx, hstep, hd'⟩
      · cases hmove.step.symm.trans hx
      · cases hmove.step.symm.trans hx
        obtain ⟨hrefuses, hrun⟩ := ih hd' (hreached.step hstep)
        use hrefuses
        rintro (_ | fuel)
        · rfl
        · rw [run, run, hmove.step, hstep]
          apply hrun

/-- The items up to the lookahead of a configuration that a parse comes by are the tokens it has
shifted and the lookahead; behind them is what its source still gives, unless the lookahead is the
end of the input. -/
theorem Reached.needed_eq (h : m.Reached next source c) (n : Nat) :
  needed next (c.consumed.size + 1 + n) .start source
    = (c.consumed.toList ++ [c.lookahead]).map .ok
      ++ if c.lookahead.isEnd then [] else needed next n c.lastEnd c.source
  := by
  induction h generalizing n with
  | @start c h =>
      unfold Machine.start at h
      split at h
      · cases h
      · next t lastEnd source' hf =>
        cases h
        have hn : (#[] : Array Token).size + 1 + n = n + 1 := Nat.add_comm 1 n
        rw [hn, needed_succ, hf]
        rfl
  | @step c c' _ hs ih =>
      obtain ⟨trees, hmove⟩ := Machine.exists_moves hs []
      cases hmove with
      | @shift _ _ top target t lastEnd source' habout hf =>
          have hend : ¬ c.lookahead.isEnd = true := by
            simpa [Token.isEnd] using habout.kind_ne_none hm
          rw [shifted, Array.size_push, Array.toList_push, Nat.add_assoc _ 1 n, Nat.add_comm 1 n, ih,
            if_neg hend, needed_succ, hf]
          simp only [List.map_append, List.append_assoc]
          rfl
      | reduce => apply ih

/-- The item at which a parse fails is the last one that it needs. -/
theorem Refuses.getLast?_needed {e : ParseError} (h : m.Refuses next source k e) :
  (needed next k .start source).length = k
    ∧ (needed next k .start source).getLast? = some (.ok e.token)
  := by
  obtain ⟨c, hc, rfl, hdone⟩ := h
  obtain ⟨_, _, _, -, -, -, -, rfl⟩ := step_eq_parse_iff.mp hdone
  have hneeded := hc.needed_eq hm 0
  rw [needed, ite_self, List.append_nil, Nat.add_zero] at hneeded
  rw [hneeded]
  simp

end Runs

/-- Sources that agree start alike. -/
theorem start_of_needed_eq
    (h : needed next' (n + 1) .start source' = needed next (n + 1) .start source) :
  (∃ e, start next source = .error e ∧ start next' source' = .error e)
    ∨ ∃ c d, start next source = .ok c ∧ start next' source' = .ok d ∧ c.consumed.size = 0
      ∧ c.Agrees next next' (n + 1) d
  := by
  unfold start
  rcases fetch_of_needed_eq h with ⟨e, hf, hf'⟩ | ⟨t, p, s, p', s', hf, hf', hahead⟩
  · left
    simp only [hf, hf']
    exact ⟨e, rfl, rfl⟩
  · right
    simp only [hf, hf']
    exact ⟨_, _, rfl, rfl, rfl, rfl, rfl, rfl, hahead⟩

/-- Sources of which the same is needed are parsed alike. -/
theorem parse_eq_of_needed_eq (hm : m.table.KeepsEnd)
    (h : ∀ n, needed next' n .start source' = needed next n .start source) (fuel : Nat) :
  m.parse next' fuel source' = m.parse next fuel source
  := by
  unfold parse
  rcases start_of_needed_eq (h (fuel + 1)) with ⟨e, hc, hd⟩ | ⟨c, d, hc, hd, hsize, hagrees⟩
  · rw [hc, hd]
  · rw [hc, hd]
    apply run_of_agrees hm hagrees
    rw [hsize, Nat.zero_add, Nat.add_comm]

/-- A source that is the same up to the item at which a parse fails is parsed alike, and fails
there. -/
theorem Refuses.of_needed_eq (hm : m.table.KeepsEnd) {e : ParseError}
    (hrefuses : m.Refuses next source k e)
    (h : needed next' k .start source' = needed next k .start source) :
  m.Refuses next' source' k e
    ∧ ∀ fuel, m.parse next' fuel source' = m.parse next fuel source
  := by
  obtain ⟨c, hreached, rfl, hdone⟩ := hrefuses
  obtain ⟨c₀, trees, hstart, hmoves⟩ := hreached.exists_moves
  rcases start_of_needed_eq h with ⟨e, hc, -⟩ | ⟨c', d, hc, hd, -, hagrees⟩
  · cases hstart.symm.trans hc
  · cases hstart.symm.trans hc
    obtain ⟨hrefuses, hrun⟩ := refuses_of_agrees hm hmoves hdone hagrees (.start hd)
    use hrefuses
    intro fuel
    rw [parse, parse, hc, hd]
    apply hrun

/-- A parse that ends with a parse error fails at one of the items. -/
theorem exists_refuses_of_parse {fuel : Nat} {e : ParseError}
    (h : m.parse next fuel source = some (.error (.parse e))) :
  ∃ k, m.Refuses next source k e
  := by
  rcases exists_step_of_parse h with ⟨e', -, he⟩ | ⟨c, hreached, hdone⟩
  · cases he
  · exact ⟨_, c, hreached, rfl, hdone⟩

end Machine

/-! ### Parsers -/

/-- A table that was generated keeps the end of the input. -/
theorem Parser.keepsEnd_of_build {l : Language} {root : ClassId} {config : ParserConfig}
    {p : Parser} (h : (Parser.build l root config).2 = .ok p) (hp : p.generated = true) :
  p.machine.table.KeepsEnd
  := by
  obtain ⟨lg, a, hgrammar, ha, htable⟩ := Parser.exists_automaton h hp
  have hlists := (Source.compiled_of_grammar hgrammar).assembled.listsRules
  intro i row target hrow
  rw [Parser.machine, htable, Table.states_ofAutomaton] at hrow
  obtain ⟨s, hs, rfl⟩ := Option.map_eq_some_iff.mp hrow
  obtain ⟨kernel, hs⟩ := (Automaton.finished_of_build hlists ha).states i s hs
  apply hs.shift_endOfInput_ne hlists

/-- A parse with a generated table depends on no more of its source than is needed: up to the end
of the input or the first error, and if it ends with a parse error, up to the token that this is
about, which is the last one of a number of items that decide the parse. -/
theorem Parser.parse_depends_on_needed {l : Language} {root : ClassId} {config : ParserConfig}
    {p : Parser} (hbuild : (Parser.build l root config).2 = .ok p) (hp : p.generated = true)
    (next : σ → Option (TokenItem × σ)) (source : σ) :
  (∀ {τ : Type} (next' : τ → Option (TokenItem × τ)) (source' : τ),
      (∀ n, needed next' n .start source' = needed next n .start source) →
        ∀ fuel, p.machine.parse next' fuel source' = p.machine.parse next fuel source)
    ∧ (∀ fuel e, p.machine.parse next fuel source = some (.error (.parse e)) →
        ∃ k, p.machine.Refuses next source k e)
    ∧ ∀ k e, p.machine.Refuses next source k e →
        (needed next k .start source).length = k
          ∧ (needed next k .start source).getLast? = some (.ok e.token)
          ∧ ∀ {τ : Type} (next' : τ → Option (TokenItem × τ)) (source' : τ),
            needed next' k .start source' = needed next k .start source →
              p.machine.Refuses next' source' k e
                ∧ ∀ fuel, p.machine.parse next' fuel source' = p.machine.parse next fuel source
  := by
  have hm := Parser.keepsEnd_of_build hbuild hp
  refine ⟨?_, ?_, ?_⟩
  · intro τ next' source' h
    apply Machine.parse_eq_of_needed_eq hm h
  · intro fuel e h
    apply Machine.exists_refuses_of_parse h
  · intro k e hrefuses
    obtain ⟨hlength, hlast⟩ := hrefuses.getLast?_needed hm
    use hlength, hlast
    intro τ next' source' h
    apply hrefuses.of_needed_eq hm h

/-- The tokens of an empty group. -/
def Token.emptyGroup : List Token :=
  [⟨some "(", ⟨0, 0, 0⟩, ⟨0, 1, 1⟩, .none⟩, ⟨some ")", ⟨0, 1, 1⟩, ⟨0, 2, 2⟩, .none⟩]

/-- The theorem at an empty group: the parse fails at its second token, whatever stands behind. -/
theorem Parser.parse_emptyGroup_depends_on_needed :
  (Parser.build .group ⟨0⟩ {}).2 = .ok .group ∧ Parser.group.generated = true
    ∧ ∃ e, Parser.group.machine.Refuses nextOfList Token.emptyGroup 2 e
      ∧ e.token.kind = some ")"
      ∧ ∀ (items : List TokenItem) (fuel : Nat),
        Parser.group.machine.parse TokenStream.next fuel
            (.items (Token.emptyGroup.map .ok ++ items))
          = Parser.group.machine.parse nextOfList fuel Token.emptyGroup
  := by
  use Parser.build_group, rfl
  have hrefuses : Parser.group.machine.Refuses nextOfList Token.emptyGroup 2 _ :=
    ⟨_, .step (.start rfl) rfl, rfl, rfl⟩
  obtain ⟨-, -, hsame⟩ :=
    Parser.parse_depends_on_needed Parser.build_group rfl nextOfList Token.emptyGroup
  obtain ⟨-, -, hsame⟩ := hsame 2 _ hrefuses
  refine ⟨_, hrefuses, rfl, ?_⟩
  intro items
  obtain ⟨-, hparse⟩ := hsame TokenStream.next (.items (Token.emptyGroup.map .ok ++ items)) rfl
  exact hparse

end CaptureLR

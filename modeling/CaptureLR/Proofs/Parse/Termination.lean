import CaptureLR.Proofs.Lowering.Readings
import CaptureLR.Proofs.Parse.Completeness
import CaptureLR.Proofs.Parse.Endless
import CaptureLR.Proofs.Parse.Validity

/-!
# Parses that end

A parse of a finite source goes on forever exactly if it comes back to the same stack of states
without having consumed a token: reductions of the machine are contractions of its stack, and
every shift takes a token. Where every state of the automaton agrees with its closure this does not
happen, in particular where all nonterminals generate something. Where a state has missed some
lookaheads it can: the language of loops has a nonterminal without rules, and behind three tokens
its parser reduces two rules in turn and never stops.
-/

namespace CaptureLR

open Relation

variable {g : Grammar} {startRule : Nat} {a : Automaton} {m : Machine} {path : List Symbol}
  {τ τ' : List Nat} {σ : Type} {next : σ → Option (TokenItem × σ)} {source : σ} {c c' : Config σ}

/-! ### Finite sources -/

/-- A source gives finitely many tokens and then nothing more, or an error. -/
inductive RunsOut (next : σ → Option (TokenItem × σ)) : σ → Prop
  | exhausted {source : σ} (h : next source = none) : RunsOut next source
  | failed {source source' : σ} {e : TokenizeError} (h : next source = some (.error e, source')) :
      RunsOut next source
  | token {source source' : σ} {t : Token} (h : next source = some (.ok t, source'))
      (hs : RunsOut next source') :
      RunsOut next source

namespace Machine

/-! ### Runs -/

/-- A run comes to an end, whatever it ends with. -/
def Halts (m : Machine) (next : σ → Option (TokenItem × σ)) (c : Config σ) : Prop :=
  ∃ n r, ∀ fuel, n ≤ fuel → m.run next fuel c = some r

theorem halts_of_done {r : ParseResult} (h : m.step next c = .done r) :
  m.Halts next c
  := by
  use 1, r
  intro fuel hle
  obtain ⟨fuel, rfl⟩ := Nat.exists_eq_add_of_le' hle
  rw [run, h]

theorem Halts.of_step (hc' : m.Halts next c') (h : m.step next c = .continue c') :
  m.Halts next c
  := by
  obtain ⟨n, r, hrun⟩ := hc'
  use n + 1, r
  intro fuel hle
  obtain ⟨fuel, rfl⟩ := Nat.exists_eq_add_of_le' (Nat.le_trans (Nat.le_add_left 1 n) hle)
  rw [run, h]
  apply hrun
  apply Nat.le_of_succ_le_succ hle

/-- A parse that comes by a configuration from which no run ends does not end itself. -/
theorem Reached.parse_eq_none (h : m.Reached next source c)
    (hrun : ∀ fuel, m.run next fuel c = none) (fuel : Nat) :
  m.parse next fuel source = none
  := by
  induction h generalizing fuel with
  | start hstart =>
      rw [parse, hstart]
      apply hrun
  | step _ hs ih =>
      apply ih
      intro fuel
      cases fuel with
      | zero => rfl
      | succ fuel =>
          rw [run, hs]
          apply hrun

/-- A parse comes to an end, whatever it ends with. -/
def Ends (m : Machine) (next : σ → Option (TokenItem × σ)) (source : σ) : Prop :=
  ∃ n r, ∀ fuel, n ≤ fuel → m.parse next fuel source = some r

/-- The first lookahead is fetched from the source. -/
theorem fetch_of_start (h : Machine.start next source = .ok c) :
  fetch next .start source = .ok (c.lookahead, c.lastEnd, c.source)
  := by
  unfold Machine.start at h
  split at h
  · cases h
  · next hf =>
    cases h
    apply hf

/-- A parse ends where the run of its first configuration does. -/
theorem ends_of_halts (h : ∀ c, Machine.start next source = .ok c → m.Halts next c) :
  m.Ends next source
  := by
  unfold Ends parse
  cases hstart : Machine.start next source with
  | error e => exact ⟨0, .error (.tokenize e), fun _ _ => rfl⟩
  | ok c => apply h c hstart

/-- A step that consumes no token. -/
def Lingers (m : Machine) (next : σ → Option (TokenItem × σ)) (c c' : Config σ) : Prop :=
  m.step next c = .continue c' ∧ c'.consumed = c.consumed

/-- The stack comes back to the same states, without a token being consumed. -/
def Returns (m : Machine) (next : σ → Option (TokenItem × σ)) (c : Config σ) : Prop :=
  ∃ c', TransGen (m.Lingers next) c c' ∧ c'.frames.map Frame.state = c.frames.map Frame.state

/-- The states that the frames of a reduction leave on the stack. -/
theorem exists_target_of_reduce {r : Reduction} {state : Nat} {frames frames' : List Frame}
    {consumed : Array Token} {position : Position}
    (h : m.reduce r state frames consumed position = .ok frames') :
  ∃ exposed below target, frames.drop r.popCount = exposed :: below
    ∧ m.table.successor? exposed.state r.into = some target
    ∧ frames'.map Frame.state = target :: exposed.state :: below.map Frame.state
  := by
  unfold reduce at h
  split at h
  · cases h
  · next exposed below hdrop =>
    simp only at h
    split at h
    · cases h
    · split at h
      · cases h
      · next target htarget =>
        cases h
        exact ⟨exposed, below, target, hdrop, htarget, rfl⟩

/-- A reduction contracts the states on the stack. -/
theorem About.exists_contracts {top : Frame} {rule : Nat} {r : Reduction} {frames : List Frame}
    (habout : m.About c top (.reduce rule)) (hr : m.table.reductions.get? rule = some r)
    (hf : m.reduce r top.state c.frames c.consumed c.lookahead.start = .ok frames)
    (hτ : c.frames.map Frame.state = τ ++ [0]) :
  ∃ τ', frames.map Frame.state = τ' ++ [0]
    ∧ m.table.Contracts c.lookahead.lookahead 0 τ τ'
  := by
  obtain ⟨exposed, below, target, hdrop, hgoto, hframes⟩ := exists_target_of_reduce hf
  obtain ⟨hc, hrow, -, haction⟩ := habout
  have hdrop' : (τ ++ [0]).drop r.popCount = exposed.state :: below.map Frame.state := by
    rw [← hτ, ← List.map_drop, hdrop]
    rfl
  have hpop : r.popCount ≤ τ.length := by
    have hlt := List.length_lt_of_drop_ne_nil (hdrop' ▸ List.cons_ne_nil _ _)
    rw [List.length_append] at hlt
    apply Nat.le_of_lt_succ hlt
  rw [List.drop_append_of_le_length hpop] at hdrop'
  use target :: τ.drop r.popCount
  constructor
  · rw [hframes, List.cons_append, hdrop']
  · apply Table.Contracts.mk _ hr hpop
    · have hhead : (τ.drop r.popCount).headD 0 = exposed.state := by
        have hcongr := congrArg (List.headD · 0) hdrop'
        rw [Table.headD_append] at hcongr
        apply hcongr
      rw [hhead, hgoto]
    · have hhead : τ.headD 0 = top.state := by
        have hcongr := congrArg (List.headD · 0) hτ
        rw [Table.headD_append, hc] at hcongr
        apply hcongr.symm
      rw [hhead, Table.action?, hrow]
      apply haction

end Machine

/-- The states on a stack are those of the frames, above the first one. -/
theorem Stacked.exists_lines {classes : ClassTable} {behind : Position} {frames : List Frame}
    {trees : List DerivationTree}
    (h : Stacked g classes (a.Behind g startRule) behind frames path trees) :
  ∃ τ, frames.map Frame.state = τ ++ [0] ∧ a.Lines g startRule path τ
  := by
  induction h with
  | bottom h => exact ⟨[], rfl, .nil h⟩
  | @push _ f frames _ _ _ _ state _ _ hs ih =>
      obtain ⟨τ, hτ, hl⟩ := ih
      exact ⟨state :: τ, by rw [List.map_cons, hτ, List.cons_append], hl.push hs⟩

namespace Machine.Reached

variable (ha : a.Finished g startRule) (hg : g.Compiled startRule m.classes)
  (hm : m.table = .ofAutomaton a)

include ha hg hm

/-- The states on the stack of a configuration stand behind the beginnings of a path. -/
theorem exists_lines (h : m.Reached next source c) :
  ∃ τ path, c.frames.map Frame.state = τ ++ [0] ∧ a.Lines g startRule path τ
  := by
  obtain ⟨path, trees, hsound⟩ := h.exists_sound ha hg hm
  obtain ⟨τ, hτ, hl⟩ := hsound.stands.stacked.exists_lines
  exact ⟨τ, path, hτ, hl⟩

/-- A step takes a token, or it contracts the stack under the lookahead. -/
theorem step_cases (h : m.Reached next source c) (hs : m.step next c = .continue c')
    (hτ : c.frames.map Frame.state = τ ++ [0]) :
  (c.lookahead.kind ≠ none ∧ c'.consumed = c.consumed.push c.lookahead
      ∧ fetch next c.lastEnd c.source = .ok (c'.lookahead, c'.lastEnd, c'.source))
    ∨ (m.Lingers next c c' ∧ c'.lookahead = c.lookahead ∧ c'.source = c.source
      ∧ ∃ τ', c'.frames.map Frame.state = τ' ++ [0]
        ∧ m.table.Contracts c.lookahead.lookahead 0 τ τ')
  := by
  obtain ⟨trees, hmove⟩ := Machine.exists_moves hs []
  cases hmove with
  | shift habout hf =>
      left
      refine ⟨?_, rfl, hf⟩
      -- the end of the input is never shifted
      obtain ⟨path, trees, hsound⟩ := h.exists_sound ha hg hm
      obtain ⟨hframes, hrow, -, haction⟩ := habout
      obtain ⟨s, k, hs, -, rfl⟩ := hsound.exists_state ha hm hframes hrow
      obtain ⟨x, hcol, -⟩ := hs.justified.shift _ _ haction
      obtain ⟨kind, hkind, -⟩ := Token.exists_kind hcol
      rw [hkind]
      exact nofun
  | reduce habout hr hf =>
      obtain ⟨τ', hframes, hcontracts⟩ := habout.exists_contracts hr hf hτ
      exact Or.inr ⟨⟨hs, rfl⟩, rfl, rfl, τ', hframes, hcontracts⟩

/-- What the stack is contracted to under the lookahead is what a step leads to. -/
theorem exists_lingers (h : m.Reached next source c) (hτ : c.frames.map Frame.state = τ ++ [0])
    (hcontracts : m.table.Contracts c.lookahead.lookahead 0 τ τ') :
  ∃ c', m.Lingers next c c' ∧ c'.lookahead = c.lookahead ∧ c'.source = c.source
    ∧ c'.frames.map Frame.state = τ' ++ [0]
  := by
  obtain ⟨path, trees, hsound⟩ := h.exists_sound ha hg hm
  obtain ⟨τ₀, hτ₀, hl⟩ := hsound.stands.stacked.exists_lines
  obtain rfl : τ = τ₀ := List.append_cancel_right (hτ.symm.trans hτ₀)
  obtain ⟨top, below, hframes, hlt⟩ := (hsound.supplies ha hg hm).top
  have htop : τ.headD 0 = top.state := by
    have hcongr := congrArg (List.headD · 0) hτ
    rw [Table.headD_append, hframes] at hcongr
    apply hcongr.symm
  have hrow := Array.getElem?_eq_getElem hlt
  obtain ⟨s, k, hs, hb, hseq⟩ := hsound.exists_state ha hm hframes hrow
  rw [hm] at hcontracts
  obtain ⟨front, n, r, target, hreplaces⟩ := hl.exists_replaces ha hg hcontracts
  have haccepting : m.table.states[top.state].accepting = false := by
    rw [hseq, Bool.eq_false_iff]
    intro haccepting
    -- behind the root there is nothing but the start rule
    obtain rfl := hg.rooted.eq_of_atKernel hg.assembled ((hs.accepting_iff hb).mp haccepting)
    obtain ⟨s', d, -, hb', hfollowed, -⟩ := hreplaces.followed
    cases hg.rooted.eq_of_atClosure (hb'.calledFor_iff.mp hfollowed.calledFor)
    apply hreplaces.ne rfl
  have haction : m.table.states[top.state].actions.get? c.lookahead.lookahead.toColumn
      = some (.reduce r) := by
    have haction := hreplaces.action
    rw [← hm, htop, Table.action?, hrow] at haction
    apply haction
  have habout : m.About c top (.reduce r) := ⟨hframes, hrow, haccepting, haction⟩
  obtain ⟨red, hred, hpop, hgoto, hclass⟩ := (hsound.supplies ha hg hm).reduction top r habout
  obtain ⟨frames, hf⟩ : ∃ frames, m.reduce red top.state c.frames c.consumed c.lookahead.start
      = .ok frames := isOk_reduce hpop hgoto hclass
  obtain ⟨τ'', hframes', hcontracts'⟩ := habout.exists_contracts hred hf hτ
  rw [hm] at hcontracts'
  obtain rfl := Table.rightUnique_contracts _ _ _ hcontracts' hcontracts
  have hmove : m.Moves next (c, []) _ := .reduce habout hred hf
  exact ⟨_, ⟨hmove.step, rfl⟩, rfl, rfl, hframes'⟩

/-- Steps that consume no token contract the stack. -/
theorem contracts_of_lingers (h : m.Reached next source c)
    (hτ : c.frames.map Frame.state = τ ++ [0]) (hlingers : TransGen (m.Lingers next) c c') :
  m.Reached next source c' ∧ c'.lookahead = c.lookahead
    ∧ ∃ τ', c'.frames.map Frame.state = τ' ++ [0]
      ∧ TransGen (m.table.Contracts c.lookahead.lookahead 0) τ τ'
  := by
  have hstep : ∀ {c c' τ}, m.Reached next source c → c.frames.map Frame.state = τ ++ [0] →
      m.Lingers next c c' → c'.lookahead = c.lookahead ∧ ∃ τ', c'.frames.map Frame.state = τ' ++ [0]
        ∧ m.table.Contracts c.lookahead.lookahead 0 τ τ' := by
    intro c c' τ h hτ hlingers
    rcases h.step_cases ha hg hm hlingers.1 hτ with ⟨-, hpush, -⟩ | ⟨-, hlookahead, -, hτ'⟩
    · have hsize := congrArg Array.size (hlingers.2.symm.trans hpush)
      rw [Array.size_push] at hsize
      omega
    · exact ⟨hlookahead, hτ'⟩
  induction hlingers with
  | single hlingers =>
      obtain ⟨hlookahead, τ', hτ', hcontracts⟩ := hstep h hτ hlingers
      exact ⟨h.step hlingers.1, hlookahead, τ', hτ', .single hcontracts⟩
  | tail _ hlingers ih =>
      obtain ⟨h', hlookahead, τ', hτ', hcontracts⟩ := ih
      obtain ⟨hlookahead', τ'', hτ'', hcontracts'⟩ := hstep h' hτ' hlingers
      rw [hlookahead] at hlookahead' hcontracts'
      exact ⟨h'.step hlingers.1, hlookahead', τ'', hτ'', hcontracts.tail hcontracts'⟩

/-- Contractions of the stack are steps that consume no token. -/
theorem lingers_of_contracts (h : m.Reached next source c)
    (hτ : c.frames.map Frame.state = τ ++ [0])
    (hcontracts : ReflTransGen (m.table.Contracts c.lookahead.lookahead 0) τ τ') :
  ∃ c', ReflTransGen (m.Lingers next) c c' ∧ m.Reached next source c'
    ∧ c'.lookahead = c.lookahead ∧ c'.frames.map Frame.state = τ' ++ [0]
  := by
  induction hcontracts with
  | refl => exact ⟨c, .refl, h, rfl, hτ⟩
  | tail _ hcontracts ih =>
      obtain ⟨c', hlingers, h', hlookahead, hτ'⟩ := ih
      rw [← hlookahead] at hcontracts
      obtain ⟨c'', hlingers', hlookahead', -, hτ''⟩ := h'.exists_lingers ha hg hm hτ' hcontracts
      exact ⟨c'', hlingers.tail hlingers', h'.step hlingers'.1, hlookahead'.trans hlookahead, hτ''⟩

/-- A parse comes back exactly if the contractions of some stack come to no end. -/
theorem exists_returns_iff (hall : g.ListsAll) :
  (∃ c, m.Reached next source c ∧ m.Returns next c)
    ↔ ∃ c τ, m.Reached next source c ∧ c.frames.map Frame.state = τ ++ [0]
      ∧ ¬ m.table.Rests c.lookahead.lookahead 0 τ
  := by
  constructor
  · rintro ⟨c, h, c', hlingers, hstates⟩
    obtain ⟨τ, path, hτ, hl⟩ := h.exists_lines ha hg hm
    obtain ⟨-, -, τ', hτ', hcontracts⟩ := h.contracts_of_lingers ha hg hm hτ hlingers
    obtain rfl : τ = τ' := List.append_cancel_right (hτ.symm.trans (hstates.symm.trans hτ'))
    exact ⟨c, τ, h, hτ, Table.not_rests_of_returns hcontracts⟩
  · rintro ⟨c, τ, h, hτ, hno⟩
    obtain ⟨τ₀, path, hτ₀, hl⟩ := h.exists_lines ha hg hm
    obtain rfl : τ = τ₀ := List.append_cancel_right (hτ.symm.trans hτ₀)
    rw [hm] at hno
    obtain ⟨τ', hto, hback⟩ := hl.exists_returns ha hg hall hno
    rw [← hm] at hto hback
    obtain ⟨c', -, h', hlookahead, hτ'⟩ := h.lingers_of_contracts ha hg hm hτ hto
    rw [← hlookahead] at hback
    obtain ⟨τ'', hcontracts, hback⟩ := TransGen.head'_iff.mp hback
    obtain ⟨c₁, hlingers, hlookahead₁, -, hτ₁⟩ := h'.exists_lingers ha hg hm hτ' hcontracts
    rw [← hlookahead₁] at hback
    obtain ⟨c₂, hlingers', -, -, hτ₂⟩ :=
      (h'.step hlingers.1).lingers_of_contracts ha hg hm hτ₁ hback
    exact ⟨c', h', c₂, .head' hlingers hlingers', hτ₂.trans hτ'.symm⟩

/-- Where the contractions of the stack come to no end, neither does the run. -/
theorem run_eq_none (h : m.Reached next source c) (hτ : c.frames.map Frame.state = τ ++ [0])
    (hno : ¬ m.table.Rests c.lookahead.lookahead 0 τ) (fuel : Nat) :
  m.run next fuel c = none
  := by
  induction fuel generalizing c τ with
  | zero => rfl
  | succ fuel ih =>
      obtain ⟨τ', hcontracts, hno'⟩ := Table.exists_contracts hno
      obtain ⟨c', hlingers, hlookahead, -, hτ'⟩ := h.exists_lingers ha hg hm hτ hcontracts
      rw [Machine.run, hlingers.1]
      apply ih (h.step hlingers.1) hτ'
      rw [hlookahead]
      apply hno'

/-- Where the contractions of the stack come to an end, a run ends or takes the lookahead. -/
theorem halts_of_rests (h : m.Reached next source c) (hτ : c.frames.map Frame.state = τ ++ [0])
    (hrests : m.table.Rests c.lookahead.lookahead 0 τ)
    (htakes : ∀ c', m.Reached next source c' → c.lookahead.kind ≠ none →
      (∃ lastEnd, fetch next lastEnd c.source = .ok (c'.lookahead, c'.lastEnd, c'.source)) →
      m.Halts next c') :
  m.Halts next c
  := by
  generalize hl : c.lookahead.lookahead = l at hrests
  obtain ⟨τ', hcontracts, hend⟩ := hrests
  induction hcontracts using ReflTransGen.head_induction_on generalizing c with
  | refl =>
      subst hl
      cases hstep : m.step next c with
      | done r => apply Machine.halts_of_done hstep
      | «continue» c' =>
          rcases h.step_cases ha hg hm hstep hτ with ⟨hkind, -, hf⟩ | ⟨-, -, -, τ'', -, hcontracts⟩
          · apply Machine.Halts.of_step _ hstep
            apply htakes c' (h.step hstep) hkind ⟨_, hf⟩
          · cases hend _ hcontracts
  | head hcontracts _ ih =>
      subst hl
      obtain ⟨c', hlingers, hlookahead, hsource, hτ'⟩ := h.exists_lingers ha hg hm hτ hcontracts
      apply Machine.Halts.of_step _ hlingers.1
      apply ih (h.step hlingers.1) hτ' _ (congrArg Token.lookahead hlookahead)
      rw [hlookahead, hsource]
      apply htakes

/-- If the contractions of all stacks come to an end, so does a run whose lookahead was fetched from
a finite source. -/
theorem halts_of_runsOut
    (hrests : ∀ c τ, m.Reached next source c → c.frames.map Frame.state = τ ++ [0] →
      m.table.Rests c.lookahead.lookahead 0 τ)
    {rest : σ} (hrest : RunsOut next rest) (h : m.Reached next source c)
    (hc : ∃ lastEnd, fetch next lastEnd rest = .ok (c.lookahead, c.lastEnd, c.source)) :
  m.Halts next c
  := by
  induction hrest generalizing c with
  | exhausted hnext =>
      obtain ⟨lastEnd, hf⟩ := hc
      rw [fetch, hnext] at hf
      injection hf with hf
      rw [Prod.mk.injEq] at hf
      obtain ⟨τ, path, hτ, -⟩ := h.exists_lines ha hg hm
      apply h.halts_of_rests ha hg hm hτ (hrests c τ h hτ)
      intro c' _ hkind
      rw [← hf.1] at hkind
      cases hkind rfl
  | failed hnext =>
      obtain ⟨lastEnd, hf⟩ := hc
      rw [fetch, hnext] at hf
      cases hf
  | token hnext _ ih =>
      obtain ⟨lastEnd, hf⟩ := hc
      rw [fetch, hnext] at hf
      injection hf with hf
      rw [Prod.mk.injEq, Prod.mk.injEq] at hf
      obtain ⟨τ, path, hτ, -⟩ := h.exists_lines ha hg hm
      apply h.halts_of_rests ha hg hm hτ (hrests c τ h hτ)
      intro c' h' _ hc'
      rw [← hf.2.2] at hc'
      apply ih h' hc'

end Machine.Reached

/-- A parse of a finite source ends, unless it comes back to the same stack without consuming a
token: then it goes on forever. It never does if the states of the automaton agree with their
closures, and so if every nonterminal generates something. -/
theorem Parser.parse_ends {l : Language} {root : ClassId} {config : ParserConfig} {p : Parser}
    {lg : LanguageGrammar} (hbuild : (Parser.build l root config).2 = .ok p)
    (hgenerated : p.generated = true) (hgrammar : Source.grammar ⟨l, p.classes⟩ root = .ok lg)
    {σ : Type} {next : σ → Option (TokenItem × σ)} {source : σ} (hsource : RunsOut next source) :
  ((∀ c, p.machine.Reached next source c → ¬ p.machine.Returns next c) →
      p.machine.Ends next source)
    ∧ (∀ c, p.machine.Reached next source c → p.machine.Returns next c →
      ∀ fuel, p.machine.parse next fuel source = none)
    ∧ ((∀ a, Automaton.build lg.grammar lg.startRule = .ok a →
        ∀ s ∈ a.states, s.Agrees lg.grammar a.states) → p.machine.Ends next source)
    ∧ (lg.grammar.IsProductive → p.machine.Ends next source)
  := by
  obtain ⟨lg', a, hgrammar', ha, htable⟩ := Parser.exists_automaton hbuild hgenerated
  rw [hgrammar] at hgrammar'
  cases hgrammar'
  have hg := Source.compiled_of_grammar hgrammar
  have hlists := hg.assembled.listsRules
  have hfinished := Automaton.finished_of_build hlists ha
  have hall := Source.listsAll_of_grammar
    (Source.identifies_of_collect (Parser.collect_of_build hbuild)) hgrammar
  have hends : (∀ c τ, p.machine.Reached next source c → c.frames.map Frame.state = τ ++ [0] →
      p.machine.table.Rests c.lookahead.lookahead 0 τ) → p.machine.Ends next source := by
    intro hrests
    apply Machine.ends_of_halts
    intro c hstart
    apply (Machine.Reached.start hstart).halts_of_runsOut (m := p.machine) hfinished hg htable
      hrests hsource
    exact ⟨.start, Machine.fetch_of_start hstart⟩
  have hcurrent : a.IsCurrent lg.grammar lg.startRule → p.machine.Ends next source := by
    intro hcurrent
    apply hends
    intro c τ h hτ
    obtain ⟨τ', path, hτ', hl⟩ := h.exists_lines (m := p.machine) hfinished hg htable
    obtain rfl : τ = τ' := List.append_cancel_right (hτ.symm.trans hτ')
    rw [Parser.machine, htable]
    apply hcurrent.rests hfinished hg hall hl
  refine ⟨?_, ?_, ?_, ?_⟩
  · intro hno
    apply hends
    intro c τ h hτ
    by_contra hrests
    obtain ⟨c', h', hreturns⟩ := (Machine.Reached.exists_returns_iff (m := p.machine) hfinished hg
      htable hall).mpr ⟨c, τ, h, hτ, hrests⟩
    apply hno c' h' hreturns
  · intro c h hreturns
    obtain ⟨c', τ, h', hτ, hrests⟩ := (Machine.Reached.exists_returns_iff (m := p.machine) hfinished
      hg htable hall).mp ⟨c, h, hreturns⟩
    apply h'.parse_eq_none
    apply h'.run_eq_none (m := p.machine) hfinished hg htable hτ hrests
  · intro hagrees
    apply hcurrent
    intro i s hs
    obtain ⟨k, hk⟩ := hfinished.states i s hs
    apply hk.of_agrees hlists
    apply hagrees a ha s (Array.mem_of_getElem? hs)
  · intro hproductive
    apply hcurrent
    intro i s hs
    apply hfinished.finished_kernel _ hs
    intro path c hc
    apply hc.exists_expects hg.assembled hg.atRest hg.registered hproductive

/-- The theorem at a group. -/
theorem Parser.parse_ends_group :
  (Parser.build .group ⟨0⟩ {}).2 = .ok .group ∧ Parser.group.generated = true
    ∧ Source.grammar ⟨.group, Parser.group.classes⟩ ⟨0⟩ = .ok .group
    ∧ RunsOut nextOfList Token.group ∧ LanguageGrammar.group.grammar.IsProductive
    ∧ Parser.group.machine.Ends nextOfList Token.group
  := by
  have hsource : RunsOut nextOfList Token.group :=
    .token rfl (.token rfl (.token rfl (.exhausted rfl)))
  use Parser.build_group, rfl, Source.grammar_group, hsource, LanguageGrammar.isProductive_group
  apply (Parser.parse_ends Parser.build_group rfl Source.grammar_group hsource).2.2.2
    LanguageGrammar.isProductive_group

/-! ### A parse without end -/

/-- A language in which two patterns stand for each other, and one has no branch. -/
def Language.looping : Language :=
  let b : Pattern := .combinator ⟨0⟩
  let e : Pattern := .combinator ⟨1⟩
  let n : Pattern := .combinator ⟨2⟩
  let a : Pattern := .combinator ⟨3⟩
  let k : Pattern := .combinator ⟨4⟩
  { classes := #[⟨"S", false, some (.combinator ⟨5⟩)⟩]
    combinators := #[
      ⟨some "B", .capture ⟨none, false, some (.pattern a)⟩⟩,
      ⟨some "E", .capture ⟨none, false, some (.pattern (.sequence [a, n]))⟩⟩,
      ⟨some "N", .choice []⟩,
      ⟨some "A", .choice [.sequence [.literal "t", e], .literal "t", b]⟩,
      ⟨some "K", .choice [a, .sequence [.literal "t", b]]⟩,
      ⟨none, .choice [.sequence [k, n, k], .sequence [b, n]]⟩] }

/-- The class of the language. -/
def ClassTable.looping : ClassTable :=
  ⟨.ofList [(⟨0⟩, ⟨⟨0⟩, "S", false, ∅⟩)]⟩

/-- The grammar of the language. -/
def LanguageGrammar.looping : LanguageGrammar :=
  ((Source.grammar ⟨.looping, .looping⟩ ⟨0⟩).toOption).getD default

/-- The table of the grammar. -/
def Table.looping : Table where
  states := #[
    ⟨false, .ofList [(.nonterminal ⟨2⟩, .shift 1), (.nonterminal ⟨1⟩, .shift 2),
      (.terminal "t", .shift 3), (.nonterminal ⟨5⟩, .shift 4), (.nonterminal ⟨8⟩, .shift 5),
      (.nonterminal ⟨4⟩, .shift 6), (.nonterminal ⟨3⟩, .shift 7)]⟩,
    ⟨false, .ofList [(.endOfInput, .reduce 0)]⟩,
    ⟨true, .ofList [(.endOfInput, .reduce 1)]⟩,
    ⟨false, .ofList [(.nonterminal ⟨5⟩, .shift 8), (.nonterminal ⟨6⟩, .shift 9),
      (.terminal "t", .shift 10), (.nonterminal ⟨8⟩, .shift 11), (.endOfInput, .reduce 4)]⟩,
    ⟨false, .ofList []⟩,
    ⟨false, .ofList [(.nonterminal ⟨7⟩, .shift 12)]⟩,
    ⟨false, .ofList [(.nonterminal ⟨7⟩, .shift 13)]⟩,
    ⟨false, .ofList [(.endOfInput, .reduce 11)]⟩,
    ⟨false, .ofList [(.nonterminal ⟨7⟩, .shift 14), (.endOfInput, .reduce 5)]⟩,
    ⟨false, .ofList []⟩,
    ⟨false, .ofList [(.nonterminal ⟨5⟩, .shift 8), (.nonterminal ⟨6⟩, .shift 9),
      (.terminal "t", .shift 10), (.nonterminal ⟨8⟩, .shift 15), (.endOfInput, .reduce 4)]⟩,
    ⟨false, .ofList []⟩,
    ⟨false, .ofList [(.endOfInput, .reduce 10)]⟩,
    ⟨false, .ofList [(.terminal "t", .shift 3), (.nonterminal ⟨5⟩, .shift 4),
      (.nonterminal ⟨8⟩, .shift 15), (.nonterminal ⟨4⟩, .shift 16)]⟩,
    ⟨false, .ofList [(.endOfInput, .reduce 2)]⟩,
    ⟨false, .ofList [(.endOfInput, .reduce 6)]⟩,
    ⟨false, .ofList [(.endOfInput, .reduce 9)]⟩]
  reductions := .ofList [
    (0, ⟨1, ⟨1⟩, some ⟨false, "root", .node ⟨0⟩⟩⟩), (1, ⟨1, .start, none⟩), (2, ⟨2, ⟨6⟩, none⟩),
    (3, ⟨2, ⟨5⟩, none⟩), (4, ⟨1, ⟨5⟩, none⟩), (5, ⟨1, ⟨8⟩, none⟩), (6, ⟨1, ⟨5⟩, none⟩),
    (7, ⟨1, ⟨4⟩, none⟩), (8, ⟨2, ⟨4⟩, none⟩), (9, ⟨3, ⟨3⟩, none⟩), (10, ⟨2, ⟨3⟩, none⟩),
    (11, ⟨1, ⟨2⟩, none⟩)]

/-- The parser of the language. -/
def Parser.looping : Parser := ⟨⟨0⟩, .looping, .looping, .characters, true⟩

theorem Language.walk_looping :
  Language.looping.walk "S" ∅ ⟨∅, []⟩ [.combinator ⟨5⟩] = .ok ⟨∅, []⟩
  := by
  simp [walk, Language.looping, Found.addCombinator, Found.addTarget, Combinator.parts]

theorem ClassTable.collect_looping :
  ClassTable.collect .looping ⟨0⟩ = .ok .looping
  := by
  have hnew : ¬ ClassTable.empty.classes.contains ⟨0⟩ = true := by decide
  have hin : (⟨0⟩ : ClassId).index < Language.looping.classes.size := by decide
  have hexamine : ClassTable.empty.examine .looping Language.looping.classes[0]
      = .ok ⟨∅, []⟩ := by
    apply Language.walk_looping
  rw [collect, collectQueue, dif_neg hnew, dif_pos hin]
  simp only [hexamine, List.append_nil]
  rw [collectQueue]
  rfl

theorem Source.grammar_looping :
  Source.grammar ⟨.looping, .looping⟩ ⟨0⟩ = .ok .looping
  := by
  decide +kernel

theorem Parser.build_looping :
  (Parser.build .looping ⟨0⟩ {}).2 = .ok .looping
  := by
  have hhalt : (Automaton.construct LanguageGrammar.looping.grammar
      LanguageGrammar.looping.startRule).halt = none := by decide +kernel
  have htable : Table.ofAutomaton (Automaton.construct LanguageGrammar.looping.grammar
      LanguageGrammar.looping.startRule).automaton = .looping := by decide +kernel
  simp only [Parser.build, ClassTable.collect_looping, makeTable, Source.automaton,
    Source.grammar_looping, Construction.result, hhalt, htable]
  rfl

/-- The tokens of the parse. -/
def Token.looping : List Token :=
  [⟨some "t", ⟨0, 0, 0⟩, ⟨0, 1, 1⟩, .none⟩, ⟨some "t", ⟨0, 1, 1⟩, ⟨0, 2, 2⟩, .none⟩,
    ⟨some "t", ⟨0, 2, 2⟩, ⟨0, 3, 3⟩, .none⟩]

/-- The parse behind its tokens, with a state above those of the first two. -/
def Config.looping (state : Nat) : Config (List Token) :=
  ⟨[⟨state, 2, 3, ∅⟩, ⟨10, 1, 2, ∅⟩, ⟨3, 0, 1, ∅⟩, ⟨0, 0, 0, ∅⟩], Token.looping.toArray,
    .endOfInput ⟨0, 3, 3⟩, ⟨0, 3, 3⟩, []⟩

/-- Not all parses of finite sources end. -/
theorem Parser.not_forall_parse_ends :
  ¬ ∀ (l : Language) (root : ClassId) (config : ParserConfig) (p : Parser),
      (Parser.build l root config).2 = .ok p → p.generated = true →
      ∀ (σ : Type) (next : σ → Option (TokenItem × σ)) (source : σ), RunsOut next source →
        p.machine.Ends next source
  := by
  intro hall
  have hsource : RunsOut nextOfList Token.looping :=
    .token rfl (.token rfl (.token rfl (.exhausted rfl)))
  obtain ⟨n, r, hends⟩ := hall .looping ⟨0⟩ {} .looping Parser.build_looping rfl (List Token)
    nextOfList Token.looping hsource
  -- `A` is reduced to `B` and `B` to `A`
  have hunit : Parser.looping.machine.step nextOfList (.looping 8) = .continue (.looping 15) := by
    rfl
  have hback : Parser.looping.machine.step nextOfList (.looping 15) = .continue (.looping 8) := by
    rfl
  have hrun : ∀ fuel, Parser.looping.machine.run nextOfList fuel (.looping 8) = none
      ∧ Parser.looping.machine.run nextOfList fuel (.looping 15) = none := by
    intro fuel
    induction fuel with
    | zero => exact ⟨rfl, rfl⟩
    | succ fuel ih => rw [Machine.run, Machine.run, hunit, hback]; exact ih.symm
  have hreached : Parser.looping.machine.Reached nextOfList Token.looping (.looping 8) := by
    apply Machine.Reached.step (.step (.step (.step (.start rfl) rfl) rfl) rfl)
    rfl
  have hnone := hreached.parse_eq_none (fun fuel => (hrun fuel).1) n
  rw [hends n (Nat.le_refl n)] at hnone
  cases hnone

end CaptureLR

import CaptureLR.Proofs.Automaton.Condensing
import CaptureLR.Proofs.Parse.Table

/-!
# Parses over renumbered states

If the states of a table are those of another one under new numbers, as many as the parse can come
by, the machine takes the same steps over both tables: it shifts and reduces at the same tokens, the
stacks differ in the numbers of states only, and so does the result, if it names a state. So it
makes no difference to a parse that states are dropped to which no shifts lead.
-/

namespace CaptureLR

variable {kept : List Nat} {σ : Type}

/-! ### What is the same but for numbers -/

/-- Outcomes are the same but for the number of the state where a table lacks something; the list
has the old numbers. -/
inductive SameOutcome (kept : List Nat) {α β : Type} (R : α → β → Prop) :
    Except ParseFailure α → Except ParseFailure β → Prop
  | ok {a : α} {b : β} (h : R a b) : SameOutcome kept R (.ok a) (.ok b)
  | parse (e : ParseError) : SameOutcome kept R (.error (.parse e)) (.error (.parse e))
  | tokenize (e : TokenizeError) : SameOutcome kept R (.error (.tokenize e)) (.error (.tokenize e))
  | gap {i j : Nat} (h : kept[j]? = some i) (gap : TableGap) :
      SameOutcome kept R (.error (.invalidTable i gap)) (.error (.invalidTable j gap))

/-- Frames are the same but for the numbers of their states. -/
structure Frame.Renumbers (kept : List Nat) (f f' : Frame) : Prop where
  state : kept[f'.state]? = some f.state
  first : f'.first = f.first
  stop : f'.stop = f.stop
  slots : f'.slots = f.slots

/-- Machines are at the same place of a parse but for the numbers of states. -/
structure Config.Renumbers (kept : List Nat) (c c' : Config σ) : Prop where
  frames : List.Forall₂ (Frame.Renumbers kept) c.frames c'.frames
  consumed : c'.consumed = c.consumed
  lookahead : c'.lookahead = c.lookahead
  lastEnd : c'.lastEnd = c.lastEnd
  source : c'.source = c.source

/-- Steps lead to the same but for the numbers of states. -/
inductive SameStep (kept : List Nat) : Step σ → Step σ → Prop
  | continue {c c' : Config σ} (h : c.Renumbers kept c') :
      SameStep kept (.continue c) (.continue c')
  | done {r r' : ParseResult} (h : SameOutcome kept Eq r r') : SameStep kept (.done r) (.done r')

/-- The states of the second table have the rows of the first one, under new numbers. -/
structure Table.Renumbers (kept : List Nat) (t t' : Table) : Prop where
  first : kept[0]? = some 0
  reductions : t'.reductions = t.reductions
  row : ∀ j i : Nat, kept[j]? = some i → ∃ row row' : TableState, t.states[i]? = some row
    ∧ t'.states[j]? = some row' ∧ row'.accepting = row.accepting
    ∧ Builder.RenumbersActions kept row.actions row'.actions

/-! ### Actions under columns -/

theorem map_eq_of_forall₂ {α β γ : Type} {R : α → β → Prop} {f : α → γ} {g : β → γ}
    (hfg : ∀ a b, R a b → g b = f a) {as : List α} {bs : List β} (h : List.Forall₂ R as bs) :
  bs.map g = as.map f
  := by
  induction h with
  | nil => rfl
  | cons hab _ ih => rw [List.map_cons, List.map_cons, hfg _ _ hab, ih]

namespace Builder.RenumbersActions

variable {as as' : Actions}

/-- The columns are the same, in the same order. -/
theorem keys_eq (h : RenumbersActions kept as as') :
  as'.keys = as.keys
  := by
  apply map_eq_of_forall₂ _ h
  intro e e' he
  exact he.1

/-- Under each column stands the same action, with the new number of its target. -/
theorem get? (h : RenumbersActions kept as as') (col : Column) :
  Option.Rel (RenumbersAction kept) (as.get? col) (as'.get? col)
  := by
  change List.Forall₂ _ as.toList as'.toList at h
  change Option.Rel _ (as.toList.lookup col) (as'.toList.lookup col)
  generalize as.toList = es at h ⊢
  generalize as'.toList = es' at h ⊢
  induction h with
  | nil => apply Option.Rel.none
  | @cons e e' es es' he _ ih =>
      obtain ⟨k, a⟩ := e
      obtain ⟨k', a'⟩ := e'
      obtain ⟨rfl, ha⟩ := he
      rw [List.lookup_cons, List.lookup_cons]
      cases col == k' with
      | true => apply Option.Rel.some ha
      | false => apply ih

end Builder.RenumbersActions

namespace Table.Renumbers

variable {t t' : Table} {i j : Nat}

/-- What is expected in a state is the same. -/
theorem expected_eq (h : t.Renumbers kept t') (hij : kept[j]? = some i) :
  t'.expected j = t.expected i
  := by
  obtain ⟨row, row', hrow, hrow', -, hactions⟩ := h.row j i hij
  simp only [expected, hrow, hrow', hactions.keys_eq]

/-- The state to go on to with a nonterminal is the same. -/
theorem successor? (h : t.Renumbers kept t') (hij : kept[j]? = some i) (n : Nonterminal) :
  Option.Rel (fun target target' => kept[target']? = some target) (t.successor? i n)
    (t'.successor? j n)
  := by
  obtain ⟨row, row', hrow, hrow', -, hactions⟩ := h.row j i hij
  have hget := hactions.get? (.nonterminal n)
  simp only [Table.successor?, action?, hrow, hrow', Option.bind_some]
  generalize row.actions.get? _ = a at hget ⊢
  generalize row'.actions.get? _ = a' at hget ⊢
  cases hget with
  | none => apply Option.Rel.none
  | some hsame =>
      cases hsame with
      | reduce r => apply Option.Rel.none
      | shift ht => exact .some ht

end Table.Renumbers

/-! ### Steps -/

namespace Machine

variable {m m' : Machine} (hclasses : m'.classes = m.classes)

include hclasses

/-- A capture stores the same, or it lacks the same class. -/
theorem capture_renumbers {i j : Nat} (hij : kept[j]? = some i) (consumed : Array Token)
    (first stop : Nat) (position : Position) (slots : Slots) (c : Capture) :
  SameOutcome kept Eq (m.capture i consumed first stop position slots c)
    (m'.capture j consumed first stop position slots c)
  := by
  unfold capture
  rw [hclasses]
  split
  · split
    · apply SameOutcome.gap hij
    · apply SameOutcome.ok rfl
  · apply SameOutcome.ok rfl
  · apply SameOutcome.ok rfl

variable (htable : m.table.Renumbers kept m'.table)

omit hclasses in
include htable in
/-- Going on behind a nonterminal leads to the same stack but for the numbers of states. -/
theorem goOn_renumbers {exposed exposed' : Frame} {below below' : List Frame}
    (hexposed : exposed.Renumbers kept exposed')
    (hbelow : List.Forall₂ (Frame.Renumbers kept) below below') (n : Nonterminal)
    (first stop : Nat) (slots : Slots) :
  SameOutcome kept (List.Forall₂ (Frame.Renumbers kept))
    (match m.table.successor? exposed.state n with
      | none => .error (.invalidTable exposed.state (.successor n))
      | some target => .ok (⟨target, first, stop, slots⟩ :: exposed :: below))
    (match m'.table.successor? exposed'.state n with
      | none => .error (.invalidTable exposed'.state (.successor n))
      | some target => .ok (⟨target, first, stop, slots⟩ :: exposed' :: below'))
  := by
  have hsuccessor := htable.successor? hexposed.state n
  generalize m.table.successor? exposed.state n = target at hsuccessor ⊢
  generalize m'.table.successor? exposed'.state n = target' at hsuccessor ⊢
  cases hsuccessor with
  | none => apply SameOutcome.gap hexposed.state
  | some ht => exact .ok (.cons ⟨ht, rfl, rfl, rfl⟩ (.cons hexposed hbelow))

include htable

/-- A reduction leads to the same stack but for the numbers of states. -/
theorem reduce_renumbers {i j : Nat} (hij : kept[j]? = some i) {frames frames' : List Frame}
    (h : List.Forall₂ (Frame.Renumbers kept) frames frames') (r : Reduction)
    (consumed : Array Token) (position : Position) :
  SameOutcome kept (List.Forall₂ (Frame.Renumbers kept)) (m.reduce r i frames consumed position)
    (m'.reduce r j frames' consumed position)
  := by
  have hdrop := List.forall₂_drop r.popCount h
  have htake := List.forall₂_take r.popCount h
  unfold reduce
  generalize frames.drop r.popCount = rest at hdrop ⊢
  generalize frames'.drop r.popCount = rest' at hdrop ⊢
  generalize frames.take r.popCount = popped at htake ⊢
  generalize frames'.take r.popCount = popped' at htake ⊢
  cases hdrop with
  | nil => apply SameOutcome.gap hij
  | @cons exposed exposed' below below' hexposed hbelow =>
      -- what is read off the popped frames is the same
      have hfirst : popped'.reverse.head?.map Frame.first
          = popped.reverse.head?.map Frame.first := by
        rw [← List.head?_map, ← List.head?_map, List.map_reverse, List.map_reverse,
          map_eq_of_forall₂ (fun _ _ hf => Frame.Renumbers.first hf) htake]
      have hstop : popped'.reverse.getLast?.map Frame.stop
          = popped.reverse.getLast?.map Frame.stop := by
        rw [← List.getLast?_map, ← List.getLast?_map, List.map_reverse, List.map_reverse,
          map_eq_of_forall₂ (fun _ _ hf => Frame.Renumbers.stop hf) htake]
      have hslots : popped'.reverse.map Frame.slots = popped.reverse.map Frame.slots := by
        rw [List.map_reverse, List.map_reverse,
          map_eq_of_forall₂ (fun _ _ hf => Frame.Renumbers.slots hf) htake]
      simp only [hfirst, hstop, hslots]
      generalize (popped.reverse.head?.map Frame.first).getD consumed.size = first
      generalize (popped.reverse.getLast?.map Frame.stop).getD consumed.size = stop
      generalize Slots.joinAll (popped.reverse.map Frame.slots) = slots
      cases r.capture with
      | none => apply goOn_renumbers htable hexposed hbelow
      | some c =>
          have hcapture := capture_renumbers hclasses hij consumed first stop position slots c
          simp only
          generalize m.capture i consumed first stop position slots c = captured at hcapture ⊢
          generalize m'.capture j consumed first stop position slots c = captured' at hcapture ⊢
          cases hcapture with
          | parse e => apply SameOutcome.parse
          | tokenize e => apply SameOutcome.tokenize
          | gap hij gap => apply SameOutcome.gap hij
          | ok heq =>
              subst heq
              apply goOn_renumbers htable hexposed hbelow

/-- A step leads to the same but for the numbers of states. -/
theorem step_renumbers {c c' : Config σ} (h : c.Renumbers kept c')
    (next : σ → Option (TokenItem × σ)) :
  SameStep kept (m.step next c) (m'.step next c')
  := by
  obtain ⟨frames, consumed, lookahead, lastEnd, source⟩ := c
  obtain ⟨frames', consumed', lookahead', lastEnd', source'⟩ := c'
  obtain ⟨hframes, rfl, rfl, rfl, rfl⟩ := h
  change List.Forall₂ _ frames frames' at hframes
  unfold step
  simp only
  cases hframes with
  | nil => exact .done (.gap htable.first _)
  | @cons top top' below below' htop hbelow =>
      obtain ⟨row, row', hrow, hrow', haccepting, hactions⟩ := htable.row _ _ htop.state
      have haction := hactions.get? lookahead'.lookahead.toColumn
      simp only [hrow, hrow', haccepting, htop.slots]
      split
      · exact .done (.ok rfl)
      · generalize row.actions.get? _ = a at haction ⊢
        generalize row'.actions.get? _ = a' at haction ⊢
        cases haction with
        | none =>
            simp only [htable.expected_eq htop.state]
            exact .done (.parse _)
        | some hsame =>
            cases hsame with
            | shift ht =>
                simp only
                split
                · exact .done (.tokenize _)
                · refine .continue ⟨?_, rfl, rfl, rfl, rfl⟩
                  exact .cons ⟨ht, rfl, rfl, rfl⟩ (.cons htop hbelow)
            | reduce rule =>
                simp only [htable.reductions]
                split
                · exact .done (.gap htop.state _)
                · next r _ =>
                  have hreduce := reduce_renumbers hclasses htable htop.state
                    (.cons htop hbelow) r consumed' lookahead'.start
                  generalize m.reduce r _ _ _ _ = after at hreduce ⊢
                  generalize m'.reduce r _ _ _ _ = after' at hreduce ⊢
                  cases hreduce with
                  | parse e => exact .done (.parse e)
                  | tokenize e => exact .done (.tokenize e)
                  | gap hij gap => exact .done (.gap hij gap)
                  | ok hframes => exact .continue ⟨hframes, rfl, rfl, rfl, rfl⟩

/-- Runs end with the same result but for the number of a state, or neither of them ends. -/
theorem run_renumbers (next : σ → Option (TokenItem × σ)) (fuel : Nat) {c c' : Config σ}
    (h : c.Renumbers kept c') :
  Option.Rel (SameOutcome kept Eq) (m.run next fuel c) (m'.run next fuel c')
  := by
  induction fuel generalizing c c' with
  | zero => apply Option.Rel.none
  | succ fuel ih =>
      have hstep := step_renumbers hclasses htable h next
      unfold run
      generalize m.step next c = after at hstep ⊢
      generalize m'.step next c' = after' at hstep ⊢
      cases hstep with
      | «continue» h => apply ih h
      | done h => apply Option.Rel.some h

theorem parse_renumbers (next : σ → Option (TokenItem × σ)) (fuel : Nat) (source : σ) :
  Option.Rel (SameOutcome kept Eq) (m.parse next fuel source) (m'.parse next fuel source)
  := by
  unfold parse
  cases hstart : start next source with
  | error e => exact .some (.tokenize e)
  | ok c =>
      apply run_renumbers hclasses htable
      unfold start at hstart
      split at hstart
      · cases hstart
      · cases hstart
        exact ⟨.cons ⟨htable.first, rfl, rfl, rfl⟩ .nil, rfl, rfl, rfl, rfl⟩

end Machine

/-! ### Dropping states -/

/-- The table of what is left has the rows that it had, under new numbers. -/
theorem Table.renumbers_of_condenses {states states' : Array State}
    (h : Builder.Condenses states kept states') (g : Grammar) (startRule : Nat) :
  (Table.ofAutomaton ⟨g, states, startRule⟩).Renumbers kept
    (Table.ofAutomaton ⟨g, states', startRule⟩)
  where
  first := h.first
  reductions := rfl
  row j i hij := by
    obtain ⟨s, s', hs, hs', hsame⟩ := h.state j i hij
    refine ⟨⟨s.accepting, s.actions⟩, ⟨s'.accepting, s'.actions⟩, ?_, ?_, hsame.accepting,
      hsame.actions⟩
    · rw [states_ofAutomaton, hs, Option.map_some]
    · rw [states_ofAutomaton, hs', Option.map_some]

namespace Builder

/-- The machine over the table of some states. -/
def machine (g : Grammar) (startRule : Nat) (classes : ClassTable) (states : Array State) :
    Machine :=
  ⟨.ofAutomaton ⟨g, states, startRule⟩, classes⟩

/-- Dropping states leaves those that shifts lead to from the initial state, in their old order,
each as it was but for the numbers of states; each state carries the number of its place if it did
so before, as in any construction. The machine takes the same steps over the tables with and without
the dropped states, and comes to the same result but for the number of a state where the table lacks
something. -/
theorem condenses_and_parses_same {states : Array State} (h : 0 < states.size)
    (hstay : ShiftsStay states) :
  Condenses states (keptNumbers states) (dropUnreachable states)
    ∧ (Numbered states → Numbered (dropUnreachable states))
    ∧ (∀ startRule b, Arises startRule b → 0 < b.states.size ∧ Numbered b.states)
    ∧ ∀ (g : Grammar) (startRule : Nat) (classes : ClassTable) (σ : Type)
        (next : σ → Option (TokenItem × σ)) (fuel : Nat) (source : σ),
        Option.Rel (SameOutcome (keptNumbers states) Eq)
          ((machine g startRule classes states).parse next fuel source)
          ((machine g startRule classes (dropUnreachable states)).parse next fuel source)
  := by
  have hcondenses := condenses_dropUnreachable h hstay
  refine ⟨hcondenses, ?_, ?_, ?_⟩
  · intro hnumbered
    exact (dropUnreachable_numbered h hnumbered hstay.targets_lt).1
  · intro startRule b hb
    exact ⟨hb.size_pos, hb.numbered⟩
  · intro g startRule classes σ next fuel source
    have hclasses : (machine g startRule classes (dropUnreachable states)).classes
        = (machine g startRule classes states).classes := rfl
    exact Machine.parse_renumbers hclasses
      (Table.renumbers_of_condenses hcondenses g startRule) next fuel source

/-- States that recognise a single token, where no shift leads to the second one. -/
def bypassed : Array State :=
  let token := Column.terminal "x"
  let word := Column.nonterminal ⟨1⟩
  let item (rule dot : Nat) : Item := ⟨⟨rule, dot⟩, endContext⟩
  #[⟨0, [item 0 0], .ofList [(word, .shift 3), (token, .shift 2)], false, []⟩,
    ⟨1, [item 1 0], .ofList [(token, .shift 2)], false, []⟩,
    ⟨2, [item 1 1], .ofList [(.endOfInput, .reduce 1)], false, [token]⟩,
    ⟨3, [item 0 1], ∅, true, [word]⟩]

/-- The theorem where a state in the middle is dropped. -/
theorem condenses_and_parses_same_bypassed :
  0 < bypassed.size ∧ ShiftsStay bypassed
    ∧ keptNumbers bypassed = [0, 2, 3]
    ∧ Condenses bypassed [0, 2, 3] (dropUnreachable bypassed)
    ∧ Numbered (dropUnreachable bypassed)
    ∧ ∀ (g : Grammar) (startRule : Nat) (classes : ClassTable) (σ : Type)
        (next : σ → Option (TokenItem × σ)) (fuel : Nat) (source : σ),
        Option.Rel (SameOutcome [0, 2, 3] Eq)
          ((machine g startRule classes bypassed).parse next fuel source)
          ((machine g startRule classes (dropUnreachable bypassed)).parse next fuel source)
  := by
  have hsize : 0 < bypassed.size := by decide
  have hstay : ShiftsStay bypassed := by decide +kernel
  have hkept : keptNumbers bypassed = [0, 2, 3] := by decide +kernel
  have hnumbered : Numbered bypassed := by
    have hplaces : ∀ (i : Nat) (hi : i < bypassed.size), bypassed[i].index = i := by
      decide +kernel
    intro i s hs
    obtain ⟨hi, rfl⟩ := Array.getElem?_eq_some_iff.mp hs
    apply hplaces i hi
  obtain ⟨hcondenses, hagain, -, hparse⟩ := condenses_and_parses_same hsize hstay
  rw [hkept] at hcondenses hparse
  exact ⟨hsize, hstay, hkept, hcondenses, hagain hnumbered, hparse⟩

end Builder

end CaptureLR

import CaptureLR.Lowering
import CaptureLR.Proofs.Grammar.First

/-!
# Drafts of grammars

In the grammar of a language, the nonterminal of the root capture stands in the start rule alone
and the start symbol nowhere. All symbols of rules are registered, and the classes of captures
are in the class table. A draft is proper if it becomes such a grammar, and stays so when rules,
instances and classes are added.
-/

namespace CaptureLR

/-! ### Compiled grammars -/

/-- The root nonterminal stands in the start rule alone, and the start symbol in no rule. -/
structure Grammar.Rooted (g : Grammar) (startRule : Nat) (root : Nonterminal) : Prop where
  rule : g.rules[startRule]? = some ⟨.start, [.nonterminal root]⟩
  only : ∀ r, .nonterminal root ∈ g.expansion r → r = startRule
  absent : ∀ r, .nonterminal .start ∉ g.expansion r

/-- What holds of the grammars that languages are lowered to, with the classes of the language. -/
structure Grammar.Compiled (g : Grammar) (startRule : Nat) (classes : ClassTable) : Prop where
  assembled : g.Assembled
  atRest : g.firstPass = g
  rooted : g.Rooted startRule ⟨1⟩
  registered : ∀ r n, .nonterminal n ∈ g.expansion r → (g.info? n).isSome
  known : ∀ n c id, g.capture? n = some c → c.kind = .node id → (classes.get? id).isSome
  plain : g.capture? .start = none

/-! ### Drafts -/

/-- A nonterminal is registered and none of the first two. -/
def Nonterminal.IsInner (size : Nat) (n : Nonterminal) : Prop := 2 ≤ n.index ∧ n.index < size

theorem Nonterminal.IsInner.mono {n : Nonterminal} {size size' : Nat} (h : n.IsInner size)
    (hle : size ≤ size') :
  n.IsInner size'
  := ⟨h.1, Nat.lt_of_lt_of_le h.2 hle⟩

/-- All nonterminals of a sequence are inner ones. -/
def InnerSymbols (size : Nat) (ss : List Symbol) : Prop :=
  ∀ n, .nonterminal n ∈ ss → n.IsInner size

namespace InnerSymbols

variable {size size' : Nat} {ss ss' : List Symbol}

theorem mono (h : InnerSymbols size ss) (hle : size ≤ size') :
  InnerSymbols size' ss
  := fun n hn => (h n hn).mono hle

theorem nil (size : Nat) :
  InnerSymbols size []
  := by
  intro n hn
  cases hn

theorem terminal (size : Nat) (t : Terminal) :
  InnerSymbols size [.terminal t]
  := by
  intro n hn
  cases List.mem_singleton.mp hn

theorem nonterminal {n : Nonterminal} (h : n.IsInner size) :
  InnerSymbols size [.nonterminal n]
  := by
  intro m hm
  cases List.mem_singleton.mp hm
  apply h

theorem append (h : InnerSymbols size ss) (h' : InnerSymbols size ss') :
  InnerSymbols size (ss ++ ss')
  := by
  intro n hn
  rcases List.mem_append.mp hn with hn | hn
  · apply h n hn
  · apply h' n hn

theorem flatten {sss : List (List Symbol)} (h : ∀ ss ∈ sss, InnerSymbols size ss) :
  InnerSymbols size sss.flatten
  := by
  intro n hn
  obtain ⟨ss, hss, hn⟩ := List.mem_flatten.mp hn
  apply h ss hss n hn

end InnerSymbols

/-- A draft that has the rules of the root capture and of the start symbol, and besides them only
rules of inner nonterminals. -/
structure Draft.Proper (s : Source) (d : Draft) : Prop where
  assembled : d.grammar.Assembled
  rootRule : d.grammar.rules[0]? = some ⟨⟨1⟩, [.nonterminal ⟨2⟩]⟩
  startRule : d.grammar.rules[1]? = some ⟨.start, [.nonterminal ⟨1⟩]⟩
  rules : ∀ (r : Nat) (rule : Rule), 2 ≤ r → d.grammar.rules[r]? = some rule →
    InnerSymbols d.grammar.nonterminals.size rule.expansion
  size : 2 < d.grammar.nonterminals.size
  instances : ∀ id n, d.instances.get? id = some n → n.IsInner d.grammar.nonterminals.size
  classes : ∀ c n, d.classes.get? c = some n → n.IsInner d.grammar.nonterminals.size
  known : ∀ n c id, d.grammar.capture? n = some c → c.kind = .node id →
    (s.classes.get? id).isSome
  plain : d.grammar.capture? .start = none

namespace Draft.Proper

variable {s : Source} {d : Draft}

theorem size_addRule (d : Draft) (head : Nonterminal) (expansion : List Symbol) :
  (d.addRule head expansion).grammar.nonterminals.size = d.grammar.nonterminals.size
  := Array.size_modify

theorem capture?_addRule (g : Grammar) (head : Nonterminal) (expansion : List Symbol)
    (n : Nonterminal) :
  (g.addRule head expansion).capture? n = g.capture? n
  := by
  rw [Grammar.capture?, Grammar.capture?, Grammar.info?_addRule]
  cases g.info? n with
  | none => rfl
  | some i =>
      simp only [Option.map_some, Option.bind_some]
      split <;> rfl

/-- A rule with inner symbols may be added. -/
theorem addRule (h : d.Proper s) (head : Nonterminal) {expansion : List Symbol}
    (he : InnerSymbols d.grammar.nonterminals.size expansion) :
  (d.addRule head expansion).Proper s
  := by
  have hsize := size_addRule d head expansion
  have hold : ∀ (r : Nat) (rule : Rule), d.grammar.rules[r]? = some rule →
      (d.addRule head expansion).grammar.rules[r]? = some rule := by
    intro r rule hr
    have hlt := (Array.getElem?_eq_some_iff.mp hr).1
    change (d.grammar.rules.push _)[r]? = _
    rw [Array.getElem?_push_lt hlt, ← Array.getElem?_eq_getElem hlt, hr]
  refine ⟨h.assembled.addRule head expansion, hold _ _ h.rootRule, hold _ _ h.startRule, ?_, ?_,
    ?_, ?_, ?_, ?_⟩
  · intro r rule hr hrule
    rw [hsize]
    change (d.grammar.rules.push _)[r]? = _ at hrule
    rw [Array.getElem?_push] at hrule
    split at hrule
    · cases hrule
      apply he
    · apply h.rules r rule hr hrule
  · rw [hsize]
    apply h.size
  · rw [hsize]
    apply h.instances
  · rw [hsize]
    apply h.classes
  · intro n c id hc
    apply h.known n c id
    rw [← hc]
    apply (capture?_addRule d.grammar head expansion n).symm
  · rw [← h.plain]
    apply capture?_addRule d.grammar head expansion .start

theorem addRules (h : d.Proper s) (head : Nonterminal) {expansions : List (List Symbol)}
    (he : ∀ e ∈ expansions, InnerSymbols d.grammar.nonterminals.size e) :
  (d.addRules head expansions).Proper s
    ∧ (d.addRules head expansions).grammar.nonterminals.size = d.grammar.nonterminals.size
  := by
  induction expansions generalizing d with
  | nil => exact ⟨h, rfl⟩
  | cons e es ih =>
      have hsize := size_addRule d head e
      obtain ⟨hp, hs⟩ := ih (h.addRule head (he e List.mem_cons_self)) (by
        intro e' he'
        rw [hsize]
        apply he e' (List.mem_cons_of_mem _ he'))
      exact ⟨hp, hs.trans hsize⟩

/-- A nonterminal may be added, with a capture whose class is known. -/
theorem addNonterminal (h : d.Proper s) (name : String) (capture : Option Capture)
    (hc : ∀ c id, capture = some c → c.kind = .node id → (s.classes.get? id).isSome) :
  (d.addNonterminal name capture).2.Proper s
    ∧ (d.addNonterminal name capture).2.grammar.nonterminals.size
      = d.grammar.nonterminals.size + 1
    ∧ (d.addNonterminal name capture).1.IsInner (d.grammar.nonterminals.size + 1)
  := by
  have hsize : (d.addNonterminal name capture).2.grammar.nonterminals.size
      = d.grammar.nonterminals.size + 1 := Array.size_push _
  refine ⟨⟨h.assembled.addNonterminal name capture, h.rootRule, h.startRule, ?_, ?_, ?_, ?_, ?_,
    ?_⟩, hsize, Nat.le_of_lt h.size, Nat.lt_succ_self _⟩
  · intro r rule hr hrule
    rw [hsize]
    apply (h.rules r rule hr hrule).mono (Nat.le_succ _)
  · rw [hsize]
    apply Nat.lt_succ_of_lt h.size
  · intro id n hn
    rw [hsize]
    apply (h.instances id n hn).mono (Nat.le_succ _)
  · intro c n hn
    rw [hsize]
    apply (h.classes c n hn).mono (Nat.le_succ _)
  · intro n c id hn hk
    change (d.grammar.addNonterminal name capture).capture? n = some c at hn
    rw [Grammar.capture?, Grammar.info?_addNonterminal] at hn
    split at hn
    · apply hc c id _ hk
      apply hn
    · apply h.known n c id hn hk
  · change (d.grammar.addNonterminal name capture).capture? .start = none
    have hne : Nonterminal.start ≠ d.grammar.nextNonterminal := by
      intro heq
      have hzero : 0 = d.grammar.nonterminals.size := congrArg Nonterminal.index heq
      have hsize := h.size
      omega
    rw [Grammar.capture?, Grammar.info?_addNonterminal, if_neg hne]
    apply h.plain

theorem addInstance (h : d.Proper s) (id : CombinatorId) (name : String)
    (capture : Option Capture)
    (hc : ∀ c id, capture = some c → c.kind = .node id → (s.classes.get? id).isSome) :
  (d.addInstance id name capture).2.Proper s
    ∧ (d.addInstance id name capture).2.grammar.nonterminals.size
      = d.grammar.nonterminals.size + 1
    ∧ (d.addInstance id name capture).1.IsInner (d.grammar.nonterminals.size + 1)
  := by
  obtain ⟨hp, hsize, hinner⟩ := h.addNonterminal name capture hc
  refine ⟨⟨hp.assembled, hp.rootRule, hp.startRule, hp.rules, hp.size, ?_, hp.classes, hp.known,
    hp.plain⟩, hsize, hinner⟩
  intro id' n hn
  change OrderedMap.get? (OrderedMap.insert d.instances id _) id' = some n at hn
  rw [OrderedMap.get?_insert] at hn
  split at hn
  · cases hn
    rw [← hsize] at hinner
    apply hinner
  · apply hp.instances id' n hn

theorem classNonterminal (h : d.Proper s) (c : NodeClass) :
  (d.classNonterminal c).2.Proper s
    ∧ d.grammar.nonterminals.size ≤ (d.classNonterminal c).2.grammar.nonterminals.size
    ∧ (d.classNonterminal c).1.IsInner (d.classNonterminal c).2.grammar.nonterminals.size
  := by
  unfold Draft.classNonterminal
  cases hn : d.classes.get? c.id with
  | some n => exact ⟨h, Nat.le_refl _, h.classes c.id n hn⟩
  | none =>
      obtain ⟨hp, hsize, hinner⟩ := h.addNonterminal c.name none (by simp)
      rw [← hsize] at hinner
      refine ⟨⟨hp.assembled, hp.rootRule, hp.startRule, hp.rules, hp.size, hp.instances, ?_,
        hp.known, hp.plain⟩, ?_, hinner⟩
      · intro c' n hn
        change OrderedMap.get? (OrderedMap.insert d.classes c.id _) c' = some n at hn
        rw [OrderedMap.get?_insert] at hn
        split at hn
        · cases hn
          apply hinner
        · apply hp.classes c' n hn
      · change _ ≤ (d.addNonterminal c.name none).2.grammar.nonterminals.size
        rw [hsize]
        apply Nat.le_succ

end Draft.Proper

/-! ### Expansions of repetitions -/

section Repetition

variable {size : Nat} {element delimiter : List Symbol} {trailing : Option (List Symbol)}

theorem innerSymbols_repeated (he : InnerSymbols size element) (hd : InnerSymbols size delimiter)
    (n : Nat) :
  InnerSymbols size (repeated element delimiter n)
  := by
  apply he.append
  apply InnerSymbols.flatten
  intro ss hss
  rw [List.eq_of_mem_replicate hss]
  apply hd.append he

theorem innerSymbols_boundedExpansions (he : InnerSymbols size element)
    (hd : InnerSymbols size delimiter) (ht : ∀ t, trailing = some t → InnerSymbols size t)
    (lower upper : Nat) :
  ∀ e ∈ boundedExpansions element delimiter trailing lower upper, InnerSymbols size e
  := by
  intro e hmem
  obtain ⟨n, -, hmem⟩ := List.mem_flatMap.mp hmem
  have hr := innerSymbols_repeated he hd n
  cases trailing with
  | none =>
      rw [List.mem_singleton.mp hmem]
      apply hr
  | some t =>
      rcases List.mem_cons.mp hmem with rfl | hmem
      · apply hr
      · rw [List.mem_singleton.mp hmem]
        apply hr.append (ht t rfl)

theorem innerSymbols_loopExpansions (he : InnerSymbols size element)
    (hd : InnerSymbols size delimiter) (ht : ∀ t, trailing = some t → InnerSymbols size t)
    {loop : Nonterminal} (hl : loop.IsInner size) :
  ∀ e ∈ loopExpansions element delimiter trailing loop, InnerSymbols size e
  := by
  intro e hmem
  rcases List.mem_append.mp hmem with hmem | hmem
  · rcases List.mem_cons.mp hmem with rfl | hmem
    · apply InnerSymbols.nil
    · rw [List.mem_singleton.mp hmem]
      apply (hd.append he).append (InnerSymbols.nonterminal hl)
  · apply ht
    apply Option.mem_toList.mp hmem

/-- The rules of a repetition of inner symbols may be added. -/
theorem Draft.Proper.repetition {s : Source} {d : Draft} (h : d.Proper s) (r : Repetition)
    (name : String) (n : Nonterminal) (he : InnerSymbols d.grammar.nonterminals.size element)
    (hd : InnerSymbols d.grammar.nonterminals.size delimiter)
    (ht : ∀ t, trailing = some t → InnerSymbols d.grammar.nonterminals.size t) :
  (r.addRules name n element delimiter trailing d).Proper s
    ∧ d.grammar.nonterminals.size
      ≤ (r.addRules name n element delimiter trailing d).grammar.nonterminals.size
  := by
  unfold Repetition.addRules
  -- a repetition of no elements adds a rule and no nonterminal
  have hzero : ∃ d', (if r.lower = 0 then d.addRule n [] else d) = d' ∧ d'.Proper s
      ∧ d'.grammar.nonterminals.size = d.grammar.nonterminals.size := by
    split
    · exact ⟨_, rfl, h.addRule n (InnerSymbols.nil _), size_addRule d n []⟩
    · exact ⟨_, rfl, h, rfl⟩
  obtain ⟨d', hd', h', hsize⟩ := hzero
  simp only [hd']
  rw [← hsize] at he hd ht ⊢
  cases r.upper with
  | some upper =>
      obtain ⟨hp, hs⟩ := h'.addRules n (innerSymbols_boundedExpansions he hd ht r.lower upper)
      exact ⟨hp, Nat.le_of_eq hs.symm⟩
  | none =>
      simp only
      obtain ⟨hp, hs, hinner⟩ := h'.addNonterminal (name ++ "['innerLoop']") none (by simp)
      generalize d'.addNonterminal (name ++ "['innerLoop']") none = p at hp hs hinner
      obtain ⟨loop, d''⟩ := p
      simp only at hp hs hinner
      have hle : d'.grammar.nonterminals.size ≤ d''.grammar.nonterminals.size := by
        rw [hs]
        apply Nat.le_succ
      rw [← hs] at hinner
      have he' := he.mono hle
      have hd'' := hd.mono hle
      have hp' := hp.addRule n ((innerSymbols_repeated he' hd'' (max r.lower 1)).append
        (InnerSymbols.nonterminal hinner))
      have hs' := size_addRule d'' n
        (repeated element delimiter (max r.lower 1) ++ [.nonterminal loop])
      have hloop : ∀ e ∈ loopExpansions element delimiter trailing loop,
          InnerSymbols (d''.addRule n (repeated element delimiter (max r.lower 1)
            ++ [.nonterminal loop])).grammar.nonterminals.size e := by
        rw [hs']
        apply innerSymbols_loopExpansions he' hd'' (fun t h => (ht t h).mono hle) hinner
      obtain ⟨hp'', hs''⟩ := hp'.addRules loop hloop
      use hp''
      rw [hs'', hs']
      apply hle

end Repetition

/-- The root nonterminal stands in the start rule; the other symbols of rules are inner ones. -/
theorem Draft.Proper.mem_expansion {s : Source} {d : Draft} (h : d.Proper s) {r : Nat}
    {n : Nonterminal} (hn : .nonterminal n ∈ d.grammar.expansion r) :
  (r = 1 ∧ n = ⟨1⟩) ∨ n.IsInner d.grammar.nonterminals.size
  := by
  unfold Grammar.expansion at hn
  split at hn
  · next rule hrule =>
      match r with
      | 0 =>
          rw [h.rootRule] at hrule
          cases hrule
          cases List.mem_singleton.mp hn
          exact Or.inr ⟨Nat.le_refl 2, h.size⟩
      | 1 =>
          rw [h.startRule] at hrule
          cases hrule
          cases List.mem_singleton.mp hn
          exact Or.inl ⟨rfl, rfl⟩
      | r + 2 =>
          right
          apply h.rules (r + 2) rule (Nat.le_add_left 2 r) hrule n hn
  · cases hn

/-- A proper draft is a compiled grammar once its first sets are computed. -/
theorem Draft.Proper.compiled {s : Source} {d : Draft} (h : d.Proper s) :
  d.grammar.computeFirst.Compiled 1 s.classes
  := by
  have hsame := Grammar.sameRules_computeFirst d.grammar
  have hexpansion : ∀ r, d.grammar.computeFirst.expansion r = d.grammar.expansion r := by
    intro r
    rw [Grammar.expansion, Grammar.expansion, hsame.rules]
  refine ⟨h.assembled.computeFirst, Grammar.firstPass_computeFirst d.grammar, ⟨?_, ?_, ?_⟩, ?_, ?_,
    ?_⟩
  · rw [hsame.rules]
    apply h.startRule
  · intro r hn
    rw [hexpansion] at hn
    rcases h.mem_expansion hn with ⟨hr, -⟩ | hinner
    · apply hr
    · cases Nat.not_succ_le_self 1 hinner.1
  · intro r hn
    rw [hexpansion] at hn
    rcases h.mem_expansion hn with ⟨-, hn⟩ | hinner
    · cases hn
    · cases Nat.not_succ_le_zero 1 hinner.1
  · intro r n hn
    rw [hexpansion] at hn
    have hlt : n.index < d.grammar.nonterminals.size := by
      rcases h.mem_expansion hn with ⟨-, rfl⟩ | hinner
      · apply Nat.lt_of_succ_lt h.size
      · apply hinner.2
    rw [← hsame.size] at hlt
    rw [Grammar.info?, Array.getElem?_eq_getElem hlt, Option.isSome_some]
  · intro n c id hc
    rw [hsame.capture?] at hc
    apply h.known n c id hc
  · rw [hsame.capture?]
    apply h.plain

end CaptureLR

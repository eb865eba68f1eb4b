import CaptureLR.Grammar.First
import CaptureLR.Proofs.Growth

/-!
# Assembled grammars

A grammar is assembled from the empty one by adding nonterminals and rules and by computing
first sets, in any order. The rules listed for a nonterminal of such a grammar exist and have
it for their head. Computing first sets changes nothing but the first sets.
-/

namespace CaptureLR

namespace Grammar

/-- The grammars that can be made from the empty one. -/
inductive Assembled : Grammar → Prop
  | empty : Assembled .empty
  | addNonterminal {g : Grammar} (h : Assembled g) (name : String) (capture : Option Capture) :
      Assembled (g.addNonterminal name capture)
  | addRule {g : Grammar} (h : Assembled g) (head : Nonterminal) (expansion : List Symbol) :
      Assembled (g.addRule head expansion)
  | computeFirst {g : Grammar} (h : Assembled g) : Assembled g.computeFirst

/-! ### What computing first sets keeps -/

/-- Two grammars agree but for their first sets. -/
structure SameRules (g g' : Grammar) : Prop where
  rules : g'.rules = g.rules
  size : g'.nonterminals.size = g.nonterminals.size
  rulesFor : ∀ n, g'.rulesFor n = g.rulesFor n
  capture? : ∀ n, g'.capture? n = g.capture? n

theorem SameRules.refl (g : Grammar) :
  SameRules g g
  := ⟨rfl, rfl, fun _ => rfl, fun _ => rfl⟩

theorem SameRules.trans {g g' g'' : Grammar} (h : SameRules g g') (h' : SameRules g' g'') :
  SameRules g g''
  where
  rules := h'.rules.trans h.rules
  size := h'.size.trans h.size
  rulesFor n := (h'.rulesFor n).trans (h.rulesFor n)
  capture? n := (h'.capture? n).trans (h.capture? n)

theorem info?_enlargeFirst (g : Grammar) (n m : Nonterminal) (c : Context) :
  (g.enlargeFirst n c).info? m
    = (g.info? m).map (fun i => if n = m then { i with first := i.first ∪ c } else i)
  := by
  obtain ⟨n⟩ := n
  obtain ⟨m⟩ := m
  simp only [info?, enlargeFirst, Array.getElem?_modify, Nonterminal.mk.injEq]
  by_cases h : n = m
  · simp [h]
  · simp [h]

theorem sameRules_enlargeFirst (g : Grammar) (n : Nonterminal) (c : Context) :
  SameRules g (g.enlargeFirst n c)
  where
  rules := rfl
  size := Array.size_modify
  rulesFor m := by
    rw [rulesFor, rulesFor, info?_enlargeFirst]
    cases g.info? m with
    | none => rfl
    | some i =>
        simp only [Option.map_some]
        split <;> rfl
  capture? m := by
    rw [capture?, capture?, info?_enlargeFirst]
    cases g.info? m with
    | none => rfl
    | some i =>
        simp only [Option.map_some, Option.bind_some]
        split <;> rfl

theorem firstPass_eq (g : Grammar) :
  g.firstPass
    = g.rules.toList.foldl (fun g r => g.enlargeFirst r.head (g.firstOf endContext r.expansion)) g
  := by
  rw [firstPass, ← Array.foldl_toList]

theorem sameRules_firstPass (g : Grammar) :
  SameRules g g.firstPass
  := by
  rw [firstPass_eq]
  generalize g.rules.toList = rs
  induction rs generalizing g with
  | nil => apply SameRules.refl g
  | cons r rs ih => exact (sameRules_enlargeFirst _ _ _).trans (ih _)

theorem firstPasses_succ (n : Nat) (g : Grammar) :
  firstPasses (n + 1) g = if g.firstPass = g then g else firstPasses n g.firstPass
  := rfl

/-- Computing first sets changes nothing else. -/
theorem sameRules_computeFirst (g : Grammar) :
  SameRules g g.computeFirst
  := by
  apply passes_induction (fun _ => rfl) firstPasses_succ (P := SameRules g)
  · intro g' h
    apply h.trans (sameRules_firstPass g')
  · apply SameRules.refl g

/-! ### The rules of a nonterminal -/

theorem info?_addNonterminal (g : Grammar) (name : String) (capture : Option Capture)
    (n : Nonterminal) :
  (g.addNonterminal name capture).info? n
    = if n = g.nextNonterminal then some ⟨name, capture, [], ∅⟩ else g.info? n
  := by
  obtain ⟨n⟩ := n
  simp only [info?, addNonterminal, nextNonterminal, Array.getElem?_push, Nonterminal.mk.injEq]

theorem info?_nextNonterminal (g : Grammar) :
  g.info? g.nextNonterminal = none
  := Array.getElem?_size

theorem rulesFor_addNonterminal (g : Grammar) (name : String) (capture : Option Capture)
    (n : Nonterminal) :
  (g.addNonterminal name capture).rulesFor n = g.rulesFor n
  := by
  rw [rulesFor, rulesFor, info?_addNonterminal]
  by_cases h : n = g.nextNonterminal
  · rw [if_pos h, h, info?_nextNonterminal]
  · rw [if_neg h]

theorem info?_addRule (g : Grammar) (head : Nonterminal) (expansion : List Symbol)
    (n : Nonterminal) :
  (g.addRule head expansion).info? n
    = (g.info? n).map
        (fun i => if head = n then { i with rules := i.rules ++ [g.rules.size] } else i)
  := by
  obtain ⟨m⟩ := head
  obtain ⟨n⟩ := n
  simp only [info?, addRule, Array.getElem?_modify, Nonterminal.mk.injEq]
  by_cases h : m = n
  · simp [h]
  · simp [h]

/-- The rules of a nonterminal are the old ones, and the new one if it has the nonterminal for
its head and the nonterminal is registered. -/
theorem mem_rulesFor_addRule {g : Grammar} {head n : Nonterminal} {expansion : List Symbol}
    {r : Nat} :
  r ∈ (g.addRule head expansion).rulesFor n
    ↔ r ∈ g.rulesFor n ∨ (r = g.rules.size ∧ n = head ∧ (g.info? n).isSome)
  := by
  rw [rulesFor, rulesFor, info?_addRule]
  cases h : g.info? n with
  | none => simp
  | some i =>
      by_cases hn : head = n
      · simp [hn]
      · have hn' : n ≠ head := fun h => hn h.symm
        simp [hn, hn']

/-- A nonterminal that has a rule is registered. -/
theorem exists_info_of_mem_rulesFor {g : Grammar} {n : Nonterminal} {r : Nat}
    (h : r ∈ g.rulesFor n) :
  ∃ i, g.info? n = some i
  := by
  rw [rulesFor] at h
  cases hi : g.info? n with
  | none =>
      rw [hi] at h
      cases h
  | some i => exact ⟨i, rfl⟩

/-- A rule of a nonterminal exists and has the nonterminal for its head. -/
theorem Assembled.exists_rule {g : Grammar} (h : Assembled g) {n : Nonterminal} {r : Nat}
    (hr : r ∈ g.rulesFor n) :
  ∃ e, g.rules[r]? = some ⟨n, e⟩
  := by
  induction h generalizing n r with
  | empty =>
      obtain ⟨i⟩ := n
      cases i with
      | zero => cases hr
      | succ i => cases hr
  | addNonterminal h name capture ih =>
      rw [rulesFor_addNonterminal] at hr
      apply ih hr
  | @addRule g h head expansion ih =>
      rcases mem_rulesFor_addRule.mp hr with hr | ⟨rfl, rfl, -⟩
      · obtain ⟨e, he⟩ := ih hr
        use e
        have hlt := (Array.getElem?_eq_some_iff.mp he).1
        rw [Grammar.addRule, Array.getElem?_push_lt hlt, ← Array.getElem?_eq_getElem hlt, he]
      · use expansion
        rw [Grammar.addRule, Array.getElem?_push_size]
  | @computeFirst g h ih =>
      rw [(sameRules_computeFirst g).rulesFor] at hr
      rw [(sameRules_computeFirst g).rules]
      apply ih hr

/-- Rules that are listed exist. -/
def ListsRules (g : Grammar) : Prop := ∀ n, ∀ r ∈ g.rulesFor n, r < g.rules.size

theorem Assembled.listsRules {g : Grammar} (h : Assembled g) :
  g.ListsRules
  := by
  intro n r hr
  obtain ⟨e, he⟩ := h.exists_rule hr
  exact (Array.getElem?_eq_some_iff.mp he).1

/-- The head of a rule of a nonterminal is the nonterminal. -/
theorem Assembled.head_eq {g : Grammar} (h : Assembled g) {n : Nonterminal} {r : Nat}
    (hr : r ∈ g.rulesFor n) :
  g.head r = n
  := by
  obtain ⟨e, he⟩ := h.exists_rule hr
  rw [head, he]

/-- All rules are listed at their heads. A rule is not if its head was registered after it. -/
def ListsAll (g : Grammar) : Prop :=
  ∀ (r : Nat) (rule : Rule), g.rules[r]? = some rule → r ∈ g.rulesFor rule.head

theorem ListsAll.addNonterminal {g : Grammar} (h : g.ListsAll) (name : String)
    (capture : Option Capture) :
  (g.addNonterminal name capture).ListsAll
  := by
  intro r rule hr
  rw [rulesFor_addNonterminal]
  apply h r rule hr

theorem ListsAll.addRule {g : Grammar} (h : g.ListsAll) {head : Nonterminal}
    (hhead : (g.info? head).isSome) (expansion : List Symbol) :
  (g.addRule head expansion).ListsAll
  := by
  intro r rule hr
  apply mem_rulesFor_addRule.mpr
  rw [Grammar.addRule, Array.getElem?_push] at hr
  split at hr
  · next heq =>
      cases hr
      exact Or.inr ⟨heq, rfl, hhead⟩
  · exact Or.inl (h r rule hr)

theorem ListsAll.computeFirst {g : Grammar} (h : g.ListsAll) :
  g.computeFirst.ListsAll
  := by
  intro r rule hr
  rw [(sameRules_computeFirst g).rules] at hr
  rw [(sameRules_computeFirst g).rulesFor]
  apply h r rule hr

end Grammar

end CaptureLR

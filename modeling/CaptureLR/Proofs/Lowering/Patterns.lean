import CaptureLR.Proofs.Lowering.Draft
import CaptureLR.Proofs.Lowering.Runs

/-!
# Grammars made from languages

Every step of making a grammar keeps its draft proper, so the grammar of a language is compiled.
Patterns are lowered to inner symbols, and no nonterminal is lost.
-/

namespace CaptureLR

/-! ### Captured classes -/

namespace Source

variable {s : Source}

theorem get?_of_nodeClass {c : ClassId} {n : NodeClass} (h : s.nodeClass c = .ok n) :
  s.classes.get? c = some n
  := by
  unfold nodeClass at h
  split at h
  · next n' hn =>
      cases h
      apply hn
  · cases h

/-- The class of a capture that is accepted is in the class table. -/
theorem known_of_checkCapture {m : Match} {t : Target} (h : s.checkCapture m t = .ok ()) :
  ∀ c id, m.capture? t = some c → c.kind = .node id → (s.classes.get? id).isSome
  := by
  intro c id hc hk
  obtain ⟨prop, -, rfl⟩ := Option.map_eq_some_iff.mp hc
  match t with
  | .pattern (.literal _) => cases hk
  | .pattern (.sequence _) => cases hk
  | .pattern (.combinator _) => cases hk
  | .nodeClass c =>
      cases hk
      rw [checkCapture] at h
      cases hn : s.nodeClass id with
      | error e =>
          rw [hn] at h
          cases h
      | ok n => rw [get?_of_nodeClass hn, Option.isSome_some]

/-- The class of the capture of an instance that is accepted is in the class table. -/
theorem known_of_check {c : Combinator} {context : String}
    (h : s.check c.shape context = .ok ()) :
  ∀ cap id, c.capture? = some cap → cap.kind = .node id → (s.classes.get? id).isSome
  := by
  intro cap id hcap hk
  obtain ⟨name, shape⟩ := c
  cases shape with
  | choice branches => cases hcap
  | repetition r => cases hcap
  | capture m =>
      obtain ⟨t, ht, hcap⟩ := Option.bind_eq_some_iff.mp hcap
      simp only [check, ht] at h
      apply known_of_checkCapture h cap id hcap hk

end Source

/-! ### Lowering keeps drafts proper -/

/-- What may follow the last element is the delimiter or was lowered after it. -/
theorem Trailing.mem_of_lowered {trailing : Trailing} {delimiter t : List Symbol}
    {rest : List (List Symbol)} (h : trailing.lowered delimiter rest = some t) :
  t ∈ delimiter :: rest
  := by
  cases trailing with
  | forbidden => cases h
  | delimiter =>
      cases h
      apply List.mem_cons_self
  | pattern p => apply List.mem_cons_of_mem _ (List.mem_of_head? h)

namespace Draft.Proper

variable {s : Source} {d d' : Draft}

theorem addRule? (h : d.Proper s) (n? : Option Nonterminal) {e : List Symbol}
    (he : InnerSymbols d.grammar.nonterminals.size e) :
  (d.addRule? n? e).Proper s
    ∧ (d.addRule? n? e).grammar.nonterminals.size = d.grammar.nonterminals.size
  := by
  cases n? with
  | none => exact ⟨h, rfl⟩
  | some n => exact ⟨h.addRule n he, size_addRule d n e⟩

/-- An instance whose parts are lowered to inner symbols may be finished. -/
theorem finish (h : d.Proper s) (shape : Shape) (name : String) (n : Nonterminal)
    {es : List (List Symbol)} (hes : ∀ e ∈ es, InnerSymbols d.grammar.nonterminals.size e) :
  (s.finish shape name n es d).Proper s
    ∧ d.grammar.nonterminals.size ≤ (s.finish shape name n es d).grammar.nonterminals.size
  := by
  unfold Source.finish
  cases shape with
  | choice branches => exact ⟨h, Nat.le_refl _⟩
  | repetition r =>
      simp only
      split
      · next element delimiter rest =>
        rw [List.forall_mem_cons] at hes
        apply h.repetition r name n hes.1 (hes.2 delimiter List.mem_cons_self)
        intro t ht
        apply hes.2 t (Trailing.mem_of_lowered ht)
      · exact ⟨h, Nat.le_refl _⟩
  | capture m =>
      simp only
      split
      · next c _ =>
        split
        · next node _ =>
          obtain ⟨hp, hle, hinner⟩ := h.classNonterminal node
          use hp.addRule n (InnerSymbols.nonterminal hinner)
          rw [size_addRule]
          apply hle
        · exact ⟨h, Nat.le_refl _⟩
      · exact ⟨h, Nat.le_refl _⟩

end Draft.Proper

namespace Source

variable {s : Source}

mutual

/-- A pattern is lowered to inner symbols. -/
theorem Lowers.proper : ∀ {context : String} {p : Pattern} {d d' : Draft} {ss : List Symbol},
    s.Lowers context p d ss d' → d.Proper s →
      d'.Proper s ∧ d.grammar.nonterminals.size ≤ d'.grammar.nonterminals.size
        ∧ InnerSymbols d'.grammar.nonterminals.size ss
  | _, _, _, _, _, .literal, hd => ⟨hd, Nat.le_refl _, InnerSymbols.terminal _ _⟩
  | _, _, _, _, _, .sequence h, hd => by
      obtain ⟨hd', hle, hsss⟩ := h.proper hd
      exact ⟨hd', hle, InnerSymbols.flatten hsss⟩
  | _, _, _, _, _, .dangling _, hd => ⟨hd, Nat.le_refl _, InnerSymbols.nil _⟩
  | _, _, _, _, _, .again _ hn _, hd =>
      ⟨hd, Nat.le_refl _, InnerSymbols.nonterminal (hd.instances _ _ hn)⟩
  | _, _, _, _, _, @Lowers.new _ context id c d _ _ _ _ hcheck h, hd => by
      -- what an instance captures is checked before the capture is registered
      have hknown := known_of_check hcheck
      obtain ⟨hd₁, hsize, hn⟩ := hd.addInstance id (c.label context) c.capture? hknown
      obtain ⟨hd₂, hle, hes⟩ := h.proper hd₁
      obtain ⟨hd', hle'⟩ := hd₂.finish c.shape (c.label context) d.grammar.nextNonterminal hes
      rw [← hsize] at hn
      refine ⟨hd', ?_, InnerSymbols.nonterminal (hn.mono (Nat.le_trans hle hle'))⟩
      omega

theorem LowersEach.proper : ∀ {n? : Option Nonterminal} {parts : List (String × Pattern)}
    {d d' : Draft} {es : List (List Symbol)}, s.LowersEach n? parts d es d' → d.Proper s →
      d'.Proper s ∧ d.grammar.nonterminals.size ≤ d'.grammar.nonterminals.size
        ∧ ∀ e ∈ es, InnerSymbols d'.grammar.nonterminals.size e
  | _, _, _, _, _, .nil, hd => ⟨hd, Nat.le_refl _, nofun⟩
  | n?, _, _, _, _, .cons h hs, hd => by
      obtain ⟨hd₁, hle, he⟩ := h.proper hd
      obtain ⟨hd₂, hsize⟩ := hd₁.addRule? n? he
      obtain ⟨hd', hle', hes⟩ := hs.proper hd₂
      rw [hsize] at hle'
      exact ⟨hd', Nat.le_trans hle hle', List.forall_mem_cons.mpr ⟨he.mono hle', hes⟩⟩

end

/-- The classes that are pending are no part of what makes a draft proper. -/
theorem Completes.proper {d d' : Draft} (h : s.Completes d d') (hd : d.Proper s) :
  d'.Proper s
  := by
  induction h with
  | done => apply hd
  | @next c n pending node p e d d₁ d₂ _ _ _ h _ ih =>
      have hset : ({ d with pending } : Draft).Proper s :=
        ⟨hd.assembled, hd.rootRule, hd.startRule, hd.rules, hd.size, hd.instances, hd.classes,
          hd.known, hd.plain⟩
      obtain ⟨hd₁, -, he⟩ := h.proper hset
      apply ih (hd₁.addRule n he)

/-! ### The grammar of a language -/

theorem proper_rootDraft {root : ClassId} {c : NodeClass} (h : s.classes.get? root = some c) :
  (rootDraft root c).Proper s
  where
  assembled := by
    apply Grammar.Assembled.addRule
    apply Grammar.Assembled.addRule
    apply Grammar.Assembled.addNonterminal
    apply Grammar.Assembled.addNonterminal
    apply Grammar.Assembled.empty
  rootRule := rfl
  startRule := rfl
  rules r rule hr hrule := by
    have hlt := (Array.getElem?_eq_some_iff.mp hrule).1
    have hsize : (rootDraft root c).grammar.rules.size = 2 := rfl
    omega
  size := Nat.lt_succ_self 2
  instances id n hn := by cases hn
  classes c' n hn := by
    change OrderedMap.get? (OrderedMap.insert ∅ c.id _) c' = some n at hn
    rw [OrderedMap.get?_insert] at hn
    split at hn
    · cases hn
      exact ⟨Nat.le_refl 2, Nat.lt_succ_self 2⟩
    · cases hn
  known n c' id hn hk := by
    obtain ⟨_ | _ | _ | i⟩ := n
    · cases hn
    · cases hn
      cases hk
      rw [h, Option.isSome_some]
    · cases hn
    · cases hn
  plain := rfl

/-- The rules made for a language are those of the root draft and rules of inner symbols. -/
theorem proper_of_lowerAll {root : ClassId} {startRule : Nat} {d : Draft}
    (h : (s.lowerAll root).run .empty = .ok (startRule, d)) :
  startRule = 1 ∧ d.Proper s
  := by
  obtain ⟨hstart, c, hc, hd⟩ := completes_of_lowerAll h
  use hstart
  apply hd.proper (proper_rootDraft (get?_of_nodeClass hc))

/-- A grammar made from a language is compiled. -/
theorem compiled_of_grammar {root : ClassId} {lg : LanguageGrammar}
    (h : s.grammar root = .ok lg) :
  lg.grammar.Compiled lg.startRule s.classes
  := by
  unfold grammar at h
  split at h
  · cases h
  · next startRule d hrun =>
      cases h
      obtain ⟨rfl, hd⟩ := proper_of_lowerAll hrun
      apply hd.compiled

end Source

end CaptureLR

import CaptureLR.Proofs.Lowering.Patterns

/-!
# Where captures come from

Only nonterminals of instances capture something, and each of them captures what its instance says;
the root nonterminal, which captures the root, is the only exception. Every step of lowering keeps
this, since a capture is given to a nonterminal when it is registered and never changed.
-/

namespace CaptureLR

/-! ### Labelled drafts -/

/-- The nonterminals of instances capture what the instances say, and no other nonterminal captures
anything, but for the first one, which captures the root. -/
structure Draft.Labelled (l : Language) (root : ClassId) (d : Draft) : Prop where
  lt : ∀ id n, d.instances.get? id = some n → n.index < d.grammar.nonterminals.size
  label : ∀ id n, d.instances.get? id = some n →
    ∃ c, l.combinator? id = some c ∧ d.grammar.capture? n = c.capture?
  only : ∀ n cap, d.grammar.capture? n = some cap →
    (n = ⟨1⟩ ∧ cap.kind = .node root) ∨ ∃ id, d.instances.get? id = some n

/-- A nonterminal that is registered captures what is said then; the others are as before. -/
theorem Grammar.capture?_addNonterminal (g : Grammar) (name : String) (capture : Option Capture)
    (n : Nonterminal) :
  (g.addNonterminal name capture).capture? n
    = if n = g.nextNonterminal then capture else g.capture? n
  := by
  rw [Grammar.capture?, Grammar.info?_addNonterminal]
  split
  · rfl
  · rfl

namespace Draft.Labelled

variable {l : Language} {root : ClassId} {d d' : Draft}

/-- Drafts with the same captures and instances are labelled alike. -/
theorem of_same (h : d.Labelled l root) (hi : d'.instances = d.instances)
    (hsize : d.grammar.nonterminals.size ≤ d'.grammar.nonterminals.size)
    (hc : ∀ n, d'.grammar.capture? n = d.grammar.capture? n) :
  d'.Labelled l root
  where
  lt id n hn := by
    rw [hi] at hn
    apply Nat.lt_of_lt_of_le (h.lt id n hn) hsize
  label id n hn := by
    rw [hi] at hn
    obtain ⟨c, hid, hlabel⟩ := h.label id n hn
    exact ⟨c, hid, (hc n).trans hlabel⟩
  only n cap hn := by
    rw [hc] at hn
    rw [hi]
    apply h.only n cap hn

theorem addRule (h : d.Labelled l root) (head : Nonterminal) (e : List Symbol) :
  (d.addRule head e).Labelled l root
  := h.of_same rfl (Nat.le_of_eq (Draft.Proper.size_addRule d head e).symm)
    (Draft.Proper.capture?_addRule d.grammar head e)

theorem addRules (h : d.Labelled l root) (head : Nonterminal) (es : List (List Symbol)) :
  (d.addRules head es).Labelled l root
  := by
  induction es generalizing d with
  | nil => apply h
  | cons e es ih => apply ih (h.addRule head e)

/-- A nonterminal that captures nothing may be added. -/
theorem addNonterminal (h : d.Labelled l root) (name : String) :
  (d.addNonterminal name none).2.Labelled l root
  := by
  have hsize : (d.addNonterminal name none).2.grammar.nonterminals.size
      = d.grammar.nonterminals.size + 1 := Array.size_push _
  refine h.of_same rfl ?_ ?_
  · rw [hsize]
    apply Nat.le_succ
  · intro n
    apply (Grammar.capture?_addNonterminal d.grammar name none n).trans
    split
    · next heq =>
      rw [heq, Grammar.capture?, Grammar.info?_nextNonterminal]
      rfl
    · rfl

theorem repetition (h : d.Labelled l root) (r : Repetition) (name : String) (n : Nonterminal)
    (es ds : List Symbol) (ts : Option (List Symbol)) :
  (r.addRules name n es ds ts d).Labelled l root
  := by
  have hzero : (if r.lower = 0 then d.addRule n [] else d).Labelled l root := by
    split
    · apply h.addRule
    · apply h
  unfold Repetition.addRules
  cases r.upper with
  | some upper => apply hzero.addRules
  | none =>
      apply addRules
      apply addRule
      apply hzero.addNonterminal

/-- A new instance may be added with what it captures. -/
theorem addInstance (h : d.Labelled l root) {id : CombinatorId} {c : Combinator}
    (hid : l.combinator? id = some c) (hnone : d.instances.get? id = none) (name : String) :
  (d.addInstance id name c.capture?).2.Labelled l root
  := by
  have hsize : (d.addInstance id name c.capture?).2.grammar.nonterminals.size
      = d.grammar.nonterminals.size + 1 := Array.size_push _
  have hcapture : ∀ n, (d.addInstance id name c.capture?).2.grammar.capture? n
      = if n = d.grammar.nextNonterminal then c.capture? else d.grammar.capture? n :=
    Grammar.capture?_addNonterminal d.grammar name c.capture?
  have hinstances : ∀ id', (d.addInstance id name c.capture?).2.instances.get? id'
      = if id' = id then some d.grammar.nextNonterminal else d.instances.get? id' :=
    fun id' => OrderedMap.get?_insert d.instances id id' _
  have hold : ∀ id' n, d.instances.get? id' = some n → n ≠ d.grammar.nextNonterminal := by
    rintro id' n hn rfl
    apply Nat.lt_irrefl _ (h.lt id' _ hn)
  constructor
  · intro id' n hn
    rw [hinstances] at hn
    rw [hsize]
    split at hn
    · cases hn
      apply Nat.lt_succ_self
    · apply Nat.lt_succ_of_lt (h.lt id' n hn)
  · intro id' n hn
    rw [hinstances] at hn
    rw [hcapture]
    split at hn
    · next heq =>
      cases hn
      rw [heq, if_pos rfl]
      exact ⟨c, hid, rfl⟩
    · rw [if_neg (hold id' n hn)]
      apply h.label id' n hn
  · intro n cap hn
    rw [hcapture] at hn
    split at hn
    · next heq =>
      right
      use id
      rw [hinstances, if_pos rfl, heq]
    · apply (h.only n cap hn).imp_right
      rintro ⟨id', hid'⟩
      use id'
      rw [hinstances, if_neg, hid']
      rintro rfl
      cases hnone.symm.trans hid'

theorem classNonterminal (h : d.Labelled l root) (c : NodeClass) :
  (d.classNonterminal c).2.Labelled l root
  := by
  unfold Draft.classNonterminal
  cases d.classes.get? c.id with
  | some n => apply h
  | none =>
      have hadd := h.addNonterminal c.name
      exact ⟨hadd.lt, hadd.label, hadd.only⟩

theorem addRule? (h : d.Labelled l root) (n? : Option Nonterminal) (e : List Symbol) :
  (d.addRule? n? e).Labelled l root
  := by
  cases n? with
  | none => apply h
  | some n => apply h.addRule

/-- Finishing an instance captures nothing. -/
theorem finish (h : d.Labelled l root) (s : Source) (shape : Shape) (name : String)
    (n : Nonterminal) (es : List (List Symbol)) :
  (s.finish shape name n es d).Labelled l root
  := by
  unfold Source.finish
  cases shape with
  | choice branches => apply h
  | repetition r =>
      simp only
      split
      · apply h.repetition
      · apply h
  | capture m =>
      simp only
      split
      · split
        · next node _ => apply (h.classNonterminal node).addRule
        · apply h
      · apply h

end Draft.Labelled

/-! ### Lowering keeps drafts labelled -/

namespace Source

variable {s : Source} {root : ClassId}

mutual

/-- An instance is labelled with what it captures when it is given its nonterminal. -/
theorem Lowers.labelled : ∀ {context : String} {p : Pattern} {d d' : Draft} {ss : List Symbol},
    s.Lowers context p d ss d' → d.Labelled s.language root → d'.Labelled s.language root
  | _, _, _, _, _, .literal, hd => hd
  | _, _, _, _, _, .sequence h, hd => h.labelled hd
  | _, _, _, _, _, .dangling _, hd => hd
  | _, _, _, _, _, .again _ _ _, hd => hd
  | _, _, _, _, _, .new hc hnone _ h, hd =>
      (h.labelled (hd.addInstance hc hnone _)).finish _ _ _ _ _

theorem LowersEach.labelled : ∀ {n? : Option Nonterminal} {parts : List (String × Pattern)}
    {d d' : Draft} {es : List (List Symbol)}, s.LowersEach n? parts d es d' →
      d.Labelled s.language root → d'.Labelled s.language root
  | _, _, _, _, _, .nil, hd => hd
  | n?, _, _, _, _, .cons h hs, hd => hs.labelled ((h.labelled hd).addRule? n? _)

end

theorem Completes.labelled {d d' : Draft} (h : s.Completes d d')
    (hd : d.Labelled s.language root) :
  d'.Labelled s.language root
  := by
  induction h with
  | done => apply hd
  | next _ _ _ h _ ih => apply ih ((h.labelled ⟨hd.lt, hd.label, hd.only⟩).addRule _ _)

theorem labelled_rootDraft (l : Language) (root : ClassId) (c : NodeClass) :
  (rootDraft root c).Labelled l root
  where
  lt id n hn := by cases hn
  label id n hn := by cases hn
  only n cap hn := by
    obtain ⟨_ | _ | _ | i⟩ := n
    · cases hn
    · cases hn
      exact Or.inl ⟨rfl, rfl⟩
    · cases hn
    · cases hn

/-- The draft of all rules for a root is labelled. -/
theorem labelled_of_lowerAll {startRule : Nat} {d : Draft}
    (h : (s.lowerAll root).run .empty = .ok (startRule, d)) :
  d.Labelled s.language root
  := by
  obtain ⟨-, c, -, hd⟩ := completes_of_lowerAll h
  apply hd.labelled (labelled_rootDraft s.language root c)

end Source

end CaptureLR

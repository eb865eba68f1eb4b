import CaptureLR.Proofs.Automaton.Recaptured
import CaptureLR.Proofs.Language.Renaming
import CaptureLR.Proofs.Lowering.Runs

/-!
# Lowering renamed languages

Lowering tells classes and instances apart by their numbers and takes them in the order in which it
comes by them, so a renamed language is lowered step by step as the language is: to the same rules
and the same nonterminals, which capture the same, classes being under their other numbers.
-/

namespace CaptureLR

variable {ρ : Renaming} {d d' : Draft}

/-! ### Drafts -/

theorem Capture.rename_injective (ρ : Renaming) :
  Function.Injective (Capture.rename ρ)
  := by
  rintro ⟨isArray, prop, kind⟩ ⟨isArray', prop', kind'⟩ h
  simp only [rename, Capture.mk.injEq] at h ⊢
  refine ⟨h.1, h.2.1, ?_⟩
  have hkind := h.2.2
  cases kind with
  | node c =>
      cases kind' with
      | node c' => rw [ρ.onClass_injective (CaptureKind.node.inj hkind)]
      | _ => cases hkind
  | token =>
      cases kind' with
      | token => rfl
      | _ => cases hkind
  | span =>
      cases kind' with
      | span => rfl
      | _ => cases hkind

/-- A draft is another one with classes and instances under their other numbers. -/
structure Draft.IsRenamed (ρ : Renaming) (d d' : Draft) : Prop where
  grammar : d'.grammar = d.grammar.recapture (Capture.rename ρ)
  instances : d.instances.IsMapped ρ.onInstance id d'.instances
  classes : d.classes.IsMapped ρ.onClass id d'.classes
  pending : d'.pending = d.pending.map (Prod.map ρ.onClass id)

namespace Draft.IsRenamed

theorem empty :
  Draft.empty.IsRenamed ρ .empty
  := by
  refine ⟨?_, rfl, rfl, rfl⟩
  simp [Draft.empty, Grammar.empty, Grammar.recapture, NonterminalInfo.recapture]

variable (h : d.IsRenamed ρ d')

include h

theorem get?_instances (id : CombinatorId) :
  d'.instances.get? (ρ.onInstance id) = d.instances.get? id
  := by
  rw [h.instances.get? ρ.onInstance_injective, Option.map_id]
  rfl

theorem get?_classes (c : ClassId) :
  d'.classes.get? (ρ.onClass c) = d.classes.get? c
  := by
  rw [h.classes.get? ρ.onClass_injective, Option.map_id]
  rfl

theorem addRule (n : Nonterminal) (e : List Symbol) :
  (d.addRule n e).IsRenamed ρ (d'.addRule n e)
  where
  grammar := by rw [Draft.addRule, h.grammar, Grammar.addRule_recapture, Draft.addRule]
  instances := h.instances
  classes := h.classes
  pending := h.pending

theorem addRules (n : Nonterminal) (es : List (List Symbol)) :
  (d.addRules n es).IsRenamed ρ (d'.addRules n es)
  := by
  induction es generalizing d d' with
  | nil => apply h
  | cons e es ih => apply ih (h.addRule n e)

theorem addNonterminal (name : String) (capture : Option Capture) :
  (d'.addNonterminal name (capture.map (Capture.rename ρ))).1 = (d.addNonterminal name capture).1
    ∧ (d.addNonterminal name capture).2.IsRenamed ρ
      (d'.addNonterminal name (capture.map (Capture.rename ρ))).2
  := by
  constructor
  · rw [Draft.addNonterminal, h.grammar, Grammar.nextNonterminal_recapture, Draft.addNonterminal]
  · refine ⟨?_, h.instances, h.classes, h.pending⟩
    rw [Draft.addNonterminal, h.grammar, Grammar.addNonterminal_recapture, Draft.addNonterminal]

theorem addInstance (id : CombinatorId) (name : String) (capture : Option Capture) :
  (d'.addInstance (ρ.onInstance id) name (capture.map (Capture.rename ρ))).1
      = (d.addInstance id name capture).1
    ∧ (d.addInstance id name capture).2.IsRenamed ρ
      (d'.addInstance (ρ.onInstance id) name (capture.map (Capture.rename ρ))).2
  := by
  obtain ⟨hn, hd⟩ := h.addNonterminal name capture
  use hn
  refine ⟨hd.grammar, ?_, hd.classes, hd.pending⟩
  change OrderedMap.IsMapped _ _ _
    (d'.instances.insert _ (d'.addNonterminal name (capture.map (Capture.rename ρ))).1)
  rw [hn]
  apply h.instances.insert ρ.onInstance_injective

theorem classNonterminal (c : NodeClass) :
  (d'.classNonterminal (c.rename ρ)).1 = (d.classNonterminal c).1
    ∧ (d.classNonterminal c).2.IsRenamed ρ (d'.classNonterminal (c.rename ρ)).2
  := by
  unfold Draft.classNonterminal
  have hget : d'.classes.get? (c.rename ρ).id = d.classes.get? c.id := h.get?_classes c.id
  rw [hget]
  cases d.classes.get? c.id with
  | some n => exact ⟨rfl, h⟩
  | none =>
      obtain ⟨hn, hd⟩ := h.addNonterminal c.name none
      have hn' :
          (d'.addNonterminal (c.rename ρ).name none).1 = (d.addNonterminal c.name none).1 := hn
      refine ⟨hn', hd.grammar, hd.instances, ?_, ?_⟩
      · simp only [hn']
        apply h.classes.insert ρ.onClass_injective
      · simp only [hn', List.map_append]
        apply congrArg (· ++ _) h.pending

theorem addRule? (n? : Option Nonterminal) (e : List Symbol) :
  (d.addRule? n? e).IsRenamed ρ (d'.addRule? n? e)
  := by
  cases n? with
  | none => apply h
  | some n => apply h.addRule

theorem repetition (r : Repetition) (name : String) (n : Nonterminal) (es ds : List Symbol)
    (ts : Option (List Symbol)) :
  (r.addRules name n es ds ts d).IsRenamed ρ (r.addRules name n es ds ts d')
  := by
  unfold Repetition.addRules
  have hzero : (if r.lower = 0 then d.addRule n [] else d).IsRenamed ρ
      (if r.lower = 0 then d'.addRule n [] else d') := by
    split
    · apply h.addRule
    · apply h
  cases r.upper with
  | some upper => apply hzero.addRules
  | none =>
      obtain ⟨hloop, hd⟩ := hzero.addNonterminal (name ++ "['innerLoop']") none
      rw [Option.map_none] at hloop hd
      simp only [hloop]
      apply addRules
      apply hd.addRule

end Draft.IsRenamed

/-! ### Outcomes -/

section Outcomes

variable {α α' β β' : Type} {R : α → α' → Prop} {R' : β → β' → Prop}
  {x : Except BuildError α} {x' : Except BuildError α'} {f : α → Except BuildError β}
  {f' : α' → Except BuildError β'}

/-- Two outcomes are alike, unless one of them is that a bound on the work was reached. -/
def AlikeUnlessExhausted (R : α → α' → Prop) (x : Except BuildError α)
    (x' : Except BuildError α') : Prop :=
  x = .error .exhausted ∨ x' = .error .exhausted ∨ Alike R x x'

theorem AlikeUnlessExhausted.ok {a : α} {a' : α'} (h : R a a') :
  AlikeUnlessExhausted R (.ok a) (.ok a')
  := Or.inr (Or.inr (.ok h))

theorem AlikeUnlessExhausted.error (e e' : BuildError) :
  AlikeUnlessExhausted R (.error e) (.error e')
  := Or.inr (Or.inr (.error e e'))

theorem Alike.unlessExhausted (h : Alike R x x') :
  AlikeUnlessExhausted R x x'
  := Or.inr (Or.inr h)

/-- What follows on outcomes that are alike. -/
theorem AlikeUnlessExhausted.bind (h : AlikeUnlessExhausted R x x')
    (hf : ∀ a a', R a a' → AlikeUnlessExhausted R' (f a) (f' a')) :
  AlikeUnlessExhausted R' (x >>= f) (x' >>= f')
  := by
  rcases h with rfl | rfl | h
  · exact Or.inl rfl
  · exact Or.inr (Or.inl rfl)
  · cases h with
    | error e e' => exact .error e e'
    | ok h => apply hf _ _ h

end Outcomes

/-- Two runs come to the same result and to drafts that differ by a renaming, or both fail, unless a
bound on the work is reached. -/
def AlikeRuns (ρ : Renaming) {α : Type} (x x' : Except BuildError (α × Draft)) : Prop :=
  AlikeUnlessExhausted (fun p p' => p'.1 = p.1 ∧ p.2.IsRenamed ρ p'.2) x x'

/-! ### Parts of instances -/

theorem numbered_map (context : Nat → String) (ps : List Pattern) (index : Nat) :
  numbered context (ps.map (Pattern.rename ρ)) index
    = (numbered context ps index).map (Prod.map id (Pattern.rename ρ))
  := by
  induction ps generalizing index with
  | nil => rfl
  | cons p ps ih =>
      rw [List.map_cons, numbered_cons, numbered_cons, List.map_cons, ih]
      rfl

/-- The parts of a renamed instance are the renamed parts, in the same contexts. -/
theorem Shape.entries_rename (shape : Shape) (name : String) :
  (shape.rename ρ).entries name = (shape.entries name).map (Prod.map id (Pattern.rename ρ))
  := by
  cases shape with
  | choice branches => rw [rename, entries, numbered_map, entries]
  | repetition r =>
      obtain ⟨element, delimiter, trailing, lower, upper⟩ := r
      simp only [rename, entries]
      have hvoid : (Repetition.rename ρ ⟨element, delimiter, trailing, lower, upper⟩).isVoid
          = (⟨element, delimiter, trailing, lower, upper⟩ : Repetition).isVoid := rfl
      rw [hvoid]
      split
      · rfl
      · cases trailing <;> rfl
  | capture m =>
      obtain ⟨prop, isArray, target⟩ := m
      rcases target with _ | ⟨_ | _⟩ <;> rfl

theorem Shape.head?_rename (shape : Shape) (n : Nonterminal) :
  (shape.rename ρ).head? n = shape.head? n
  := by
  cases shape <;> rfl

theorem Shape.label_rename (shape : Shape) :
  (shape.rename ρ).label = shape.label
  := by
  cases shape <;> rfl

/-! ### Instances -/

/-- A language and classes are others with classes and instances under their other numbers. -/
structure Source.IsRenamed (ρ : Renaming) (s s' : Source) : Prop where
  language : s.language.IsRenamed ρ s'.language
  classes : s.classes.IsRenamed ρ s'.classes

/-- A renamed match captures the same, the class being under its other number. -/
theorem Match.capture?_rename (m : Match) (t : Target) :
  (m.rename ρ).capture? (t.rename ρ) = (m.capture? t).map (Capture.rename ρ)
  := by
  obtain ⟨prop, isArray, target⟩ := m
  cases prop with
  | none => rfl
  | some prop =>
      rcases t with c | ⟨t | items | id⟩ <;> rfl

theorem Combinator.capture?_rename (c : Combinator) :
  (c.rename ρ).capture? = c.capture?.map (Capture.rename ρ)
  := by
  obtain ⟨name, shape⟩ := c
  cases shape with
  | choice branches => rfl
  | repetition r => rfl
  | capture m =>
      obtain ⟨prop, isArray, target⟩ := m
      cases target with
      | none => rfl
      | some t => apply Match.capture?_rename ⟨prop, isArray, some t⟩ t

theorem Combinator.label_rename (c : Combinator) (context : String) :
  (c.rename ρ).label context = c.label context
  := by
  rw [label, label, rename, Shape.label_rename]

namespace Source.IsRenamed

variable {s s' : Source} (h : s.IsRenamed ρ s')

include h

theorem nodeClass (c : ClassId) :
  Alike (fun n n' => n' = n.rename ρ) (s.nodeClass c) (s'.nodeClass (ρ.onClass c))
  := by
  rw [Source.nodeClass, Source.nodeClass, h.classes.get?]
  cases s.classes.get? c with
  | none => apply Alike.error
  | some n => exact .ok rfl

theorem checkCapture (m : Match) (t : Target) :
  Alike (fun _ _ => True) (s.checkCapture m t) (s'.checkCapture (m.rename ρ) (t.rename ρ))
  := by
  cases t with
  | pattern p => exact .ok trivial
  | nodeClass c =>
      have hnode := h.nodeClass c
      rw [Source.checkCapture, Target.rename, Source.checkCapture]
      generalize s.nodeClass c = y, s'.nodeClass (ρ.onClass c) = y' at hnode
      cases hnode with
      | error e e' => apply Alike.error
      | @ok n n' heq =>
          subst heq
          have hsame : (!(m.rename ρ).isArray && (n.rename ρ).standsForArray)
              = (!m.isArray && n.standsForArray) := rfl
          simp only [bind, Except.bind, hsame]
          split
          · apply Alike.error
          · exact .ok trivial

theorem check (shape : Shape) (context : String) :
  Alike (fun _ _ => True) (s.check shape context) (s'.check (shape.rename ρ) context)
  := by
  cases shape with
  | choice branches => exact .ok trivial
  | repetition r => exact .ok trivial
  | capture m =>
      obtain ⟨prop, isArray, target⟩ := m
      cases target with
      | none => apply Alike.error
      | some target => apply h.checkCapture

/-- Instances are finished alike. -/
theorem finish (hd : d.IsRenamed ρ d') (shape : Shape) (name : String) (n : Nonterminal)
    (es : List (List Symbol)) :
  (s.finish shape name n es d).IsRenamed ρ (s'.finish (shape.rename ρ) name n es d')
  := by
  cases shape with
  | choice branches => apply hd
  | repetition r =>
      match es with
      | [] => apply hd
      | [_] => apply hd
      | element :: delimiter :: rest =>
          have htrailing : (r.trailing.rename ρ).lowered delimiter rest
              = r.trailing.lowered delimiter rest := by
            cases r.trailing <;> rfl
          change Draft.IsRenamed ρ
            (r.addRules name n element delimiter (r.trailing.lowered delimiter rest) d)
            (r.addRules name n element delimiter ((r.trailing.rename ρ).lowered delimiter rest) d')
          rw [htrailing]
          apply hd.repetition
  | capture m =>
      obtain ⟨prop, isArray, target⟩ := m
      rcases target with _ | ⟨c | p⟩
      · apply hd
      · simp only [Source.finish, Shape.rename, Match.rename, Option.map_some, Target.rename,
          h.classes.get?]
        cases s.classes.get? c with
        | none => apply hd
        | some node =>
            obtain ⟨hn, hd₁⟩ := hd.classNonterminal node
            simp only [Option.map_some, hn]
            apply hd₁.addRule
      · apply hd

/-! ### Patterns -/

omit h in
theorem lowerEach {lower lower' : Lowerer}
    (hlower : ∀ p context d d', d.IsRenamed ρ d' →
      AlikeRuns ρ ((lower p context).run d) ((lower' (p.rename ρ) context).run d'))
    (n? : Option Nonterminal) (parts : List (String × Pattern)) (hd : d.IsRenamed ρ d') :
  AlikeRuns ρ ((Source.lowerEach lower n? parts).run d)
    ((Source.lowerEach lower' n? (parts.map (Prod.map id (Pattern.rename ρ)))).run d')
  := by
  induction parts generalizing d d' with
  | nil => exact .ok ⟨rfl, hd⟩
  | cons part parts ih =>
      obtain ⟨context, p⟩ := part
      rw [List.map_cons, run_lowerEach_cons, Prod.map_apply, id, run_lowerEach_cons]
      apply (hlower p context d d' hd).bind
      rintro ⟨e, d₁⟩ ⟨_, d₁'⟩ ⟨rfl, hd₁⟩
      apply (ih (hd₁.addRule? n? _)).bind
      rintro ⟨es, d₂⟩ ⟨_, d₂'⟩ ⟨rfl, hd₂⟩
      exact .ok ⟨rfl, hd₂⟩

/-- Patterns are lowered alike, however deep combinators may be nested in the one language and in
the other. -/
theorem lower (fuel fuel' : Nat) (p : Pattern) (context : String) (hd : d.IsRenamed ρ d') :
  AlikeRuns ρ ((s.lower fuel p context).run d) ((s'.lower fuel' (p.rename ρ) context).run d')
  := by
  -- the languages need not weigh the same, so either of them may run out of its fuel first
  induction fuel generalizing fuel' p context d d' with
  | zero =>
      cases p with
      | literal t =>
          rw [Pattern.rename, Source.lower, Source.lower]
          exact .ok ⟨rfl, hd⟩
      | _ => exact Or.inl rfl
  | succ fuel ih =>
      cases p with
      | literal t =>
          rw [Pattern.rename, Source.lower, Source.lower]
          exact .ok ⟨rfl, hd⟩
      | sequence items =>
          cases fuel' with
          | zero => exact Or.inr (Or.inl rfl)
          | succ fuel' =>
              rw [Pattern.rename, Pattern.renameList_eq_map, run_lower_sequence, run_lower_sequence,
                numbered_map]
              apply (lowerEach (fun p context _ _ hd => ih fuel' p context hd) none _ hd).bind
              rintro ⟨sss, d₁⟩ ⟨_, d₁'⟩ ⟨rfl, hd₁⟩
              exact .ok ⟨rfl, hd₁⟩
      | combinator id =>
          cases fuel' with
          | zero => exact Or.inr (Or.inl rfl)
          | succ fuel' =>
              have hcombinator := h.language.combinators id
              cases hc : s.language.combinator? id with
              | none =>
                  rw [hc] at hcombinator
                  rw [Pattern.rename, Source.lower, Source.lower, hc, hcombinator]
                  exact .ok ⟨rfl, hd⟩
              | some c =>
                  rw [hc] at hcombinator
                  have hinstances := hd.get?_instances id
                  cases hn : d.instances.get? id with
                  | some n =>
                      rw [hn] at hinstances
                      rw [Pattern.rename, run_lower_combinator hc, run_lower_combinator hcombinator,
                        run_lowerInstance_of_some hn, run_lowerInstance_of_some hinstances]
                      obtain ⟨_ | name, shape⟩ := c
                      · exact .error _ _
                      · exact .ok ⟨rfl, hd⟩
                  | none =>
                      rw [hn] at hinstances
                      rw [Pattern.rename, run_lower_new hc hn, run_lower_new hcombinator hinstances]
                      apply (h.check c.shape context).unlessExhausted.bind
                      rintro _ _ -
                      obtain ⟨hnext, hd₁⟩ := hd.addInstance id (c.label context) c.capture?
                      have hshape : (c.rename ρ).shape = c.shape.rename ρ := rfl
                      rw [Combinator.label_rename, Combinator.capture?_rename, hshape]
                      simp only [Shape.head?_rename, Shape.entries_rename, hnext]
                      apply (lowerEach (fun p context _ _ hd => ih fuel' p context hd) _ _ hd₁).bind
                      rintro ⟨es, d₂⟩ ⟨_, d₂'⟩ ⟨rfl, hd₂⟩
                      exact .ok ⟨rfl, h.finish hd₂ _ _ _ _⟩

/-- The pattern under the other number of a class is the renamed pattern. -/
theorem pattern? (c : ClassId) :
  s'.language.pattern? (ρ.onClass c) = (s.language.pattern? c).map (Pattern.rename ρ)
  := by
  rw [Language.pattern?, h.language.classes c, Language.pattern?]
  cases s.language.classes[c.index]? with
  | none => rfl
  | some d => rfl

theorem lowerClass (c : ClassId) (n : Nonterminal) (hd : d.IsRenamed ρ d') :
  AlikeRuns ρ ((s.lowerClass c n).run d) ((s'.lowerClass (ρ.onClass c) n).run d')
  := by
  rw [run_lowerClass, run_lowerClass, h.pattern? c]
  apply (h.nodeClass c).unlessExhausted.bind
  rintro node _ rfl
  cases s.language.pattern? c with
  | none => exact .error _ _
  | some p =>
      apply (h.lower _ _ p node.name hd).bind
      rintro ⟨e, d₁⟩ ⟨_, d₁'⟩ ⟨rfl, hd₁⟩
      exact .ok ⟨rfl, hd₁.addRule n _⟩

/-- Pending classes are made alike, however many are allowed for the one language and for the
other. -/
theorem lowerPending (fuel fuel' : Nat) (hd : d.IsRenamed ρ d') :
  AlikeRuns ρ ((s.lowerPending fuel).run d) ((s'.lowerPending fuel').run d')
  := by
  induction fuel generalizing fuel' d d' with
  | zero => exact Or.inl rfl
  | succ fuel ih =>
      cases fuel' with
      | zero => exact Or.inr (Or.inl rfl)
      | succ fuel' =>
          rw [run_lowerPending_succ, run_lowerPending_succ, hd.pending]
          rcases d.pending with _ | ⟨⟨c, n⟩, pending⟩
          · exact .ok ⟨rfl, hd⟩
          · have hset : Draft.IsRenamed ρ { d with pending }
                { d' with pending := pending.map (Prod.map ρ.onClass id) } :=
              ⟨hd.grammar, hd.instances, hd.classes, rfl⟩
            apply (h.lowerClass c n hset).bind
            rintro ⟨_, d₁⟩ ⟨_, d₁'⟩ ⟨-, hd₁⟩
            apply ih fuel' hd₁

omit h in
theorem rootDraft (root : ClassId) (c : NodeClass) :
  (Source.rootDraft root c).IsRenamed ρ (Source.rootDraft (ρ.onClass root) (c.rename ρ))
  := by
  have hempty : Draft.empty.IsRenamed ρ .empty := .empty
  obtain ⟨-, hroot⟩ := hempty.addNonterminal "root.Match" (some ⟨false, "root", .node root⟩)
  obtain ⟨-, hclass⟩ := hroot.classNonterminal c
  apply (hclass.addRule ⟨1⟩ [.nonterminal ⟨2⟩]).addRule .start [.nonterminal ⟨1⟩]

/-- All rules for a root are made alike. -/
theorem lowerAll (root : ClassId) :
  AlikeRuns ρ ((s.lowerAll root).run .empty) ((s'.lowerAll (ρ.onClass root)).run .empty)
  := by
  rw [run_lowerAll, run_lowerAll]
  apply (h.nodeClass root).unlessExhausted.bind
  rintro c _ rfl
  apply (h.lowerPending _ _ (rootDraft root c)).bind
  rintro ⟨_, d⟩ ⟨_, d'⟩ ⟨-, hd⟩
  exact .ok ⟨rfl, hd⟩

/-- The grammars of renamed languages have the same rules and capture the same, classes being under
their other numbers. -/
theorem grammar (root : ClassId) :
  AlikeUnlessExhausted
    (fun lg lg' => lg'.startRule = lg.startRule
      ∧ lg'.grammar = lg.grammar.recapture (Capture.rename ρ))
    (s.grammar root) (s'.grammar (ρ.onClass root))
  := by
  have hall := h.lowerAll root
  unfold Source.grammar
  generalize (s.lowerAll root).run .empty = x,
    (s'.lowerAll (ρ.onClass root)).run .empty = x' at hall
  rcases hall with rfl | rfl | halike
  · exact Or.inl rfl
  · exact Or.inr (Or.inl rfl)
  · cases halike with
    | error e e' => exact .error e e'
    | @ok p p' hp =>
        obtain ⟨startRule, d⟩ := p
        obtain ⟨startRule', d'⟩ := p'
        obtain ⟨heq, hd⟩ := hp
        refine .ok ⟨heq, ?_⟩
        have hgrammar : d'.grammar = d.grammar.recapture (Capture.rename ρ) := hd.grammar
        simp only [hgrammar]
        apply Grammar.computeFirst_recapture (Capture.rename_injective ρ)

end Source.IsRenamed

end CaptureLR

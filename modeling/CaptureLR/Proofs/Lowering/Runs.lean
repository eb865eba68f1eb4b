import CaptureLR.Lowering

/-!
# Runs of lowering

What one run of lowering does, apart from how it is programmed. A pattern is a literal, a sequence
whose items are lowered one after the other, or an instance. An instance without a nonterminal is
checked and given one; its parts are lowered, each becoming a rule if the instance is no
repetition, and then it is finished. Whatever is to be shown of drafts is shown once for each of
these cases, and carried along a run by induction.
-/

namespace CaptureLR

/-! ### The parts of instances -/

/-- Patterns with their contexts, numbered from an index on. -/
def numbered (context : Nat → String) (ps : List Pattern) (index : Nat) :
    List (String × Pattern) :=
  (ps.zipIdx index).map (fun x => (context x.2, x.1))

theorem numbered_cons (context : Nat → String) (p : Pattern) (ps : List Pattern) (index : Nat) :
  numbered context (p :: ps) index = (context index, p) :: numbered context ps (index + 1)
  := rfl

theorem map_snd_numbered (context : Nat → String) (ps : List Pattern) (index : Nat) :
  (numbered context ps index).map Prod.snd = ps
  := by
  rw [numbered, List.map_map]
  apply List.zipIdx_map_fst

/-- What stands after the delimiter of a repetition. -/
def Trailing.parts : Trailing → List Pattern
  | pattern p => [p]
  | forbidden | delimiter => []

/-- What may follow the last element of a repetition, once its parts are lowered. -/
def Trailing.lowered (trailing : Trailing) (delimiter : List Symbol) (rest : List (List Symbol)) :
    Option (List Symbol) :=
  match trailing with
  | .forbidden => none
  | .delimiter => some delimiter
  | .pattern _ => rest.head?

namespace Shape

/-- The nonterminal that gets a rule for each part: that of a choice or a match. The rules of a
repetition are made of all its parts together. -/
def head? (shape : Shape) (n : Nonterminal) : Option Nonterminal :=
  match shape with
  | repetition _ => none
  | _ => some n

/-- The parts that are lowered, with their contexts. -/
def entries (shape : Shape) (name : String) : List (String × Pattern) :=
  match shape with
  | choice branches => numbered (fun i => s!"{name}[{i}]") branches 0
  | repetition r =>
      if r.isVoid then []
      else
        (name ++ "['pattern']", r.element) :: (name ++ "['delimiter']", r.delimiter)
          :: r.trailing.parts.map (fun p => (name ++ "['trailingDelimiter']", p))
  | capture m =>
      match m.target with
      | some (.pattern p) => [(name, p)]
      | _ => []

end Shape

namespace Combinator

/-- What a combinator captures: only a match with a property and a target captures something. -/
def capture? (c : Combinator) : Option Capture :=
  match c.shape with
  | .capture m => m.target.bind m.capture?
  | _ => none

/-- What the nonterminal of an instance is called. -/
def label (c : Combinator) (context : String) : String :=
  c.name.getD (context ++ "." ++ c.shape.label)

end Combinator

namespace Source

/-- An instance may be given a nonterminal. -/
def check (s : Source) (shape : Shape) (context : String) : Except BuildError Unit :=
  match shape with
  | .capture m =>
      match m.target with
      | none => .error (.uninitializedMatch context)
      | some target => s.checkCapture m target
  | _ => .ok ()

/-- What is added for an instance when its parts are lowered: the rules of a repetition, and the
rule of a match that captures a class. -/
def finish (s : Source) (shape : Shape) (name : String) (n : Nonterminal)
    (es : List (List Symbol)) (d : Draft) : Draft :=
  match shape with
  | .choice _ => d
  | .repetition r =>
      match es with
      | element :: delimiter :: rest =>
          r.addRules name n element delimiter (r.trailing.lowered delimiter rest) d
      | _ => d
  | .capture m =>
      match m.target with
      | some (.nodeClass c) =>
          match s.classes.get? c with
          | some node =>
              (d.classNonterminal node).2.addRule n [.nonterminal (d.classNonterminal node).1]
          | none => d
      | _ => d

end Source

/-- The draft with one more rule, if some nonterminal is to get it. -/
def Draft.addRule? (n? : Option Nonterminal) (e : List Symbol) (d : Draft) : Draft :=
  match n? with
  | none => d
  | some n => d.addRule n e

namespace Source

/-- Lowers patterns one after the other, and makes a rule of each if some nonterminal is to get
it. -/
def lowerEach (lower : Lowerer) (n? : Option Nonterminal) :
    List (String × Pattern) → Drafting (List (List Symbol))
  | [] => pure []
  | (context, p) :: parts => do
      let e ← lower p context
      modify (Draft.addRule? n? e)
      let es ← lowerEach lower n? parts
      pure (e :: es)

/-! ### One walk for all parts -/

variable {s : Source} {lower : Lowerer}

theorem lowerItems_eq (ps : List Pattern) (context : String) (index : Nat) :
  lowerItems lower ps context index
    = List.flatten <$> lowerEach lower none (numbered (fun i => s!"{context}.Caten[{i}]") ps index)
  := by
  induction ps generalizing index with
  | nil => simp [lowerItems, numbered, lowerEach]
  | cons p ps ih =>
      rw [numbered_cons, lowerItems, lowerEach, ih]
      have hsame : ∀ e, (modify (Draft.addRule? none e) : Drafting PUnit) = pure () := fun _ => rfl
      simp [hsame]

theorem lowerBranches_eq (n : Nonterminal) (ps : List Pattern) (name : String) (index : Nat) :
  lowerBranches lower n ps name index
    = (fun _ => ()) <$> lowerEach lower (some n) (numbered (fun i => s!"{name}[{i}]") ps index)
  := by
  induction ps generalizing index with
  | nil => simp [lowerBranches, numbered, lowerEach]
  | cons p ps ih =>
      rw [numbered_cons, lowerBranches, lowerEach]
      have hsame : ∀ e, (modify (Draft.addRule? (some n) e) : Drafting PUnit)
          = modify (fun d => d.addRule n e) := fun _ => rfl
      simp [ih, hsame]

/-! ### One way to lower instances -/

/-- Lowers the parts of an instance that has a nonterminal, and finishes the instance. -/
def lowerParts (s : Source) (lower : Lowerer) (shape : Shape) (name : String) (n : Nonterminal) :
    Drafting Nonterminal := do
  let es ← lowerEach lower (shape.head? n) (shape.entries name)
  modify (s.finish shape name n es)
  pure n

theorem run_lowerParts (shape : Shape) (name : String) (n : Nonterminal) (d : Draft) :
  (s.lowerParts lower shape name n).run d = (do
    let (es, d₁) ← (lowerEach lower (shape.head? n) (shape.entries name)).run d
    pure (n, s.finish shape name n es d₁))
  := rfl

theorem lowerParts_choice (branches : List Pattern) (name : String) (n : Nonterminal) :
  s.lowerParts lower (.choice branches) name n = (do
    lowerBranches lower n branches name 0
    pure n)
  := by
  have hfinish : ∀ es, (modify (s.finish (.choice branches) name n es) : Drafting PUnit)
      = pure () := fun _ => rfl
  simp [lowerParts, lowerBranches_eq, Shape.entries, Shape.head?, hfinish]

theorem lowerParts_void {r : Repetition} (hr : r.isVoid = true) (name : String) (n : Nonterminal) :
  s.lowerParts lower (.repetition r) name n = pure n
  := by
  rw [lowerParts, Shape.entries, if_pos hr]
  rfl

theorem lowerParts_repetition {r : Repetition} (hr : r.isVoid = false) (name : String)
    (n : Nonterminal) :
  s.lowerParts lower (.repetition r) name n = (do
    let element ← lower r.element (name ++ "['pattern']")
    let delimiter ← lower r.delimiter (name ++ "['delimiter']")
    let trailing ← match r.trailing with
      | .forbidden => pure none
      | .delimiter => pure (some delimiter)
      | .pattern p => some <$> lower p (name ++ "['trailingDelimiter']")
    modify (r.addRules name n element delimiter trailing)
    pure n)
  := by
  have hsame : ∀ e, (modify (Draft.addRule? none e) : Drafting PUnit) = pure () := fun _ => rfl
  have hfinish : ∀ es ds rest, s.finish (.repetition r) name n (es :: ds :: rest)
      = r.addRules name n es ds (r.trailing.lowered ds rest) := fun _ _ _ => rfl
  cases ht : r.trailing <;>
    simp [lowerParts, Shape.entries, Shape.head?, hr, lowerEach, hsame, Trailing.parts,
      Trailing.lowered, hfinish, ht]

theorem lowerParts_toPattern {m : Match} {p : Pattern} (hm : m.target = some (.pattern p))
    (name : String) (n : Nonterminal) :
  s.lowerParts lower (.capture m) name n = (do
    let expansion ← lower p name
    modify (fun d => d.addRule n expansion)
    pure n)
  := by
  have hadd : ∀ e, (modify (Draft.addRule? (some n) e) : Drafting PUnit)
      = modify (fun d => d.addRule n e) := fun _ => rfl
  have hfinish : ∀ es, s.finish (.capture m) name n es = id := by
    intro es
    funext d
    simp only [finish, hm, id]
  have hid : (modify id : Drafting PUnit) = pure () := rfl
  simp [lowerParts, Shape.entries, Shape.head?, hm, lowerEach, hadd, hfinish, hid]

theorem lowerParts_toClass {m : Match} {c : ClassId} (hm : m.target = some (.nodeClass c))
    {node : NodeClass} (hc : s.classes.get? c = some node) (name : String) (n : Nonterminal) :
  s.lowerParts lower (.capture m) name n = (do
    let inner ← s.classNonterminal c
    modify (fun d => d.addRule n [.nonterminal inner])
    pure n)
  := by
  have hfinish : ∀ es, s.finish (.capture m) name n es = fun d =>
      (d.classNonterminal node).2.addRule n [.nonterminal (d.classNonterminal node).1] := by
    intro es
    funext d
    simp only [finish, hm, hc]
  simp only [lowerParts, Shape.entries, hm, lowerEach, hfinish, classNonterminal, nodeClass, hc]
  rfl

/-- An instance that has a nonterminal already keeps it, but needs a name. -/
theorem run_lowerInstance_of_some {d : Draft} {id : CombinatorId} {n : Nonterminal}
    (hn : d.instances.get? id = some n) (c : Combinator) (context : String) :
  (s.lowerInstance lower id c context).run d
    = if c.name.isSome then .ok (n, d) else .error (.unnamedReuse c.shape.label context)
  := by
  rw [lowerInstance, StateT.run_bind, StateT.run_get]
  simp only [pure_bind, hn]
  split <;> rfl

/-- An instance that has no nonterminal is checked and given one before its parts are lowered. -/
theorem run_lowerInstance_of_none {d : Draft} {id : CombinatorId}
    (hnone : d.instances.get? id = none) (c : Combinator) (context : String) :
  (s.lowerInstance lower id c context).run d = (do
    s.check c.shape context
    let (n, d₁) := d.addInstance id (c.label context) c.capture?
    (s.lowerParts lower c.shape (c.label context) n).run d₁)
  := by
  rw [lowerInstance, StateT.run_bind, StateT.run_get]
  simp only [pure_bind, hnone]
  obtain ⟨name, shape⟩ := c
  cases shape with
  | choice branches =>
      simp only [lowerParts_choice]
      rfl
  | repetition r =>
      cases hr : r.isVoid with
      | true =>
          simp only [lowerParts_void hr, hr]
          rfl
      | false =>
          simp only [lowerParts_repetition hr, hr]
          rfl
  | capture m =>
      simp only [check]
      cases hm : m.target with
      | none => rfl
      | some target =>
          simp only [Combinator.capture?, hm, Option.bind_some]
          cases target with
          | pattern p =>
              simp only [lowerParts_toPattern hm]
              rfl
          | nodeClass cl =>
              simp only
              cases hc : s.classes.get? cl with
              | none =>
                  -- the check finds that the class is missing before a nonterminal is made
                  simp only [checkCapture, nodeClass, hc]
                  rfl
              | some node =>
                  simp only [lowerParts_toClass hm hc]
                  cases s.checkCapture m (.nodeClass cl) with
                  | error e => rfl
                  | ok u => rfl

/-! ### Runs -/

theorem run_lowerEach_cons (n? : Option Nonterminal) (context : String) (p : Pattern)
    (parts : List (String × Pattern)) (d : Draft) :
  (lowerEach lower n? ((context, p) :: parts)).run d = (do
    let (e, d₁) ← (lower p context).run d
    let (es, d₂) ← (lowerEach lower n? parts).run (d₁.addRule? n? e)
    pure (e :: es, d₂))
  := rfl

theorem run_lower_sequence (fuel : Nat) (items : List Pattern) (context : String) (d : Draft) :
  (s.lower (fuel + 1) (.sequence items) context).run d = (do
    let (sss, d₁) ←
      (lowerEach (s.lower fuel) none (numbered (fun i => s!"{context}.Caten[{i}]") items 0)).run d
    pure (sss.flatten, d₁))
  := by
  rw [lower, lowerItems_eq]
  rfl

theorem run_lower_combinator {fuel : Nat} {id : CombinatorId} {c : Combinator}
    (hc : s.language.combinator? id = some c) (context : String) (d : Draft) :
  (s.lower (fuel + 1) (.combinator id) context).run d = (do
    let (n, d₁) ← (s.lowerInstance (s.lower fuel) id c context).run d
    pure ([.nonterminal n], d₁))
  := by
  rw [lower, hc]
  rfl

/-- An instance is lowered for the first time. -/
theorem run_lower_new {fuel : Nat} {id : CombinatorId} {c : Combinator} {d : Draft}
    (hc : s.language.combinator? id = some c) (hnone : d.instances.get? id = none)
    (context : String) :
  (s.lower (fuel + 1) (.combinator id) context).run d = (do
    s.check c.shape context
    let (n, d₁) := d.addInstance id (c.label context) c.capture?
    let (es, d₂) ←
      (lowerEach (s.lower fuel) (c.shape.head? n) (c.shape.entries (c.label context))).run d₁
    pure ([.nonterminal n], s.finish c.shape (c.label context) n es d₂))
  := by
  rw [run_lower_combinator hc, run_lowerInstance_of_none hnone]
  simp only [run_lowerParts, bind_assoc, pure_bind]

theorem run_lowerClass (c : ClassId) (n : Nonterminal) (d : Draft) :
  (s.lowerClass c n).run d = (do
    let node ← s.nodeClass c
    match s.language.pattern? c with
    | none => .error (.undefinedClass node.name)
    | some p =>
        let (e, d₁) ← (s.lower (s.language.weight + 1) p node.name).run d
        pure ((), d₁.addRule n e))
  := by
  rw [lowerClass]
  cases s.nodeClass c with
  | error e => rfl
  | ok node =>
      simp only
      cases s.language.pattern? c <;> rfl

theorem run_lowerPending_succ (fuel : Nat) (d : Draft) :
  (s.lowerPending (fuel + 1)).run d = match d.pending with
    | [] => .ok ((), d)
    | (c, n) :: pending => (do
        let (_, d₁) ← (s.lowerClass c n).run { d with pending }
        (s.lowerPending fuel).run d₁)
  := by
  rw [lowerPending, StateT.run_bind, StateT.run_get]
  simp only [pure_bind]
  cases d.pending <;> rfl

/-- The draft with nothing but the rules of the root capture and of the start symbol. -/
def rootDraft (root : ClassId) (c : NodeClass) : Draft :=
  let (n, d) := Draft.empty.addNonterminal "root.Match" (some ⟨false, "root", .node root⟩)
  let (inner, d) := d.classNonterminal c
  (d.addRule n [.nonterminal inner]).addRule .start [.nonterminal n]

theorem run_lowerAll (root : ClassId) :
  (s.lowerAll root).run .empty = (do
    let c ← s.nodeClass root
    let (_, d) ← (s.lowerPending (s.classes.size + 1)).run (rootDraft root c)
    pure (1, d))
  := by
  rw [lowerAll, lowerRoot]
  cases s.nodeClass root <;> rfl

end Source

/-! ### What runs do -/

namespace Source

mutual

/-- In a context, a pattern is lowered to symbols, and the one draft becomes the other. -/
inductive Lowers (s : Source) : String → Pattern → Draft → List Symbol → Draft → Prop
  | literal {context : String} {t : Terminal} {d : Draft} :
      Lowers s context (.literal t) d [.terminal t] d
  | sequence {context : String} {items : List Pattern} {d d' : Draft} {sss : List (List Symbol)}
      (h : LowersEach s none (numbered (fun i => s!"{context}.Caten[{i}]") items 0) d sss d') :
      Lowers s context (.sequence items) d sss.flatten d'
  | dangling {context : String} {id : CombinatorId} {d : Draft}
      (hid : s.language.combinator? id = none) :
      Lowers s context (.combinator id) d [] d
  | again {context : String} {id : CombinatorId} {c : Combinator} {n : Nonterminal} {d : Draft}
      (hc : s.language.combinator? id = some c) (hn : d.instances.get? id = some n)
      (hname : c.name.isSome = true) :
      Lowers s context (.combinator id) d [.nonterminal n] d
  | new {context : String} {id : CombinatorId} {c : Combinator} {d d' : Draft}
      {es : List (List Symbol)} (hc : s.language.combinator? id = some c)
      (hnone : d.instances.get? id = none) (hcheck : s.check c.shape context = .ok ())
      (h : LowersEach s (c.shape.head? d.grammar.nextNonterminal)
        (c.shape.entries (c.label context)) (d.addInstance id (c.label context) c.capture?).2 es d') :
      Lowers s context (.combinator id) d [.nonterminal d.grammar.nextNonterminal]
        (s.finish c.shape (c.label context) d.grammar.nextNonterminal es d')

/-- Patterns are lowered in their contexts, one after the other; each becomes a rule if some
nonterminal is to get it. -/
inductive LowersEach (s : Source) : Option Nonterminal → List (String × Pattern) → Draft →
    List (List Symbol) → Draft → Prop
  | nil {n? : Option Nonterminal} {d : Draft} : LowersEach s n? [] d [] d
  | cons {n? : Option Nonterminal} {context : String} {p : Pattern}
      {parts : List (String × Pattern)} {d d₁ d₂ : Draft} {e : List Symbol}
      {es : List (List Symbol)} (h : Lowers s context p d e d₁)
      (hs : LowersEach s n? parts (d₁.addRule? n? e) es d₂) :
      LowersEach s n? ((context, p) :: parts) d (e :: es) d₂

end

mutual

/-- In a context, a pattern is not lowered with combinators nested no deeper than allowed. -/
inductive Fails (s : Source) : Nat → String → Pattern → Draft → BuildError → Prop
  | exhausted {context : String} {p : Pattern} {d : Draft} (hp : ∀ t, p ≠ .literal t) :
      Fails s 0 context p d .exhausted
  | sequence {fuel : Nat} {context : String} {items : List Pattern} {d : Draft} {e : BuildError}
      (h : FailsEach s fuel none (numbered (fun i => s!"{context}.Caten[{i}]") items 0) d e) :
      Fails s (fuel + 1) context (.sequence items) d e
  | again {fuel : Nat} {context : String} {id : CombinatorId} {c : Combinator} {n : Nonterminal}
      {d : Draft} (hc : s.language.combinator? id = some c) (hn : d.instances.get? id = some n)
      (hname : c.name.isSome = false) :
      Fails s (fuel + 1) context (.combinator id) d (.unnamedReuse c.shape.label context)
  | check {fuel : Nat} {context : String} {id : CombinatorId} {c : Combinator} {d : Draft}
      {e : BuildError} (hc : s.language.combinator? id = some c)
      (hnone : d.instances.get? id = none) (hcheck : s.check c.shape context = .error e) :
      Fails s (fuel + 1) context (.combinator id) d e
  | new {fuel : Nat} {context : String} {id : CombinatorId} {c : Combinator} {d : Draft}
      {e : BuildError} (hc : s.language.combinator? id = some c)
      (hnone : d.instances.get? id = none) (hcheck : s.check c.shape context = .ok ())
      (h : FailsEach s fuel (c.shape.head? d.grammar.nextNonterminal)
        (c.shape.entries (c.label context)) (d.addInstance id (c.label context) c.capture?).2 e) :
      Fails s (fuel + 1) context (.combinator id) d e

/-- One of several patterns is not lowered after those before it are. -/
inductive FailsEach (s : Source) : Nat → Option Nonterminal → List (String × Pattern) → Draft →
    BuildError → Prop
  | head {fuel : Nat} {n? : Option Nonterminal} {context : String} {p : Pattern}
      {parts : List (String × Pattern)} {d : Draft} {e : BuildError}
      (h : Fails s fuel context p d e) :
      FailsEach s fuel n? ((context, p) :: parts) d e
  | tail {fuel : Nat} {n? : Option Nonterminal} {context : String} {p : Pattern}
      {parts : List (String × Pattern)} {d d₁ : Draft} {ss : List Symbol} {e : BuildError}
      (h : Lowers s context p d ss d₁) (hs : FailsEach s fuel n? parts (d₁.addRule? n? ss) e) :
      FailsEach s fuel n? ((context, p) :: parts) d e

end

/-- The bodies of the pending classes are made until none is pending. -/
inductive Completes (s : Source) : Draft → Draft → Prop
  | done {d : Draft} (hd : d.pending = []) : Completes s d d
  | next {c : ClassId} {n : Nonterminal} {pending : List (ClassId × Nonterminal)}
      {node : NodeClass} {p : Pattern} {e : List Symbol} {d d₁ d₂ : Draft}
      (hd : d.pending = (c, n) :: pending) (hnode : s.nodeClass c = .ok node)
      (hp : s.language.pattern? c = some p)
      (h : Lowers s node.name p { d with pending } e d₁)
      (hrest : Completes s (d₁.addRule n e) d₂) :
      Completes s d d₂

end Source

/-- An outcome that comes out right after another one that does. -/
theorem bind_eq_ok {ε α β : Type} {x : Except ε α} {f : α → Except ε β} {b : β} :
  (x >>= f) = .ok b ↔ ∃ a, x = .ok a ∧ f a = .ok b
  := by
  cases x <;> simp [bind, Except.bind]

theorem bind_eq_error {ε α β : Type} {x : Except ε α} {f : α → Except ε β} {e : ε} :
  (x >>= f) = .error e ↔ x = .error e ∨ ∃ a, x = .ok a ∧ f a = .error e
  := by
  cases x <;> simp [bind, Except.bind]

namespace Source

variable {s : Source} {lower : Lowerer} {d d' : Draft} {e : BuildError}

/-- If single patterns are lowered as told, so are several. -/
theorem lowersEach_of_run
    (h : ∀ context p d ss d', (lower p context).run d = .ok (ss, d') → s.Lowers context p d ss d')
    {n? : Option Nonterminal} {parts : List (String × Pattern)} {es : List (List Symbol)}
    (hrun : (lowerEach lower n? parts).run d = .ok (es, d')) :
  s.LowersEach n? parts d es d'
  := by
  induction parts generalizing d es with
  | nil =>
      cases hrun
      exact .nil
  | cons part parts ih =>
      rw [run_lowerEach_cons, bind_eq_ok] at hrun
      obtain ⟨⟨e, d₁⟩, he, hrun⟩ := hrun
      obtain ⟨⟨es, d₂⟩, hes, hrun⟩ := bind_eq_ok.mp hrun
      cases hrun
      exact .cons (h _ _ _ _ _ he) (ih hes)

theorem lowers_of_run {fuel : Nat} {context : String} {p : Pattern} {ss : List Symbol}
    (hrun : (s.lower fuel p context).run d = .ok (ss, d')) :
  s.Lowers context p d ss d'
  := by
  -- how much fuel was left does not matter any more, as nothing ran out of it
  induction fuel generalizing context p d ss d' with
  | zero =>
      cases p with
      | literal t =>
          cases hrun
          exact .literal
      | sequence items => cases hrun
      | combinator id => cases hrun
  | succ fuel ih =>
      cases p with
      | literal t =>
          cases hrun
          exact .literal
      | sequence items =>
          rw [run_lower_sequence, bind_eq_ok] at hrun
          obtain ⟨⟨sss, d₁⟩, hsss, hrun⟩ := hrun
          cases hrun
          exact .sequence (lowersEach_of_run (fun _ _ _ _ _ => ih) hsss)
      | combinator id =>
          cases hc : s.language.combinator? id with
          | none =>
              rw [lower, hc] at hrun
              cases hrun
              exact .dangling hc
          | some c =>
              cases hn : d.instances.get? id with
              | some n =>
                  rw [run_lower_combinator hc, run_lowerInstance_of_some hn] at hrun
                  split at hrun
                  · next hname =>
                    cases hrun
                    exact .again hc hn hname
                  · cases hrun
              | none =>
                  rw [run_lower_new hc hn, bind_eq_ok] at hrun
                  obtain ⟨_, hcheck, hrun⟩ := hrun
                  obtain ⟨⟨es, d₂⟩, hes, hrun⟩ := bind_eq_ok.mp hrun
                  cases hrun
                  exact .new hc hn hcheck (lowersEach_of_run (fun _ _ _ _ _ => ih) hes)

/-- If single patterns fail as told, so do several. -/
theorem failsEach_of_run {fuel : Nat}
    (h : ∀ context p d e, (s.lower fuel p context).run d = .error e → s.Fails fuel context p d e)
    {n? : Option Nonterminal} {parts : List (String × Pattern)}
    (hrun : (lowerEach (s.lower fuel) n? parts).run d = .error e) :
  s.FailsEach fuel n? parts d e
  := by
  induction parts generalizing d with
  | nil => cases hrun
  | cons part parts ih =>
      rw [run_lowerEach_cons, bind_eq_error] at hrun
      rcases hrun with hrun | ⟨⟨ss, d₁⟩, hss, hrun⟩
      · exact .head (h _ _ _ _ hrun)
      · rcases bind_eq_error.mp hrun with hrun | ⟨⟨es, d₂⟩, -, hrun⟩
        · exact .tail (lowers_of_run hss) (ih hrun)
        · cases hrun

theorem fails_of_run {fuel : Nat} {context : String} {p : Pattern}
    (hrun : (s.lower fuel p context).run d = .error e) :
  s.Fails fuel context p d e
  := by
  induction fuel generalizing context p d e with
  | zero =>
      cases p with
      | literal t => cases hrun
      | sequence items =>
          cases hrun
          exact .exhausted nofun
      | combinator id =>
          cases hrun
          exact .exhausted nofun
  | succ fuel ih =>
      cases p with
      | literal t => cases hrun
      | sequence items =>
          rw [run_lower_sequence, bind_eq_error] at hrun
          rcases hrun with hrun | ⟨_, -, hrun⟩
          · exact .sequence (failsEach_of_run (fun _ _ _ _ => ih) hrun)
          · cases hrun
      | combinator id =>
          cases hc : s.language.combinator? id with
          | none =>
              rw [lower, hc] at hrun
              cases hrun
          | some c =>
              cases hn : d.instances.get? id with
              | some n =>
                  rw [run_lower_combinator hc, run_lowerInstance_of_some hn] at hrun
                  split at hrun
                  · cases hrun
                  · next hname =>
                    cases hrun
                    exact .again hc hn (by simpa using hname)
              | none =>
                  -- the check fails, or a part does; to finish cannot fail
                  rw [run_lower_new hc hn, bind_eq_error] at hrun
                  rcases hrun with hcheck | ⟨_, hcheck, hrun⟩
                  · exact .check hc hn hcheck
                  · rcases bind_eq_error.mp hrun with hrun | ⟨_, -, hrun⟩
                    · exact .new hc hn hcheck (failsEach_of_run (fun _ _ _ _ => ih) hrun)
                    · cases hrun

/-! ### Classes -/

/-- The body of a class becomes the rule of its nonterminal. -/
theorem lowers_of_lowerClass {c : ClassId} {n : Nonterminal} {u : Unit}
    (hrun : (s.lowerClass c n).run d = .ok (u, d')) :
  ∃ node p e d₁, s.nodeClass c = .ok node ∧ s.language.pattern? c = some p
    ∧ s.Lowers node.name p d e d₁ ∧ d' = d₁.addRule n e
  := by
  rw [run_lowerClass, bind_eq_ok] at hrun
  obtain ⟨node, hnode, hrun⟩ := hrun
  cases hp : s.language.pattern? c with
  | none =>
      rw [hp] at hrun
      cases hrun
  | some p =>
      rw [hp] at hrun
      obtain ⟨⟨e, d₁⟩, he, hrun⟩ := bind_eq_ok.mp hrun
      cases hrun
      exact ⟨node, p, e, d₁, hnode, rfl, lowers_of_run he, rfl⟩

/-- A class that has a body fails only if the body does. -/
theorem fails_of_lowerClass {c : ClassId} {n : Nonterminal} {node : NodeClass} {p : Pattern}
    (hnode : s.nodeClass c = .ok node) (hp : s.language.pattern? c = some p)
    (hrun : (s.lowerClass c n).run d = .error e) :
  s.Fails (s.language.weight + 1) node.name p d e
  := by
  rw [run_lowerClass, hnode, hp] at hrun
  change ((s.lower (s.language.weight + 1) p node.name).run d >>= _) = _ at hrun
  rcases bind_eq_error.mp hrun with hrun | ⟨_, -, hrun⟩
  · apply fails_of_run hrun
  · cases hrun

theorem completes_of_lowerPending {fuel : Nat} {u : Unit}
    (hrun : (s.lowerPending fuel).run d = .ok (u, d')) :
  s.Completes d d'
  := by
  induction fuel generalizing d with
  | zero => cases hrun
  | succ fuel ih =>
      rw [run_lowerPending_succ] at hrun
      rcases hd : d.pending with _ | ⟨⟨c, n⟩, pending⟩
      · rw [hd] at hrun
        cases hrun
        exact .done hd
      · rw [hd] at hrun
        obtain ⟨⟨_, d₁⟩, hclass, hrun⟩ := bind_eq_ok.mp hrun
        obtain ⟨node, p, e, d₁, hnode, hp, he, rfl⟩ := lowers_of_lowerClass hclass
        exact .next hd hnode hp he (ih hrun)

/-- All rules for a root are made from those of the root capture. -/
theorem completes_of_lowerAll {root : ClassId} {startRule : Nat}
    (hrun : (s.lowerAll root).run .empty = .ok (startRule, d)) :
  startRule = 1 ∧ ∃ c, s.nodeClass root = .ok c ∧ s.Completes (rootDraft root c) d
  := by
  rw [run_lowerAll, bind_eq_ok] at hrun
  obtain ⟨c, hc, hrun⟩ := hrun
  obtain ⟨⟨_, d₁⟩, hpending, hrun⟩ := bind_eq_ok.mp hrun
  cases hrun
  exact ⟨rfl, c, hc, completes_of_lowerPending hpending⟩

/-- The pending classes do not go on: the body of the first one fails, or the others do not go on
after it. -/
theorem error_of_lowerPending {fuel : Nat}
    (hrun : (s.lowerPending (fuel + 1)).run d = .error e) :
  ∃ c n pending, d.pending = (c, n) :: pending
    ∧ ((s.lowerClass c n).run { d with pending } = .error e
      ∨ ∃ d₁, (s.lowerClass c n).run { d with pending } = .ok ((), d₁)
        ∧ (s.lowerPending fuel).run d₁ = .error e)
  := by
  rw [run_lowerPending_succ] at hrun
  rcases hd : d.pending with _ | ⟨⟨c, n⟩, pending⟩
  · rw [hd] at hrun
    cases hrun
  · rw [hd] at hrun
    refine ⟨c, n, pending, rfl, ?_⟩
    rcases bind_eq_error.mp hrun with hrun | ⟨⟨u, d₁⟩, hclass, hrun⟩
    · exact Or.inl hrun
    · exact Or.inr ⟨d₁, hclass, hrun⟩

end Source

end CaptureLR

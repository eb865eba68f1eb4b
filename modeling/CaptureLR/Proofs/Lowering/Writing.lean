import CaptureLR.Language.Reading
import CaptureLR.Lowering
import CaptureLR.Proofs.Grammar.Meaning

/-!
# What drafts say of patterns

In a draft, a pattern is written with the nonterminals that instances of combinators have there,
and the expansions of such a nonterminal say what its instance is. A nonterminal made for an
instance, for the loop of a repetition or for a class is new, so whatever is made later leaves the
expansions of all that was made before alone; this is how drafts are extended.
-/

namespace CaptureLR

/-! ### Written patterns -/

/-- Patterns one after the other are written as a sequence of symbols: literals as terminals, and
instances of combinators as their nonterminals. -/
inductive Language.Writes (l : Language) (instances : OrderedMap CombinatorId Nonterminal) :
    List Pattern → List Symbol → Prop
  | nil : Writes l instances [] []
  | literal {t : Terminal} {ps : List Pattern} {ss : List Symbol} (h : Writes l instances ps ss) :
      Writes l instances (.literal t :: ps) (.terminal t :: ss)
  | sequence {items ps : List Pattern} {ss ss' : List Symbol} (hi : Writes l instances items ss)
      (h : Writes l instances ps ss') :
      Writes l instances (.sequence items :: ps) (ss ++ ss')
  | dangling {id : CombinatorId} {ps : List Pattern} {ss : List Symbol}
      (hid : l.combinator? id = none) (h : Writes l instances ps ss) :
      Writes l instances (.combinator id :: ps) ss
  | combinator {id : CombinatorId} {n : Nonterminal} {ps : List Pattern} {ss : List Symbol}
      (hn : instances.get? id = some n) (h : Writes l instances ps ss) :
      Writes l instances (.combinator id :: ps) (.nonterminal n :: ss)

/-- What may follow the last element of a repetition is written as symbols, if something may. -/
inductive Language.WritesTrailing (l : Language) (instances : OrderedMap CombinatorId Nonterminal)
    (ds : List Symbol) : Trailing → Option (List Symbol) → Prop
  | forbidden : WritesTrailing l instances ds .forbidden none
  | delimiter : WritesTrailing l instances ds .delimiter (some ds)
  | pattern {p : Pattern} {ss : List Symbol} (h : l.Writes instances [p] ss) :
      WritesTrailing l instances ds (.pattern p) (some ss)

/-- The parts of a repetition are written as symbols. -/
structure Language.WritesParts (l : Language) (instances : OrderedMap CombinatorId Nonterminal)
    (r : Repetition) (es ds : List Symbol) (ts : Option (List Symbol)) : Prop where
  element : l.Writes instances [r.element] es
  delimiter : l.Writes instances [r.delimiter] ds
  trailing : l.WritesTrailing instances ds r.trailing ts

section Writes

variable {l : Language} {instances instances' : OrderedMap CombinatorId Nonterminal}
  {ps ps' : List Pattern} {ss ss' : List Symbol}

/-- What is written stays so when more instances have nonterminals. -/
theorem Language.Writes.mono (h : l.Writes instances ps ss)
    (hi : ∀ id n, instances.get? id = some n → instances'.get? id = some n) :
  l.Writes instances' ps ss
  := by
  induction h with
  | nil => exact .nil
  | literal _ ih => exact .literal ih
  | sequence _ _ ihi ih => exact .sequence ihi ih
  | dangling hid _ ih => exact .dangling hid ih
  | combinator hn _ ih => exact .combinator (hi _ _ hn) ih

theorem Language.Writes.append (h : l.Writes instances ps ss) (h' : l.Writes instances ps' ss') :
  l.Writes instances (ps ++ ps') (ss ++ ss')
  := by
  induction h with
  | nil => apply h'
  | literal _ ih => exact .literal ih
  | sequence hi _ _ ih =>
      rw [List.append_assoc]
      exact .sequence hi ih
  | dangling hid _ ih => exact .dangling hid ih
  | combinator hn _ ih => exact .combinator hn ih

theorem Language.WritesTrailing.mono {ds : List Symbol} {trailing : Trailing}
    {ts : Option (List Symbol)} (h : l.WritesTrailing instances ds trailing ts)
    (hi : ∀ id n, instances.get? id = some n → instances'.get? id = some n) :
  l.WritesTrailing instances' ds trailing ts
  := by
  cases h with
  | forbidden => exact .forbidden
  | delimiter => exact .delimiter
  | pattern h => exact .pattern (h.mono hi)

theorem Language.WritesParts.mono {r : Repetition} {es ds : List Symbol}
    {ts : Option (List Symbol)} (h : l.WritesParts instances r es ds ts)
    (hi : ∀ id n, instances.get? id = some n → instances'.get? id = some n) :
  l.WritesParts instances' r es ds ts
  where
  element := h.element.mono hi
  delimiter := h.delimiter.mono hi
  trailing := h.trailing.mono hi

end Writes

/-! ### Instances that are made -/

/-- The expansion of a repetition that may have no elements. -/
def Repetition.noElements (r : Repetition) : List (List Symbol) := if r.lower = 0 then [[]] else []

namespace Draft

/-- The number of nonterminals. -/
def size (d : Draft) : Nat := d.grammar.nonterminals.size

/-- A nonterminal is registered, has no number below some bound and is none of a class. -/
structure Own (d : Draft) (bound : Nat) (n : Nonterminal) : Prop where
  le : bound ≤ n.index
  lt : n.index < d.size
  apart : ∀ c, d.classes.get? c ≠ some n

/-- The expansions of a nonterminal say what an instance of a combinator is. -/
inductive Defines (l : Language) (d : Draft) (bound : Nat) (n : Nonterminal) : Shape → Prop
  | choice {branches : List Pattern} {es : List (List Symbol)}
      (hes : List.Forall₂ (fun p e => l.Writes d.instances [p] e) branches es)
      (h : d.grammar.expansionsOf n = es) :
      Defines l d bound n (.choice branches)
  | void {r : Repetition} (hr : r.isVoid = true) (h : d.grammar.expansionsOf n = []) :
      Defines l d bound n (.repetition r)
  | bounded {r : Repetition} {upper : Nat} {es ds : List Symbol} {ts : Option (List Symbol)}
      (hr : r.isVoid = false) (hu : r.upper = some upper)
      (hparts : l.WritesParts d.instances r es ds ts)
      (h : d.grammar.expansionsOf n
        = r.noElements ++ boundedExpansions es ds ts r.lower upper) :
      Defines l d bound n (.repetition r)
  | unbounded {r : Repetition} {loop : Nonterminal} {es ds : List Symbol}
      {ts : Option (List Symbol)} (hu : r.upper = none)
      (hparts : l.WritesParts d.instances r es ds ts)
      (h : d.grammar.expansionsOf n
        = r.noElements ++ [repeated es ds (max r.lower 1) ++ [.nonterminal loop]])
      (hown : d.Own bound loop)
      (hloop : d.grammar.expansionsOf loop = loopExpansions es ds ts loop) :
      Defines l d bound n (.repetition r)
  | toPattern {m : Match} {p : Pattern} {e : List Symbol} (hm : m.target = some (.pattern p))
      (he : l.Writes d.instances [p] e) (h : d.grammar.expansionsOf n = [e]) :
      Defines l d bound n (.capture m)
  | toClass {m : Match} {c : ClassId} {inner : Nonterminal}
      (hm : m.target = some (.nodeClass c)) (hc : d.classes.get? c = some inner)
      (h : d.grammar.expansionsOf n = [[.nonterminal inner]]) :
      Defines l d bound n (.capture m)

/-- A nonterminal of its own says what an instance of a combinator is. -/
structure Made (l : Language) (d : Draft) (bound : Nat) (id : CombinatorId) (n : Nonterminal) :
    Prop where
  own : d.Own bound n
  defined : ∃ c, l.combinator? id = some c ∧ d.Defines l bound n c.shape

/-- A draft retains what another one says by nonterminals of their own from a number on. -/
structure Retains (d d' : Draft) (bound : Nat) : Prop where
  own : ∀ n, d.Own bound n → d'.Own bound n
  expansions : ∀ n, d.Own bound n → d'.grammar.expansionsOf n = d.grammar.expansionsOf n
  instances : ∀ id n, d.instances.get? id = some n → d'.instances.get? id = some n
  classes : ∀ c n, d.classes.get? c = some n → d'.classes.get? c = some n

section Retains

variable {l : Language} {d d' d'' : Draft} {bound bound' : Nat} {n : Nonterminal}
  {id : CombinatorId}

theorem Retains.trans (h : d.Retains d' bound) (h' : d'.Retains d'' bound) :
  d.Retains d'' bound
  where
  own n hn := h'.own n (h.own n hn)
  expansions n hn := (h'.expansions n (h.own n hn)).trans (h.expansions n hn)
  instances id n hn := h'.instances id n (h.instances id n hn)
  classes c n hn := h'.classes c n (h.classes c n hn)

theorem Own.mono (h : d.Own bound n) (hle : bound' ≤ bound) :
  d.Own bound' n
  := ⟨Nat.le_trans hle h.le, h.lt, h.apart⟩

theorem Defines.retain {shape : Shape} (h : d.Defines l bound n shape)
    (hd : d.Retains d' bound) (hn : d.Own bound n) :
  d'.Defines l bound n shape
  := by
  have hexpansions := hd.expansions n hn
  cases h with
  | choice hes h =>
      apply Defines.choice _ (hexpansions.trans h)
      apply hes.imp
      intro p e he
      apply he.mono hd.instances
  | void hr h => exact .void hr (hexpansions.trans h)
  | bounded hr hu hparts h => exact .bounded hr hu (hparts.mono hd.instances) (hexpansions.trans h)
  | unbounded hu hparts h hown hloop =>
      exact .unbounded hu (hparts.mono hd.instances) (hexpansions.trans h) (hd.own _ hown)
        ((hd.expansions _ hown).trans hloop)
  | toPattern hm he h => exact .toPattern hm (he.mono hd.instances) (hexpansions.trans h)
  | toClass hm hc h => exact .toClass hm (hd.classes _ _ hc) (hexpansions.trans h)

theorem Defines.mono {shape : Shape} (h : d.Defines l bound n shape) (hle : bound' ≤ bound) :
  d.Defines l bound' n shape
  := by
  cases h with
  | choice hes h => exact .choice hes h
  | void hr h => exact .void hr h
  | bounded hr hu hparts h => exact .bounded hr hu hparts h
  | unbounded hu hparts h hown hloop => exact .unbounded hu hparts h (hown.mono hle) hloop
  | toPattern hm he h => exact .toPattern hm he h
  | toClass hm hc h => exact .toClass hm hc h

theorem Made.retain (h : d.Made l bound id n) (hd : d.Retains d' bound) :
  d'.Made l bound id n
  where
  own := hd.own n h.own
  defined := by
    obtain ⟨c, hc, hdef⟩ := h.defined
    exact ⟨c, hc, hdef.retain hd h.own⟩

theorem Made.mono (h : d.Made l bound id n) (hle : bound' ≤ bound) :
  d.Made l bound' id n
  where
  own := h.own.mono hle
  defined := by
    obtain ⟨c, hc, hdef⟩ := h.defined
    exact ⟨c, hc, hdef.mono hle⟩

end Retains

/-! ### Rules -/

/-- Two drafts agree in all but their grammars. -/
structure SameNames (d d' : Draft) : Prop where
  instances : d'.instances = d.instances
  classes : d'.classes = d.classes
  pending : d'.pending = d.pending

theorem SameNames.trans {d d' d'' : Draft} (h : SameNames d d') (h' : SameNames d' d'') :
  SameNames d d''
  := ⟨h'.instances.trans h.instances, h'.classes.trans h.classes, h'.pending.trans h.pending⟩

/-- What comes of a draft when a nonterminal gets more expansions. -/
structure Enlarges (d d' : Draft) (n : Nonterminal) (es : List (List Symbol)) : Prop where
  assembled : d'.grammar.Assembled
  listsAll : d'.grammar.ListsAll
  names : SameNames d d'
  size : d'.size = d.size
  self : d'.grammar.expansionsOf n = d.grammar.expansionsOf n ++ es
  others : ∀ m, m ≠ n → d'.grammar.expansionsOf m = d.grammar.expansionsOf m

/-- What comes of a draft when a nonterminal is registered. -/
structure Registers (d d' : Draft) (n : Nonterminal) : Prop where
  assembled : d'.grammar.Assembled
  listsAll : d'.grammar.ListsAll
  names : SameNames d d'
  size : d'.size = d.size + 1
  index : n.index = d.size
  expansions : ∀ m, d'.grammar.expansionsOf m = d.grammar.expansionsOf m
  self : d'.grammar.expansionsOf n = []

section Rules

variable {d d' d'' : Draft} {n : Nonterminal} {es es' : List (List Symbol)}

theorem Enlarges.refl (h : d.grammar.Assembled) (hall : d.grammar.ListsAll) (n : Nonterminal) :
  d.Enlarges d n []
  := ⟨h, hall, ⟨rfl, rfl, rfl⟩, rfl, (List.append_nil _).symm, fun _ _ => rfl⟩

theorem Enlarges.trans (h : d.Enlarges d' n es) (h' : d'.Enlarges d'' n es') :
  d.Enlarges d'' n (es ++ es')
  where
  assembled := h'.assembled
  listsAll := h'.listsAll
  names := h.names.trans h'.names
  size := h'.size.trans h.size
  self := by rw [h'.self, h.self, List.append_assoc]
  others m hm := (h'.others m hm).trans (h.others m hm)

theorem enlarges_addRule (h : d.grammar.Assembled) (hall : d.grammar.ListsAll)
    (hn : n.index < d.size) (e : List Symbol) :
  d.Enlarges (d.addRule n e) n [e]
  where
  assembled := h.addRule n e
  listsAll := by
    apply hall.addRule
    rw [Grammar.info?, Array.getElem?_eq_getElem hn, Option.isSome_some]
  names := ⟨rfl, rfl, rfl⟩
  size := Array.size_modify
  self := Grammar.expansionsOf_addRule_self h.listsRules hn e
  others _ hm := Grammar.expansionsOf_addRule_of_ne h.listsRules hm e

theorem enlarges_addRules (h : d.grammar.Assembled) (hall : d.grammar.ListsAll)
    (hn : n.index < d.size) (es : List (List Symbol)) :
  d.Enlarges (d.addRules n es) n es
  := by
  induction es generalizing d with
  | nil => apply Enlarges.refl h hall
  | cons e es ih =>
      have he := enlarges_addRule h hall hn e
      apply he.trans (ih he.assembled he.listsAll _)
      rw [he.size]
      apply hn

theorem registers_addNonterminal (h : d.grammar.Assembled) (hall : d.grammar.ListsAll)
    (name : String) (capture : Option Capture) :
  d.Registers (d.addNonterminal name capture).2 (d.addNonterminal name capture).1
  where
  assembled := h.addNonterminal name capture
  listsAll := hall.addNonterminal name capture
  names := ⟨rfl, rfl, rfl⟩
  size := Array.size_push _
  index := rfl
  expansions := Grammar.expansionsOf_addNonterminal d.grammar name capture
  self := by
    apply (Grammar.expansionsOf_addNonterminal d.grammar name capture _).trans
    apply Grammar.expansionsOf_nextNonterminal

end Rules

/-! ### Extensions -/

/-- All rules are listed, the nonterminals of classes are registered, and no two classes have the
same. -/
structure Tidy (d : Draft) : Prop where
  assembled : d.grammar.Assembled
  listsAll : d.grammar.ListsAll
  lt : ∀ c n, d.classes.get? c = some n → n.index < d.size
  apart : ∀ c c' n, d.classes.get? c = some n → d.classes.get? c' = some n → c = c'

/-- A draft extends another one: it keeps the nonterminals of instances and classes and the
expansions of all nonterminals, perhaps with one exception. Instances that got nonterminals are
made, and classes that got nonterminals are pending and without rules. -/
structure Extends (l : Language) (open? : Option Nonterminal) (d d' : Draft) : Prop where
  tidy : d'.Tidy
  below : ∀ n, open? = some n → n.index < d.size
  size : d.size ≤ d'.size
  instances : ∀ id n, d.instances.get? id = some n → d'.instances.get? id = some n
  classes : ∀ c n, d.classes.get? c = some n → d'.classes.get? c = some n
  expansions : ∀ n, n.index < d.size → open? ≠ some n →
    d'.grammar.expansionsOf n = d.grammar.expansionsOf n
  made : ∀ id n, d'.instances.get? id = some n →
    d.instances.get? id = some n ∨ d'.Made l d.size id n
  opened : ∀ c n, d'.classes.get? c = some n →
    d.classes.get? c = some n ∨ (d.size ≤ n.index ∧ d'.grammar.expansionsOf n = [])
  pending : ∃ new, d'.pending = d.pending ++ new ∧ new.Nodup
    ∧ ∀ c n, (c, n) ∈ new ↔ d'.classes.get? c = some n ∧ d.classes.get? c = none

namespace Extends

variable {l : Language} {open? : Option Nonterminal} {d d' d'' : Draft}

/-- Rules and nonterminals may be added without instances or classes. -/
theorem of_rules (h : d.Tidy) (hbelow : ∀ n, open? = some n → n.index < d.size)
    (ha : d'.grammar.Assembled) (hall : d'.grammar.ListsAll) (hsize : d.size ≤ d'.size)
    (hnames : d.SameNames d')
    (he : ∀ n, n.index < d.size → open? ≠ some n →
      d'.grammar.expansionsOf n = d.grammar.expansionsOf n) :
  Extends l open? d d'
  where
  tidy := by
    refine ⟨ha, hall, ?_, ?_⟩
    · intro c n hn
      rw [hnames.classes] at hn
      apply Nat.lt_of_lt_of_le (h.lt c n hn) hsize
    · rw [hnames.classes]
      apply h.apart
  below := hbelow
  size := hsize
  instances id n hn := by rw [hnames.instances, hn]
  classes c n hn := by rw [hnames.classes, hn]
  expansions := he
  made id n hn := by
    rw [hnames.instances] at hn
    exact Or.inl hn
  opened c n hn := by
    rw [hnames.classes] at hn
    exact Or.inl hn
  pending := by
    refine ⟨[], by rw [hnames.pending, List.append_nil], List.nodup_nil, ?_⟩
    intro c n
    constructor
    · intro h
      cases h
    · rintro ⟨hn, hnone⟩
      rw [hnames.classes, hnone] at hn
      cases hn

theorem refl (h : d.Tidy) (hbelow : ∀ n, open? = some n → n.index < d.size) :
  Extends l open? d d
  := of_rules h hbelow h.assembled h.listsAll (Nat.le_refl _) ⟨rfl, rfl, rfl⟩ (fun _ _ _ => rfl)

theorem of_enlarges (h : d.Tidy) {n : Nonterminal} (hn : n.index < d.size)
    {es : List (List Symbol)} (he : d.Enlarges d' n es) :
  Extends l (some n) d d'
  := by
  apply of_rules h _ he.assembled he.listsAll (Nat.le_of_eq he.size.symm) he.names
  · intro m _ hm
    apply he.others
    rintro rfl
    apply hm rfl
  · intro m hm
    cases hm
    apply hn

/-- What nonterminals of their own say is retained, unless rules are added to one of them. -/
theorem retains (h : Extends l open? d d') {bound : Nat}
    (hopen : ∀ n, open? = some n → ¬ d.Own bound n) :
  d.Retains d' bound
  where
  own n hn := by
    refine ⟨hn.le, Nat.lt_of_lt_of_le hn.lt h.size, ?_⟩
    intro c hc
    rcases h.opened c n hc with hc | ⟨hle, -⟩
    · apply hn.apart c hc
    · apply Nat.not_le_of_lt hn.lt hle
  expansions n hn := by
    apply h.expansions n hn.lt
    intro heq
    apply hopen n heq hn
  instances := h.instances
  classes := h.classes

theorem trans (h : Extends l open? d d') (h' : Extends l open? d' d'') :
  Extends l open? d d''
  where
  tidy := h'.tidy
  below := h.below
  size := Nat.le_trans h.size h'.size
  instances id n hn := h'.instances id n (h.instances id n hn)
  classes c n hn := h'.classes c n (h.classes c n hn)
  expansions n hn hopen :=
    (h'.expansions n (Nat.lt_of_lt_of_le hn h.size) hopen).trans (h.expansions n hn hopen)
  made id n hn := by
    rcases h'.made id n hn with hn | hmade
    · rcases h.made id n hn with hn | hmade
      · exact Or.inl hn
      · right
        apply hmade.retain (h'.retains _)
        intro m hm hown
        apply Nat.not_le_of_lt (h.below m hm) hown.le
    · exact Or.inr (hmade.mono h.size)
  opened c n hn := by
    rcases h'.opened c n hn with hn | ⟨hle, he⟩
    · rcases h.opened c n hn with hn' | ⟨hle, he⟩
      · exact Or.inl hn'
      · right
        use hle
        rw [← he]
        apply h'.expansions n (h.tidy.lt c n hn)
        intro heq
        apply Nat.not_le_of_lt (h.below n heq) hle
    · exact Or.inr ⟨Nat.le_trans h.size hle, he⟩
  pending := by
    obtain ⟨new, hp, hnodup, hmem⟩ := h.pending
    obtain ⟨new', hp', hnodup', hmem'⟩ := h'.pending
    refine ⟨new ++ new', by rw [hp', hp, List.append_assoc], ?_, ?_⟩
    · apply List.nodup_append.mpr
      refine ⟨hnodup, hnodup', ?_⟩
      rintro ⟨c, n⟩ hx _ hx' rfl
      have hn := ((hmem c n).mp hx).1
      rw [((hmem' c n).mp hx').2] at hn
      cases hn
    · intro c n
      rw [List.mem_append, hmem, hmem']
      constructor
      · rintro (⟨hn, hnone⟩ | ⟨hn, hnone⟩)
        · exact ⟨h'.classes c n hn, hnone⟩
        · use hn
          cases hc : d.classes.get? c with
          | none => rfl
          | some m =>
              rw [h.classes c m hc] at hnone
              cases hnone
      · rintro ⟨hn, hnone⟩
        cases hc : d'.classes.get? c with
        | none => exact Or.inr ⟨hn, rfl⟩
        | some m =>
            have hm := h'.classes c m hc
            rw [hn] at hm
            cases hm
            exact Or.inl ⟨rfl, hnone⟩

/-- Where nothing is excepted, something registered may be. -/
theorem weaken (h : Extends l none d d') (hopen : ∀ n, open? = some n → n.index < d.size) :
  Extends l open? d d'
  where
  tidy := h.tidy
  below := hopen
  size := h.size
  instances := h.instances
  classes := h.classes
  expansions n hn _ := h.expansions n hn nofun
  made := h.made
  opened := h.opened
  pending := h.pending

/-- An instance may be added if its nonterminal comes to say what it is. -/
theorem addInstance (h : d.Tidy) {id : CombinatorId} {name : String} {capture : Option Capture}
    {c : Combinator} (hc : l.combinator? id = some c) (hnone : d.instances.get? id = none)
    (h' : Extends l (some d.grammar.nextNonterminal) (d.addInstance id name capture).2 d')
    (hdef : d'.Defines l d.size d.grammar.nextNonterminal c.shape) :
  Extends l none d d'
  := by
  have hsize : (d.addInstance id name capture).2.size = d.size + 1 := Array.size_push _
  have hlt : d.size < d'.size := by
    have hle := h'.size
    rw [hsize] at hle
    apply hle
  have hinstances : ∀ id', (d.addInstance id name capture).2.instances.get? id'
      = if id' = id then some d.grammar.nextNonterminal else d.instances.get? id' :=
    fun id' => OrderedMap.get?_insert d.instances id id' _
  have hown : d'.Own d.size d.grammar.nextNonterminal := by
    refine ⟨Nat.le_refl _, hlt, ?_⟩
    intro c hc
    rcases h'.opened c _ hc with hc | ⟨hle, -⟩
    · apply Nat.lt_irrefl _ (h.lt c _ hc)
    · rw [hsize] at hle
      apply Nat.not_succ_le_self _ hle
  refine ⟨h'.tidy, nofun, Nat.le_of_lt hlt, ?_, h'.classes, ?_, ?_, ?_, h'.pending⟩
  · intro id' n hn
    apply h'.instances
    rw [hinstances]
    split
    · next heq =>
        rw [heq, hnone] at hn
        cases hn
    · apply hn
  · intro n hn _
    rw [h'.expansions n (by rw [hsize]; apply Nat.lt_succ_of_lt hn)]
    · apply Grammar.expansionsOf_addNonterminal
    · intro heq
      cases heq
      apply Nat.lt_irrefl _ hn
  · intro id' n hn
    rcases h'.made id' n hn with hn | hmade
    · rw [hinstances] at hn
      split at hn
      · next heq =>
          cases hn
          rw [heq]
          exact Or.inr ⟨hown, c, hc, hdef⟩
      · exact Or.inl hn
    · right
      apply hmade.mono
      rw [hsize]
      apply Nat.le_succ
  · intro c n hn
    rcases h'.opened c n hn with hn | ⟨hle, he⟩
    · exact Or.inl hn
    · rw [hsize] at hle
      exact Or.inr ⟨Nat.le_of_succ_le hle, he⟩

/-- A class may be given a nonterminal. -/
theorem classNonterminal (h : d.Tidy) (c : NodeClass) :
  Extends l none d (d.classNonterminal c).2
    ∧ (d.classNonterminal c).2.classes.get? c.id = some (d.classNonterminal c).1
  := by
  unfold Draft.classNonterminal
  cases hc : d.classes.get? c.id with
  | some n => exact ⟨refl h nofun, hc⟩
  | none =>
      have hsize : (d.addNonterminal c.name none).2.size = d.size + 1 := Array.size_push _
      have hclasses : ∀ c' n, (d.classes.insert c.id d.grammar.nextNonterminal).get? c' = some n →
          (c' = c.id ∧ n = d.grammar.nextNonterminal) ∨ d.classes.get? c' = some n := by
        intro c' n hn
        rw [OrderedMap.get?_insert] at hn
        split at hn
        · next heq =>
            cases hn
            exact Or.inl ⟨heq, rfl⟩
        · exact Or.inr hn
      have hself : (d.classes.insert c.id d.grammar.nextNonterminal).get? c.id
          = some d.grammar.nextNonterminal := by
        rw [OrderedMap.get?_insert, if_pos rfl]
      refine ⟨⟨⟨h.assembled.addNonterminal _ _, h.listsAll.addNonterminal _ _, ?_, ?_⟩, nofun, ?_,
        fun _ _ => id, ?_, ?_, ?_, ?_, ?_⟩, hself⟩
      · intro c' n hn
        change n.index < (d.addNonterminal c.name none).2.size
        rw [hsize]
        rcases hclasses c' n hn with ⟨-, rfl⟩ | hn
        · apply Nat.lt_succ_self
        · apply Nat.lt_succ_of_lt (h.lt c' n hn)
      · intro c₁ c₂ n h₁ h₂
        rcases hclasses c₁ n h₁ with ⟨rfl, rfl⟩ | h₁
        · rcases hclasses c₂ _ h₂ with ⟨rfl, -⟩ | h₂
          · rfl
          · cases Nat.lt_irrefl _ (h.lt c₂ _ h₂)
        · rcases hclasses c₂ n h₂ with ⟨rfl, rfl⟩ | h₂
          · cases Nat.lt_irrefl _ (h.lt c₁ _ h₁)
          · apply h.apart c₁ c₂ n h₁ h₂
      · change d.size ≤ (d.addNonterminal c.name none).2.size
        rw [hsize]
        apply Nat.le_succ
      · intro c' n hn
        change (d.classes.insert c.id d.grammar.nextNonterminal).get? c' = some n
        rw [OrderedMap.get?_insert, if_neg]
        · apply hn
        · rintro rfl
          rw [hc] at hn
          cases hn
      · intro n _ _
        apply Grammar.expansionsOf_addNonterminal
      · intro id n hn
        exact Or.inl hn
      · intro c' n hn
        rcases hclasses c' n hn with ⟨-, rfl⟩ | hn
        · right
          use Nat.le_refl _
          change (d.grammar.addNonterminal c.name none).expansionsOf _ = []
          rw [Grammar.expansionsOf_addNonterminal, Grammar.expansionsOf_nextNonterminal]
        · exact Or.inl hn
      · refine ⟨[(c.id, d.grammar.nextNonterminal)], rfl, List.pairwise_singleton _ _, ?_⟩
        intro c' n
        rw [List.mem_singleton, Prod.mk.injEq]
        constructor
        · rintro ⟨rfl, rfl⟩
          exact ⟨hself, hc⟩
        · rintro ⟨hn, hnone⟩
          rcases hclasses c' n hn with heq | hn
          · apply heq
          · rw [hnone] at hn
            cases hn

/-- The rules of a bounded repetition whose parts are written say what it is. -/
theorem bounded (h : d.Tidy) {n : Nonterminal} (hn : n.index < d.size)
    (hempty : d.grammar.expansionsOf n = []) {bound : Nat} {r : Repetition}
    (hr : r.isVoid = false) {upper : Nat} (hu : r.upper = some upper) {es ds : List Symbol}
    {ts : Option (List Symbol)} (hparts : l.WritesParts d.instances r es ds ts)
    (hall : d.Enlarges d' n (r.noElements ++ boundedExpansions es ds ts r.lower upper)) :
  Extends l (some n) d d' ∧ d'.Defines l bound n (.repetition r)
  := by
  use of_enlarges h hn hall
  apply Defines.bounded hr hu
  · rw [hall.names.instances]
    apply hparts
  · rw [hall.self, hempty, List.nil_append]

/-- The rules of an unbounded repetition whose parts are written, and those of its loop, say what
it is. -/
theorem unbounded (h : d.Tidy) {n : Nonterminal} (hn : n.index < d.size)
    (hempty : d.grammar.expansionsOf n = []) {bound : Nat} (hbound : bound ≤ d.size)
    {r : Repetition} (hu : r.upper = none) {es ds : List Symbol} {ts : Option (List Symbol)}
    (hparts : l.WritesParts d.instances r es ds ts) {d₁ d₂ d₃ : Draft} {loop : Nonterminal}
    (h₁ : d.Enlarges d₁ n r.noElements) (h₂ : d₁.Registers d₂ loop)
    (h₃ : d₂.Enlarges d₃ n [repeated es ds (max r.lower 1) ++ [.nonterminal loop]])
    (h₄ : d₃.Enlarges d' loop (loopExpansions es ds ts loop)) :
  Extends l (some n) d d' ∧ d'.Defines l bound n (.repetition r)
  := by
  have hnames := ((h₁.names.trans h₂.names).trans h₃.names).trans h₄.names
  have hloop : loop.index = d.size := h₂.index.trans h₁.size
  have hsize : d'.size = d.size + 1 := by rw [h₄.size, h₃.size, h₂.size, h₁.size]
  have hne : ∀ m, m.index < d.size → m ≠ loop := by
    rintro m hm rfl
    rw [hloop] at hm
    apply Nat.lt_irrefl _ hm
  constructor
  · apply of_rules h _ h₄.assembled h₄.listsAll _ hnames
    · intro m hm hopen
      have hm' : m ≠ n := by
        rintro rfl
        apply hopen rfl
      rw [h₄.others m (hne m hm), h₃.others m hm', h₂.expansions, h₁.others m hm']
    · intro m hm
      cases hm
      apply hn
    · rw [hsize]
      apply Nat.le_succ
  · apply @Defines.unbounded _ _ _ _ _ loop _ _ _ hu
    · rw [hnames.instances]
      apply hparts
    · rw [h₄.others n (hne n hn), h₃.self, h₂.expansions, h₁.self, hempty, List.nil_append]
    · refine ⟨by rw [hloop]; apply hbound, by rw [hsize, hloop]; apply Nat.lt_succ_self, ?_⟩
      intro c hc
      rw [hnames.classes] at hc
      apply hne loop (h.lt c loop hc) rfl
    · rw [h₄.self, h₃.others loop (hne n hn).symm, h₂.self, List.nil_append]

/-- The rules of a repetition whose parts are written say what it is. -/
theorem repetition (h : d.Tidy) {n : Nonterminal} (hn : n.index < d.size)
    (hempty : d.grammar.expansionsOf n = []) {bound : Nat} (hbound : bound ≤ d.size)
    {r : Repetition} (hr : r.isVoid = false) (name : String) {es ds : List Symbol}
    {ts : Option (List Symbol)} (hparts : l.WritesParts d.instances r es ds ts) :
  Extends l (some n) d (r.addRules name n es ds ts d)
    ∧ (r.addRules name n es ds ts d).Defines l bound n (.repetition r)
  := by
  have hzero : (if r.lower = 0 then d.addRule n [] else d) = d.addRules n r.noElements := by
    unfold Repetition.noElements
    split <;> rfl
  have h₁ := enlarges_addRules h.assembled h.listsAll hn r.noElements
  unfold Repetition.addRules
  rw [hzero]
  have hn₁ : n.index < (d.addRules n r.noElements).size := by
    rw [h₁.size]
    apply hn
  cases hu : r.upper with
  | some upper =>
      apply bounded h hn hempty hr hu hparts
      apply h₁.trans (enlarges_addRules h₁.assembled h₁.listsAll hn₁ _)
  | none =>
      dsimp only
      have h₂ := registers_addNonterminal h₁.assembled h₁.listsAll (name ++ "['innerLoop']") none
      generalize (d.addRules n r.noElements).addNonterminal (name ++ "['innerLoop']") none = p at h₂
      obtain ⟨loop, d₂⟩ := p
      have hn₂ : n.index < d₂.size := by
        rw [h₂.size]
        apply Nat.lt_succ_of_lt hn₁
      have h₃ := enlarges_addRule h₂.assembled h₂.listsAll hn₂
        (repeated es ds (max r.lower 1) ++ [.nonterminal loop])
      apply unbounded h hn hempty hbound hu hparts h₁ h₂ h₃
      apply enlarges_addRules h₃.assembled h₃.listsAll
      rw [h₃.size, h₂.size, h₂.index]
      apply Nat.lt_succ_self

end Extends

end Draft

end CaptureLR

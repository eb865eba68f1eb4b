import CaptureLR.Proofs.Lowering.Owners
import CaptureLR.Proofs.Lowering.Renaming
import CaptureLR.Proofs.Parse.Arrays
import CaptureLR.Proofs.Parse.Persistence

/-!
# Parsers of renamed languages

The stored table of a parser names classes, so it does not depend on how classes and instances are
numbered: a parser is generated for a language exactly if one is for the language with its classes
and instances renamed, and both store the same table.
-/

namespace CaptureLR

variable {ρ : Renaming} {l l' : Language} {root : ClassId} {config config' : ParserConfig}

/-! ### Stored tables -/

/-- Classes have the same names under their other numbers. -/
theorem CaptureKind.toRecord_rename {classes classes' : ClassTable} (h : classes.IsRenamed ρ classes')
    {kind : CaptureKind} {r : KindRecord} (hr : kind.toRecord classes = .ok r) :
  (kind.rename ρ).toRecord classes' = .ok r
  := by
  cases kind with
  | node c =>
      rw [rename, toRecord, h.get?]
      rw [toRecord] at hr
      cases hn : classes.get? c with
      | none =>
          rw [hn] at hr
          cases hr
      | some n =>
          rw [hn] at hr
          apply hr
  | token => apply hr
  | span => apply hr

namespace Reduction

/-- The reduction with the class of its capture under its other number. -/
def rename (ρ : Renaming) (r : Reduction) : Reduction :=
  { r with capture := r.capture.map (Capture.rename ρ) }

theorem toRecord_rename {classes classes' : ClassTable} (h : classes.IsRenamed ρ classes')
    {r : Reduction} {record : ReductionRecord} (hr : r.toRecord classes = .ok record) :
  (r.rename ρ).toRecord classes' = .ok record
  := by
  obtain ⟨popCount, into, capture⟩ := r
  cases capture with
  | none => apply hr
  | some c =>
      simp only [toRecord] at hr
      cases hkind : c.kind.toRecord classes with
      | error e =>
          simp only [hkind] at hr
          cases hr
      | ok kind =>
          simp only [hkind] at hr
          have hkind' : (c.rename ρ).kind.toRecord classes' = .ok kind :=
            CaptureKind.toRecord_rename h hkind
          simp only [rename, toRecord, Option.map_some, hkind']
          apply hr

end Reduction

namespace Table

/-- The reductions are listed in the order of the rules. -/
theorem toList_reductionsOf (g : Grammar) :
  (reductionsOf g).toList
    = g.rules.toList.mapIdx (fun i r => (i, ⟨r.expansion.length, r.head, g.capture? r.head⟩))
  := by
  apply NumberedMap.toList_ofList
  rw [List.pairwise_iff_getElem]
  intro i j hi hj hij
  simpa using hij

/-- If captures are replaced in a grammar, they are in the reductions. -/
theorem toList_reductionsOf_recapture (g : Grammar) :
  (reductionsOf (g.recapture (Capture.rename ρ))).toList
    = (reductionsOf g).toList.map (Prod.map id (Reduction.rename ρ))
  := by
  rw [toList_reductionsOf, toList_reductionsOf]
  change g.rules.toList.mapIdx _ = _
  apply List.ext_getElem?
  intro i
  rw [List.getElem?_map, List.getElem?_mapIdx, List.getElem?_mapIdx, Option.map_map]
  simp only [Grammar.capture?_recapture]
  rfl

/-- The tables of automata that capture the same are stored in the same way. -/
theorem toRecord_recapture {classes classes' : ClassTable} (h : classes.IsRenamed ρ classes')
    {a : Automaton} {record : TableRecord} (hr : (ofAutomaton a).toRecord classes = .ok record) :
  (ofAutomaton (a.recapture (Capture.rename ρ))).toRecord classes' = .ok record
  := by
  rw [toRecord] at hr
  cases hred : (ofAutomaton a).reductions.mapExcept (Reduction.toRecord classes) with
  | error e =>
      rw [hred] at hr
      cases hr
  | ok reductions =>
      rw [hred] at hr
      have hred' : (ofAutomaton (a.recapture (Capture.rename ρ))).reductions.mapExcept
          (Reduction.toRecord classes') = .ok reductions := by
        rw [NumberedMap.mapExcept_eq_ok_iff] at hred ⊢
        change List.Forall₂ _ (reductionsOf (a.grammar.recapture (Capture.rename ρ))).toList _
        rw [toList_reductionsOf_recapture, List.forall₂_map_left_iff]
        apply hred.imp
        rintro e e' ⟨hk, he⟩
        exact ⟨hk, Reduction.toRecord_rename h he⟩
      rw [toRecord, hred']
      apply hr

end Table

/-! ### Generated parsers -/

/-- Outcomes are alike if they come from such outcomes by such steps. -/
theorem Alike.bind {ε α β γ δ : Type} {R : α → β → Prop} {S : γ → δ → Prop} {x : Except ε α}
    {y : Except ε β} {f : α → Except ε γ} {g : β → Except ε δ} (h : Alike R x y)
    (hfg : ∀ a b, x = .ok a → y = .ok b → R a b → Alike S (f a) (g b)) :
  Alike S (x >>= f) (y >>= g)
  := by
  cases h with
  | error e e' => apply Alike.error
  | ok h => apply hfg _ _ rfl rfl h

/-- The grammars of collected languages that are renamed are alike. -/
theorem Source.alike_grammar (h : l.IsRenamed ρ l') {classes classes' : ClassTable}
    (hc : ClassTable.collect l root = .ok classes)
    (hc' : ClassTable.collect l' (ρ.onClass root) = .ok classes')
    (hclasses : classes.IsRenamed ρ classes') :
  Alike (fun lg lg' => lg'.startRule = lg.startRule
      ∧ lg'.grammar = lg.grammar.recapture (Capture.rename ρ))
    (Source.grammar ⟨l, classes⟩ root) (Source.grammar ⟨l', classes'⟩ (ρ.onClass root))
  := by
  have hrenamed : Source.IsRenamed ρ ⟨l, classes⟩ ⟨l', classes'⟩ := ⟨h, hclasses⟩
  rcases hrenamed.grammar root with heq | heq | halike
  · rcases (blames_of_grammar (isCollected_of_collect hc) heq).kind with ⟨_, _, he⟩ | ⟨_, he⟩
    · cases he
    · cases he
  · rcases (blames_of_grammar (isCollected_of_collect hc') heq).kind with ⟨_, _, he⟩ | ⟨_, he⟩
    · cases he
    · cases he
  · apply halike

namespace Parser

/-- How a parser is generated. -/
theorem build_eq (hconfig : config.table = none) :
  (build l root config).2
    = (do
      let classes ← ClassTable.collect l root
      let lg ← Source.grammar ⟨l, classes⟩ root
      let a ← Automaton.build lg.grammar lg.startRule
      return ⟨root, classes, .ofAutomaton a, config.tokenizer.getD .characters, true⟩)
  := by
  unfold build makeTable Source.automaton
  cases ClassTable.collect l root with
  | error e => rfl
  | ok classes =>
      simp only [hconfig, bind, Except.bind]
      cases Source.grammar ⟨l, classes⟩ root with
      | error e => rfl
      | ok lg =>
          simp only [Automaton.build]
          cases (Automaton.construct lg.grammar lg.startRule).result with
          | error e => rfl
          | ok a => rfl

/-- Parsers that were generated for languages that differ by a renaming. -/
structure IsRenamed (ρ : Renaming) (p p' : Parser) : Prop where
  root : p'.root = ρ.onClass p.root
  classes : p.classes.IsRenamed ρ p'.classes
  table : ∃ a, p.table = .ofAutomaton a
    ∧ p'.table = .ofAutomaton (a.recapture (Capture.rename ρ))
  generated : p.generated = true
  generated' : p'.generated = true

/-- Parsers are generated alike for renamed languages. -/
theorem alike_build (h : l.IsRenamed ρ l') (hconfig : config.table = none)
    (hconfig' : config'.table = none) :
  Alike (IsRenamed ρ) (build l root config).2 (build l' (ρ.onClass root) config').2
  := by
  rw [build_eq hconfig, build_eq hconfig']
  apply (ClassTable.alike_collect h root).bind
  intro classes classes' hc hc' hclasses
  apply (Source.alike_grammar h hc hc' hclasses).bind
  rintro lg lg' - - ⟨hstart, hgrammar⟩
  rw [hstart, hgrammar, Automaton.build_recapture]
  cases Automaton.build lg.grammar lg.startRule with
  | error e => apply Alike.error
  | ok a => exact .ok ⟨rfl, hclasses, ⟨a, rfl, rfl⟩, rfl, rfl⟩

/-- A parser is generated for a language exactly if one is for the language with its classes and
instances renamed, and both store the same table. -/
theorem record_eq_of_isRenamed (h : l.IsRenamed ρ l') (hconfig : config.table = none)
    (hconfig' : config'.table = none) :
  ((∃ p, (build l root config).2 = .ok p)
      ↔ ∃ p', (build l' (ρ.onClass root) config').2 = .ok p')
    ∧ ∀ p p', (build l root config).2 = .ok p → (build l' (ρ.onClass root) config').2 = .ok p' →
      ∃ record, p.record = .ok record ∧ p'.record = .ok record
  := by
  have halike : Alike (IsRenamed ρ) (build l root config).2 (build l' (ρ.onClass root) config').2 :=
    alike_build h hconfig hconfig'
  constructor
  · generalize (build l root config).2 = x, (build l' (ρ.onClass root) config').2 = x' at halike
    cases halike with
    | error e e' => exact ⟨nofun, nofun⟩
    | @ok p p' hp => exact ⟨fun _ => ⟨p', rfl⟩, fun _ => ⟨p, rfl⟩⟩
  · intro p p' hp hp'
    rw [hp, hp'] at halike
    cases halike with
    | ok hrenamed =>
        obtain ⟨record, hrecord, hstored, -⟩ := exists_record hp hrenamed.generated
        obtain ⟨a, ha, ha'⟩ := hrenamed.table
        refine ⟨record, hrecord, ?_⟩
        rw [ha] at hstored
        rw [Parser.record, if_pos hrenamed.generated', ha']
        apply Table.toRecord_recapture hrenamed.classes hstored

end Parser

/-! ### A whole and its part, the other way around -/

/-- The part is declared before the whole, and the first combinator is the last one. -/
def Language.swapped (isArray : Bool) : Language where
  classes := #[⟨"Part", false, some (.combinator ⟨0⟩)⟩,
    ⟨"Whole", false, some (.sequence [.combinator ⟨2⟩, .combinator ⟨1⟩])⟩]
  combinators := #[⟨none, .capture ⟨some "x", isArray, some (.pattern (.literal "b"))⟩⟩,
    ⟨none, .capture ⟨none, false, some (.nodeClass ⟨0⟩)⟩⟩,
    ⟨none, .capture ⟨some "x", true, some (.pattern (.literal "a"))⟩⟩]

/-- The numbers of the two classes are exchanged, and so are those of the first and the last
combinator. -/
def Renaming.swapped : Renaming where
  onClass c := ⟨Equiv.swap 0 1 c.index⟩
  onInstance id := ⟨Equiv.swap 0 2 id.index⟩
  onClass_injective := by
    rintro ⟨i⟩ ⟨j⟩ h
    exact congrArg ClassId.mk ((Equiv.swap 0 1).injective (ClassId.mk.inj h))
  onInstance_injective := by
    rintro ⟨i⟩ ⟨j⟩ h
    exact congrArg CombinatorId.mk ((Equiv.swap 0 2).injective (CombinatorId.mk.inj h))

theorem Language.isRenamed_swapped (isArray : Bool) :
  (Language.parted isArray).IsRenamed .swapped (.swapped isArray)
  := by
  constructor
  · rintro ⟨_ | _ | i⟩
    · rfl
    · rfl
    · have hi : (Renaming.swapped.onClass ⟨i + 2⟩).index = i + 2 :=
        Equiv.swap_apply_of_ne_of_ne nofun nofun
      rw [hi, Array.getElem?_eq_none (Nat.le_add_left 2 i), Array.getElem?_eq_none
        (Nat.le_add_left 2 i)]
      rfl
  · rintro ⟨_ | _ | _ | i⟩
    · rfl
    · rfl
    · rfl
    · have hi : (Renaming.swapped.onInstance ⟨i + 3⟩).index = i + 3 :=
        Equiv.swap_apply_of_ne_of_ne nofun nofun
      rw [combinator?, combinator?, hi, Array.getElem?_eq_none (Nat.le_add_left 3 i),
        Array.getElem?_eq_none (Nat.le_add_left 3 i)]
      rfl

/-- The theorem for the whole and its part. -/
theorem Parser.record_eq_of_isRenamed_parted :
  (Language.parted true).IsRenamed .swapped (.swapped true)
    ∧ (Parser.build (.parted true) ⟨0⟩ {}).2 = .ok (.parted true)
    ∧ ∃ p', (Parser.build (.swapped true) ⟨1⟩ {}).2 = .ok p'
      ∧ ∃ record, (Parser.parted true).record = .ok record ∧ p'.record = .ok record
  := by
  have h := Language.isRenamed_swapped true
  obtain ⟨hiff, hrecord⟩ := @Parser.record_eq_of_isRenamed _ _ _ ⟨0⟩ {} {} h rfl rfl
  obtain ⟨p', hp'⟩ := hiff.mp ⟨_, Parser.build_parted true⟩
  exact ⟨h, Parser.build_parted true, p', hp', hrecord _ p' (Parser.build_parted true) hp'⟩

end CaptureLR

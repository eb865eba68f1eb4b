import CaptureLR.Proofs.Grammar.Assembled
import CaptureLR.Report
import Mathlib.Logic.Function.Basic

/-!
# Captures have no say in an automaton

Rules and first sets decide over the automaton of a grammar. If captures are replaced by others, the
first sets and the states are the same, and the construction stops, if it does, for the same reason.
-/

namespace CaptureLR

/-- A nonterminal with another capture. -/
def NonterminalInfo.recapture (f : Capture → Capture) (i : NonterminalInfo) : NonterminalInfo :=
  { i with capture := i.capture.map f }

namespace Grammar

/-- The grammar with its captures replaced. -/
def recapture (f : Capture → Capture) (g : Grammar) : Grammar :=
  { g with nonterminals := g.nonterminals.map (NonterminalInfo.recapture f) }

variable {f : Capture → Capture} {g : Grammar}

/-! ### What is known of nonterminals -/

theorem info?_recapture (n : Nonterminal) :
  (g.recapture f).info? n = (g.info? n).map (NonterminalInfo.recapture f)
  := by
  rw [info?, recapture, Array.getElem?_map, info?]

theorem capture?_recapture (n : Nonterminal) :
  (g.recapture f).capture? n = (g.capture? n).map f
  := by
  rw [capture?, info?_recapture, capture?]
  cases g.info? n with
  | none => rfl
  | some i => rfl

theorem rulesFor_recapture :
  (g.recapture f).rulesFor = g.rulesFor
  := by
  funext n
  rw [rulesFor, info?_recapture, rulesFor]
  cases g.info? n with
  | none => rfl
  | some i => rfl

theorem name_recapture :
  (g.recapture f).name = g.name
  := by
  funext n
  rw [name, info?_recapture, name]
  cases g.info? n with
  | none => rfl
  | some i => rfl

theorem first?_recapture :
  (g.recapture f).first? = g.first?
  := by
  funext n
  rw [first?, info?_recapture, first?, Option.map_map]
  rfl

theorem firstOf_recapture :
  (g.recapture f).firstOf = g.firstOf
  := by
  funext follow ss
  induction ss with
  | nil => rfl
  | cons s ss ih =>
      cases s with
      | terminal t => rfl
      | nonterminal n => rw [firstOf, firstOf, first?_recapture, ih]

theorem nextNonterminal_recapture :
  (g.recapture f).nextNonterminal = g.nextNonterminal
  := by
  rw [nextNonterminal, recapture, Array.size_map, nextNonterminal]

/-! ### Making a grammar -/

theorem addNonterminal_recapture (name : String) (capture : Option Capture) :
  (g.recapture f).addNonterminal name (capture.map f) = (g.addNonterminal name capture).recapture f
  := by
  simp only [addNonterminal, recapture, Array.map_push]
  rfl

/-- Changing what is known of a nonterminal, but for its capture, goes together with replacing
captures. -/
theorem modify_recapture {c : NonterminalInfo → NonterminalInfo}
    (hc : ∀ i, c (i.recapture f) = (c i).recapture f) (j : Nat) (is : Array NonterminalInfo) :
  (is.map (NonterminalInfo.recapture f)).modify j c
    = (is.modify j c).map (NonterminalInfo.recapture f)
  := by
  apply Array.ext_getElem?
  intro i
  rw [Array.getElem?_modify, Array.getElem?_map, Array.getElem?_map, Array.getElem?_modify]
  split
  · rw [Option.map_map, Option.map_map]
    apply congrArg (Option.map · _)
    funext i
    apply hc
  · rfl

theorem addRule_recapture (head : Nonterminal) (e : List Symbol) :
  (g.recapture f).addRule head e = (g.addRule head e).recapture f
  := by
  simp only [addRule, recapture]
  rw [modify_recapture]
  intro i
  rfl

/-! ### First sets -/

theorem enlargeFirst_recapture (n : Nonterminal) (c : Context) :
  (g.recapture f).enlargeFirst n c = (g.enlargeFirst n c).recapture f
  := by
  simp only [enlargeFirst, recapture]
  rw [modify_recapture]
  intro i
  rfl

theorem firstPass_recapture :
  (g.recapture f).firstPass = g.firstPass.recapture f
  := by
  rw [firstPass_eq, firstPass_eq]
  change g.rules.toList.foldl _ (g.recapture f) = _
  generalize g.rules.toList = rs
  induction rs generalizing g with
  | nil => rfl
  | cons r rs ih => rw [List.foldl_cons, firstOf_recapture, enlargeFirst_recapture, ih, List.foldl_cons]

theorem recapture_injective (hf : Function.Injective f) :
  Function.Injective (recapture f)
  := by
  have hinfo : Function.Injective (NonterminalInfo.recapture f) := by
    rintro ⟨name, capture, rules, first⟩ ⟨name', capture', rules', first'⟩ h
    simp only [NonterminalInfo.recapture, NonterminalInfo.mk.injEq] at h ⊢
    exact ⟨h.1, Option.map_injective hf h.2.1, h.2.2⟩
  rintro ⟨rules, is⟩ ⟨rules', is'⟩ h
  simp only [recapture, Grammar.mk.injEq] at h ⊢
  use h.1
  have hlist := congrArg Array.toList h.2
  rw [Array.toList_map, Array.toList_map] at hlist
  apply Array.toList_inj.mp (hinfo.list_map hlist)

theorem firstPasses_recapture (hf : Function.Injective f) (n : Nat) (g : Grammar) :
  firstPasses n (g.recapture f) = (firstPasses n g).recapture f
  := by
  induction n generalizing g with
  | zero => rfl
  | succ n ih =>
      rw [firstPasses_succ, firstPasses_succ, firstPass_recapture, ih]
      by_cases h : g.firstPass = g
      · rw [if_pos h, if_pos (congrArg (recapture f) h)]
      · rw [if_neg h, if_neg (fun heq => h (recapture_injective hf heq))]

theorem firstCount_recapture :
  (g.recapture f).firstCount = g.firstCount
  := by
  rw [firstCount, recapture, Array.toList_map, List.foldr_map]
  rfl

/-- First sets are the same whatever is captured. -/
theorem computeFirst_recapture (hf : Function.Injective f) :
  (g.recapture f).computeFirst = g.computeFirst.recapture f
  := by
  have hbound : (g.recapture f).firstBound = g.firstBound := by
    rw [firstBound, firstCount_recapture, firstBound]
    change (g.nonterminals.map _).size * _ + 1 = _
    rw [Array.size_map]
    rfl
  rw [computeFirst, hbound, firstPasses_recapture hf, computeFirst]

/-! ### Closures -/

theorem expandItem_recapture :
  (g.recapture f).expandItem = g.expandItem
  := by
  funext item items
  unfold expandItem
  simp only [Item.followAt, firstOf_recapture, rulesFor_recapture]
  rfl

theorem closurePass_recapture :
  (g.recapture f).closurePass = g.closurePass
  := by
  have hscan : ∀ fuel i items, (g.recapture f).scanItems fuel i items = g.scanItems fuel i items := by
    intro fuel
    induction fuel with
    | zero => exact fun _ _ => rfl
    | succ fuel ih =>
        intro i items
        rw [scanItems, scanItems, expandItem_recapture]
        simp only [ih]
  funext items
  apply hscan

theorem closure_recapture :
  (g.recapture f).closure = g.closure
  := by
  have hpasses : ∀ n items, (g.recapture f).closurePasses n items = g.closurePasses n items := by
    intro n
    induction n with
    | zero => exact fun _ => rfl
    | succ n ih =>
        intro items
        rw [closurePasses, closurePasses, closurePass_recapture]
        simp only [ih]
  funext items
  rw [closure, hpasses, closureBound, firstCount_recapture, closure]
  rfl

/-! ### Constructions -/

theorem constructionBound_recapture :
  (g.recapture f).constructionBound = g.constructionBound
  := by
  have hlookaheads : (g.recapture f).lookaheads = g.lookaheads := by
    rw [lookaheads, recapture, Array.toList_map, List.flatMap_map]
    rfl
  rw [constructionBound, hlookaheads, constructionBound]
  rfl

/-! ### Messages -/

theorem describe_recapture :
  (g.recapture f).describe = g.describe
  := by
  funext c
  cases c with
  | nonterminal n => rw [describe, name_recapture, describe]
  | _ => rfl

theorem describeRule_recapture (rule : Nat) :
  (g.recapture f).describeRule rule = g.describeRule rule
  := by
  have hsymbols : ∀ dot ss, (g.recapture f).describeSymbols dot ss = g.describeSymbols dot ss := by
    intro dot ss
    induction ss generalizing dot with
    | nil => rcases dot with _ | _ | d <;> rfl
    | cons s ss ih =>
        rcases dot with _ | _ | d <;> rw [describeSymbols, describe_recapture, ih, describeSymbols]
  rw [describeRule, name_recapture, describeExpansion, hsymbols, describeRule, describeExpansion]
  rfl

end Grammar

open Grammar

section Recaptured

variable {f : Capture → Capture} {g : Grammar}

theorem Builder.expand_recapture :
  Builder.expand (g.recapture f) = Builder.expand g
  := by
  funext startRule b state
  unfold expand
  simp only [State.closure, closure_recapture]
  rfl

theorem Builder.run_recapture (startRule fuel : Nat) (b : Builder) :
  Builder.run (g.recapture f) startRule fuel b = Builder.run g startRule fuel b
  := by
  induction fuel generalizing b with
  | zero => rfl
  | succ fuel ih =>
      rw [run, run, expand_recapture]
      simp only [ih]

/-- The automaton with its captures replaced. -/
def Automaton.recapture (f : Capture → Capture) (a : Automaton) : Automaton :=
  { a with grammar := a.grammar.recapture f }

theorem Automaton.construct_recapture (startRule : Nat) :
  construct (g.recapture f) startRule
    = { construct g startRule with automaton := (construct g startRule).automaton.recapture f }
  := by
  simp only [construct, constructionBound_recapture, Builder.run_recapture]
  split <;> rfl

theorem ConflictAction.describe_recapture (a : ConflictAction) :
  a.describe (g.recapture f) = a.describe g
  := by
  unfold ConflictAction.describe
  simp only [describeRule_recapture]

theorem Construction.result_recapture (c : Construction) :
  result { c with automaton := c.automaton.recapture f } = c.result.map (Automaton.recapture f)
  := by
  obtain ⟨created, a, halt⟩ := c
  rcases halt with _ | _ | conflict
  · rfl
  · rfl
  · simp only [result, Automaton.recapture, describe_recapture, ConflictAction.describe_recapture]
    rfl

/-- An automaton is built with the same states whatever is captured, or fails in the same way. -/
theorem Automaton.build_recapture (startRule : Nat) :
  build (g.recapture f) startRule = (build g startRule).map (recapture f)
  := by
  rw [build, construct_recapture, Construction.result_recapture, build]

end Recaptured

end CaptureLR

import CaptureLR.Proofs.Automaton.Canonical
import CaptureLR.Proofs.Lowering.Draft

/-!
# Lookaheads of canonical states

If every nonterminal generates something, every core of a canonical state expects something,
and a rule expects all that can begin what comes behind its head. If the root stands in the start
rule alone, only the end of the input is expected behind the root, and nothing is left to do there.
-/

namespace CaptureLR

variable {g : Grammar} {startRule : Nat} {path : List Symbol} {c : Core} {l l' : Lookahead}
  {n : Nonterminal} {r : Nat}

/-! ### Productive grammars -/

/-- Every registered nonterminal generates something. -/
def Grammar.IsProductive (g : Grammar) : Prop := ∀ n, (g.info? n).isSome → g.Productive n

/-- A grammar is productive if there are trees for all its nonterminals. -/
theorem Grammar.isProductive_of_deriveFrom (trees : List DerivationTree)
    (h : DerivationTree.DeriveFrom g
      ((List.range g.nonterminals.size).map (.nonterminal ⟨·⟩)) trees) :
  g.IsProductive
  := by
  intro n hn
  have hlt : n.index < g.nonterminals.size := by
    by_contra hle
    rw [info?, Array.getElem?_eq_none (Nat.le_of_not_lt hle)] at hn
    cases hn
  have hmem := List.mem_map_of_mem (f := (Symbol.nonterminal ⟨·⟩)) (List.mem_range.mpr hlt)
  obtain ⟨front, back, hsplit⟩ := List.append_of_mem hmem
  obtain ⟨w, -, hw⟩ := DerivationTree.generates_of_deriveFrom h
  rw [hsplit, List.append_cons] at hw
  obtain ⟨u, -, -, hu, -⟩ := generates_append_iff.mp hw
  obtain ⟨-, v, -, -, hv⟩ := generates_append_iff.mp hu
  exact ⟨v, hv⟩

theorem Grammar.IsProductive.exists_generates (h : g.IsProductive) {ss : List Symbol}
    (hss : ∀ n, .nonterminal n ∈ ss → (g.info? n).isSome) :
  ∃ w, g.Generates ss w
  := by
  induction ss with
  | nil => exact ⟨[], .nil⟩
  | cons s ss ih =>
      obtain ⟨w, hw⟩ := ih (fun n hn => hss n (List.mem_cons_of_mem _ hn))
      cases s with
      | terminal t => exact ⟨t :: w, .terminal hw⟩
      | nonterminal n =>
          obtain ⟨v, hv⟩ := h n (hss n List.mem_cons_self)
          use v ++ w
          apply hv.append hw

/-- What begins a sequence that is generated behind a nonterminal is expected by its rules. -/
theorem ExpectsInside.rule (hg : g.Assembled) (hrest : g.firstPass = g)
    (h : ExpectsInside g startRule path c l) (hn : c.symbol? g = some (.nonterminal n))
    (hr : r ∈ g.rulesFor n) {w : List Terminal}
    (hw : g.Generates ((g.expansion c.rule).drop (c.dot + 1)) w)
    (hl : l' ∈ Grammar.leads (.singleton l) w) :
  ExpectsInside g startRule path ⟨r, 0⟩ l'
  := by
  apply ExpectsInside.passed h hn hr
  apply Grammar.mem_firstOf_of_generates hg hrest hw _ hl

/-- Something comes first in a sequence and what follows it. -/
theorem Grammar.exists_mem_leads (l : Lookahead) (w : List Terminal) :
  ∃ l', l' ∈ leads (.singleton l) w
  := by
  cases w with
  | nil =>
      use l
      apply List.mem_singleton.mpr rfl
  | cons t w =>
      use .terminal t
      apply List.mem_singleton.mpr rfl

section Productive

variable (hg : g.Assembled) (hrest : g.firstPass = g)
  (hreg : ∀ r n, .nonterminal n ∈ g.expansion r → (g.info? n).isSome) (hp : g.IsProductive)

include hg hrest hreg hp

/-- The rules of a nonterminal behind the dot of a core that expects something expect something. -/
theorem ExpectsInside.exists_rule (h : ExpectsInside g startRule path c l)
    (hn : c.symbol? g = some (.nonterminal n)) (hr : r ∈ g.rulesFor n) :
  ∃ l', ExpectsInside g startRule path ⟨r, 0⟩ l'
  := by
  have hbehind : ∀ m, .nonterminal m ∈ (g.expansion c.rule).drop (c.dot + 1) →
      (g.info? m).isSome := by
    intro m hm
    apply hreg c.rule m (List.mem_of_mem_drop hm)
  obtain ⟨w, hw⟩ := hp.exists_generates hbehind
  obtain ⟨l', hl'⟩ := Grammar.exists_mem_leads l w
  use l'
  apply h.rule hg hrest hn hr hw hl'

/-- In a productive grammar, every core of a canonical kernel expects something. -/
theorem AtKernel.exists_expects (h : AtKernel g startRule path c) :
  ∃ l, Expects g startRule path c l
  := by
  induction path using List.reverseRecOn generalizing c with
  | nil =>
      obtain rfl := atKernel_nil.mp h
      use .endOfInput
      apply Expects.start
  | append_singleton path s ih =>
      obtain ⟨d, hd, hs, rfl⟩ := atKernel_concat.mp h
      have hinside : ∃ l, ExpectsInside g startRule path d l := by
        apply hd.closure_induction
        · intro c hc
          obtain ⟨l, hl⟩ := ih hc
          use l
          apply ExpectsInside.kernel hl
        · rintro c n r ⟨l, hl⟩ hn hr
          apply hl.exists_rule hg hrest hreg hp hn hr
      obtain ⟨l, hl⟩ := hinside
      use l
      apply Expects.advance hl hs

end Productive

/-! ### The root -/

namespace Grammar.Rooted

variable {root : Nonterminal}

theorem expansion_eq (h : g.Rooted startRule root) :
  g.expansion startRule = [.nonterminal root]
  := by
  rw [Grammar.expansion, h.rule]

/-- The dot stands before the root only at the beginning of the start rule. -/
theorem eq_of_symbol (h : g.Rooted startRule root) (hc : c.symbol? g = some (.nonterminal root)) :
  c = ⟨startRule, 0⟩
  := by
  obtain ⟨r, d⟩ := c
  simp only [Core.symbol?] at hc
  obtain rfl := h.only r (List.mem_of_getElem? hc)
  rw [h.expansion_eq] at hc
  cases d with
  | zero => rfl
  | succ d => cases hc

theorem symbol_ne_start (h : g.Rooted startRule root) :
  c.symbol? g ≠ some (.nonterminal .start)
  := by
  intro hc
  apply h.absent c.rule (List.mem_of_getElem? hc)

/-- The start rule is a rule of the start symbol. -/
theorem eq_start_of_mem (h : g.Rooted startRule root) (hg : g.Assembled)
    (hn : startRule ∈ g.rulesFor n) :
  n = .start
  := by
  obtain ⟨e, he⟩ := hg.exists_rule hn
  rw [h.rule] at he
  cases he
  rfl

/-- The start rule is complete only behind the root. -/
theorem eq_of_atKernel (h : g.Rooted startRule root) (hg : g.Assembled)
    (hk : AtKernel g startRule path ⟨startRule, 1⟩) :
  path = [.nonterminal root]
  := by
  obtain ⟨front, rfl, hf⟩ := (AtClosure.kernel hk).exists_front
  rw [h.expansion_eq]
  cases hf with
  | kernel hf =>
      obtain rfl := hf.eq_nil_of_dot
      rfl
  | rule _ hn hr =>
      obtain rfl := h.eq_start_of_mem hg hr
      cases h.symbol_ne_start hn

/-- Behind the root the start rule is complete. -/
theorem atKernel_root (h : g.Rooted startRule root) :
  AtKernel g startRule [.nonterminal root] ⟨startRule, 1⟩
  := by
  rw [← List.nil_append [Symbol.nonterminal root]]
  apply AtKernel.advance (.kernel .start)
  rw [Core.symbol?, h.expansion_eq]
  rfl

/-- Behind the root there is only the start rule, complete. -/
theorem eq_of_atClosure (h : g.Rooted startRule root)
    (hc : AtClosure g startRule [.nonterminal root] c) :
  c = ⟨startRule, 1⟩
  := by
  apply hc.closure_induction
  · intro c hc
    rw [← List.nil_append [Symbol.nonterminal root]] at hc
    obtain ⟨d, -, hd, rfl⟩ := atKernel_concat.mp hc
    rw [h.eq_of_symbol hd]
    rfl
  · rintro c n r rfl hn -
    rw [Core.symbol?, h.expansion_eq] at hn
    cases hn

/-- The start rule expects the end of the input. -/
theorem eq_endOfInput_of_startRule (h : g.Rooted startRule root) (hg : g.Assembled)
    (he : ExpectsInside g startRule path ⟨startRule, 0⟩ l) :
  l = .endOfInput
  := by
  generalize hc : (⟨startRule, 0⟩ : Core) = c at he
  cases he with
  | kernel he =>
      cases he with
      | start => rfl
      | advance => cases hc
  | first hc' hn hr =>
      cases hc
      obtain rfl := h.eq_start_of_mem hg hr
      cases h.symbol_ne_start hn
  | passed hc' hn hr =>
      cases hc
      obtain rfl := h.eq_start_of_mem hg hr
      cases h.symbol_ne_start hn

/-- The rules of the root expect the end of the input. -/
theorem eq_endOfInput (h : g.Rooted startRule root) (hg : g.Assembled) {d : Nat}
    (hr : r ∈ g.rulesFor root) (he : ExpectsInside g startRule path ⟨r, d⟩ l) :
  l = .endOfInput
  := by
  obtain ⟨front, -, hf⟩ := he.exists_front
  have hbehind : (g.expansion startRule).drop 1 = [] := by
    rw [h.expansion_eq]
    rfl
  have hroot : ∀ {n}, r ∈ g.rulesFor n → n = root := by
    intro n hn
    obtain ⟨e, he⟩ := hg.exists_rule hr
    obtain ⟨e', he'⟩ := hg.exists_rule hn
    rw [he] at he'
    cases he'
    rfl
  generalize hc : (⟨r, 0⟩ : Core) = c at hf
  cases hf with
  | kernel hf =>
      cases hf with
      | start =>
          cases hc
          apply h.eq_endOfInput_of_startRule hg (.kernel .start)
      | advance => cases hc
  | first hc' hn hr' hl =>
      cases hc
      obtain rfl := hroot hr'
      obtain rfl := h.eq_of_symbol hn
      rw [Item.followAt, hbehind] at hl
      cases hl
  | passed hc' hn hr' hl =>
      cases hc
      obtain rfl := hroot hr'
      obtain rfl := h.eq_of_symbol hn
      rw [Item.followAt, hbehind] at hl
      rw [List.mem_singleton.mp hl]
      apply h.eq_endOfInput_of_startRule hg hc'

end Grammar.Rooted

end CaptureLR

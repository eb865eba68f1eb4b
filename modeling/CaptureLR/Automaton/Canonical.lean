import CaptureLR.Automaton

/-!
# The canonical automaton

The states of the canonical automaton of a grammar are never merged, so there is one for every
sequence of symbols that leads somewhere from the initial state. Its kernel and its closure are
given by that sequence; `AtKernel` and `AtClosure` tell which cores are in them and `Expects` and
`ExpectsInside` which lookaheads a core has there.
-/

namespace CaptureLR

mutual

/-- A core of the kernel of the canonical state that a sequence of symbols leads to. -/
inductive AtKernel (g : Grammar) (startRule : Nat) : List Symbol → Core → Prop
  | start : AtKernel g startRule [] ⟨startRule, 0⟩
  | advance {path : List Symbol} {c : Core} {s : Symbol} (hc : AtClosure g startRule path c)
      (hs : c.symbol? g = some s) :
      AtKernel g startRule (path ++ [s]) c.advance

/-- A core of the closure of the canonical state that a sequence of symbols leads to. -/
inductive AtClosure (g : Grammar) (startRule : Nat) : List Symbol → Core → Prop
  | kernel {path : List Symbol} {c : Core} (hc : AtKernel g startRule path c) :
      AtClosure g startRule path c
  | rule {path : List Symbol} {c : Core} {n : Nonterminal} {r : Nat}
      (hc : AtClosure g startRule path c) (hn : c.symbol? g = some (.nonterminal n))
      (hr : r ∈ g.rulesFor n) :
      AtClosure g startRule path ⟨r, 0⟩

end

mutual

/-- A lookahead of a core in the kernel of the canonical state that a sequence of symbols leads
to. -/
inductive Expects (g : Grammar) (startRule : Nat) : List Symbol → Core → Lookahead → Prop
  | start : Expects g startRule [] ⟨startRule, 0⟩ .endOfInput
  | advance {path : List Symbol} {c : Core} {s : Symbol} {l : Lookahead}
      (hc : ExpectsInside g startRule path c l) (hs : c.symbol? g = some s) :
      Expects g startRule (path ++ [s]) c.advance l

/-- A lookahead of a core in the closure of the canonical state that a sequence of symbols leads
to. -/
inductive ExpectsInside (g : Grammar) (startRule : Nat) : List Symbol → Core → Lookahead → Prop
  | kernel {path : List Symbol} {c : Core} {l : Lookahead} (hc : Expects g startRule path c l) :
      ExpectsInside g startRule path c l
  | first {path : List Symbol} {c : Core} {n : Nonterminal} {r : Nat} {l : Lookahead}
      (hc : AtClosure g startRule path c) (hn : c.symbol? g = some (.nonterminal n))
      (hr : r ∈ g.rulesFor n) (hl : l ∈ Item.followAt g ⟨c, ∅⟩) :
      ExpectsInside g startRule path ⟨r, 0⟩ l
  | passed {path : List Symbol} {c : Core} {n : Nonterminal} {r : Nat} {l l' : Lookahead}
      (hc : ExpectsInside g startRule path c l) (hn : c.symbol? g = some (.nonterminal n))
      (hr : r ∈ g.rulesFor n) (hl : l' ∈ Item.followAt g ⟨c, .singleton l⟩) :
      ExpectsInside g startRule path ⟨r, 0⟩ l'

end

namespace Grammar

/-- Two cores compete for a place of a canonical state: one is complete and expects a lookahead
under which the other is complete too, or which the other has behind its dot. -/
inductive Clashes (g : Grammar) (startRule : Nat) (path : List Symbol) : Prop
  | reductions {c d : Core} {l : Lookahead} (hc : ExpectsInside g startRule path c l)
      (hd : ExpectsInside g startRule path d l) (hcs : c.symbol? g = none)
      (hds : d.symbol? g = none) (hne : c.rule ≠ d.rule) :
      Clashes g startRule path
  | shift {c d : Core} {t : Terminal} (hc : ExpectsInside g startRule path c (.terminal t))
      (hd : AtClosure g startRule path d) (hcs : c.symbol? g = none)
      (hds : d.symbol? g = some (.terminal t)) :
      Clashes g startRule path

/-- No canonical state has a conflict. -/
def IsCanonicallyClear (g : Grammar) (startRule : Nat) : Prop :=
  ∀ path, ¬ g.Clashes startRule path

end Grammar

/-! ### Steps of the construction -/

/-- The builders that a construction comes by. -/
inductive Builder.Reached (g : Grammar) (startRule : Nat) : Builder → Prop
  | initial : Builder.Reached g startRule
      (Builder.empty.insert startRule (kernelOf [⟨⟨startRule, 0⟩, endContext⟩]) []).1
  | step {b b' b'' : Builder} {state : Nat} (h : Builder.Reached g startRule b)
      (hp : b.pop = some (state, b')) (he : b'.expand g startRule state = .ok b'') :
      Builder.Reached g startRule b''

/-- A construction goes from one builder to another in a number of steps: each of them expands the
state that comes next and finds no conflict. -/
inductive Builder.Steps (g : Grammar) (startRule : Nat) : Nat → Builder → Builder → Prop
  | refl (b : Builder) : Builder.Steps g startRule 0 b b
  | step {n : Nat} {b b' b'' c : Builder} {state : Nat} (hp : b.pop = some (state, b'))
      (he : b'.expand g startRule state = .ok b'') (h : Builder.Steps g startRule n b'' c) :
      Builder.Steps g startRule (n + 1) b c

/-- The state that comes next has a conflict; the second builder has the actions that were found
before it. -/
def Builder.Fails (g : Grammar) (startRule : Nat) (b : Builder) (c : Conflict) (b' : Builder) :
    Prop :=
  ∃ state b₁, b.pop = some (state, b₁) ∧ b₁.expand g startRule state = .error (c, b')

end CaptureLR

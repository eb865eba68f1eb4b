import CaptureLR.Grammar
import CaptureLR.Token

/-!
# Derivations

What the rules of a grammar produce, in two readings: a sequence of symbols generates a sequence
of terminals, and a derivation tree records which rule was used where, with tokens for leaves. A
sequence of terminals is generated by a symbol exactly if it is the yield of a derivation tree of
the symbol.
-/

namespace CaptureLR

namespace Grammar

/-! ### Generated sequences of terminals -/

/-- A sequence of symbols generates a sequence of terminals: each terminal itself, and each
nonterminal what the expansion of one of its rules generates. -/
inductive Generates (g : Grammar) : List Symbol → List Terminal → Prop
  | nil : Generates g [] []
  | terminal {t : Terminal} {ss : List Symbol} {w : List Terminal} (h : Generates g ss w) :
      Generates g (.terminal t :: ss) (t :: w)
  | nonterminal {n : Nonterminal} {r : Nat} {ss : List Symbol} {u v : List Terminal}
      (hr : r ∈ g.rulesFor n) (hu : Generates g (g.expansion r) u) (hv : Generates g ss v) :
      Generates g (.nonterminal n :: ss) (u ++ v)

/-- A nonterminal generates some sequence of terminals. -/
def Productive (g : Grammar) (n : Nonterminal) : Prop := ∃ w, g.Generates [.nonterminal n] w

theorem Generates.append
    {g : Grammar} {ss ss' : List Symbol} {u v : List Terminal}
    (h : g.Generates ss u) (h' : g.Generates ss' v) :
  g.Generates (ss ++ ss') (u ++ v)
  := by
  induction h with
  | nil => apply h'
  | terminal _ ih => exact .terminal ih
  | nonterminal hr hu _ _ ih =>
      rw [List.append_assoc]
      exact .nonterminal hr hu ih

/-- What two sequences generate together falls into what each of them generates. -/
theorem generates_append_iff
    {g : Grammar} {ss ss' : List Symbol} {w : List Terminal} :
  g.Generates (ss ++ ss') w ↔ ∃ u v, w = u ++ v ∧ g.Generates ss u ∧ g.Generates ss' v
  := by
  constructor
  · intro h
    induction ss generalizing w with
    | nil => exact ⟨[], w, rfl, .nil, h⟩
    | cons s ss ih =>
        cases h with
        | terminal h =>
            obtain ⟨u, v, rfl, hu, hv⟩ := ih h
            exact ⟨_, v, rfl, .terminal hu, hv⟩
        | nonterminal hr hx h =>
            obtain ⟨u, v, rfl, hu, hv⟩ := ih h
            exact ⟨_, v, (List.append_assoc ..).symm, .nonterminal hr hx hu, hv⟩
  · rintro ⟨u, v, rfl, hu, hv⟩
    apply hu.append hv

end Grammar

/-! ### Derivation trees -/

/-- A derivation tree: a token, or a rule with trees for the symbols of its expansion. -/
inductive DerivationTree where
  | leaf (t : Token)
  | node (rule : Nat) (children : List DerivationTree)
deriving Inhabited

namespace DerivationTree

mutual

/-- The tokens at the leaves of a tree, from left to right. -/
def tokens : DerivationTree → List Token
  | leaf t => [t]
  | node _ children => tokensOf children

/-- The tokens at the leaves of several trees, from left to right. -/
def tokensOf : List DerivationTree → List Token
  | [] => []
  | c :: cs => c.tokens ++ tokensOf cs

end

theorem tokensOf_append
    (cs ds : List DerivationTree) :
  tokensOf (cs ++ ds) = tokensOf cs ++ tokensOf ds
  := by
  induction cs with
  | nil => rfl
  | cons c cs ih => rw [List.cons_append, tokensOf, tokensOf, ih, List.append_assoc]

mutual

/-- A tree derives from a symbol: a token from the terminal that is its kind, and a rule of a
nonterminal from this if its trees derive from the symbols of the expansion. -/
def DerivesFrom (g : Grammar) : Symbol → DerivationTree → Prop
  | .terminal k, leaf t => t.kind = some k
  | .nonterminal n, node r children => r ∈ g.rulesFor n ∧ DeriveFrom g (g.expansion r) children
  | _, _ => False

/-- Trees derive from a sequence of symbols, one from each. -/
def DeriveFrom (g : Grammar) : List Symbol → List DerivationTree → Prop
  | [], [] => True
  | s :: ss, c :: cs => c.DerivesFrom g s ∧ DeriveFrom g ss cs
  | _, _ => False

end

mutual

/-- Whether a tree derives from a symbol is decided by its rules and leaves. -/
instance decidableDerivesFrom (g : Grammar) : (s : Symbol) → (c : DerivationTree) →
    Decidable (c.DerivesFrom g s)
  | .terminal k, leaf t => inferInstanceAs (Decidable (t.kind = some k))
  | .nonterminal n, node r children =>
      have := decidableDeriveFrom g (g.expansion r) children
      inferInstanceAs (Decidable (r ∈ g.rulesFor n ∧ DeriveFrom g (g.expansion r) children))
  | .terminal _, node _ _ => inferInstanceAs (Decidable False)
  | .nonterminal _, leaf _ => inferInstanceAs (Decidable False)

instance decidableDeriveFrom (g : Grammar) : (ss : List Symbol) → (cs : List DerivationTree) →
    Decidable (DeriveFrom g ss cs)
  | [], [] => inferInstanceAs (Decidable True)
  | s :: ss, c :: cs =>
      have := decidableDerivesFrom g s c
      have := decidableDeriveFrom g ss cs
      inferInstanceAs (Decidable (c.DerivesFrom g s ∧ DeriveFrom g ss cs))
  | [], _ :: _ => inferInstanceAs (Decidable False)
  | _ :: _, [] => inferInstanceAs (Decidable False)

end

mutual

/-- The kinds of the tokens of a tree are generated by the symbol it derives from. -/
theorem generates_of_derivesFrom {g : Grammar} : ∀ {s : Symbol} {c : DerivationTree},
    c.DerivesFrom g s → ∃ w, c.tokens.map Token.kind = w.map some ∧ g.Generates [s] w
  | .terminal k, leaf t, h => by
      rw [DerivesFrom] at h
      exact ⟨[k], by simp [tokens, h], .terminal .nil⟩
  | .nonterminal n, node r children, h => by
      rw [DerivesFrom] at h
      obtain ⟨hr, hc⟩ := h
      obtain ⟨w, hw, hg⟩ := generates_of_deriveFrom hc
      refine ⟨w, by rw [tokens, hw], ?_⟩
      have hn := Grammar.Generates.nonterminal hr hg .nil
      rwa [List.append_nil] at hn
  | .terminal _, node _ _, h => by simp [DerivesFrom] at h
  | .nonterminal _, leaf _, h => by simp [DerivesFrom] at h

/-- The kinds of the tokens of trees are generated by the symbols they derive from. -/
theorem generates_of_deriveFrom {g : Grammar} : ∀ {ss : List Symbol} {cs : List DerivationTree},
    DeriveFrom g ss cs → ∃ w, (tokensOf cs).map Token.kind = w.map some ∧ g.Generates ss w
  | [], [], _ => ⟨[], by simp [tokensOf], .nil⟩
  | s :: ss, c :: cs, h => by
      rw [DeriveFrom] at h
      obtain ⟨u, hu, hgu⟩ := generates_of_derivesFrom h.1
      obtain ⟨v, hv, hgv⟩ := generates_of_deriveFrom h.2
      refine ⟨u ++ v, ?_, hgu.append hgv⟩
      rw [tokensOf, List.map_append, List.map_append, hu, hv]
  | [], _ :: _, h => by simp [DeriveFrom] at h
  | _ :: _, [], h => by simp [DeriveFrom] at h

end

/-- Tokens whose kinds are generated by a sequence of symbols are the leaves of trees that
derive from the symbols. -/
theorem exists_deriveFrom
    {g : Grammar} {ss : List Symbol} {w : List Terminal} (h : g.Generates ss w)
    {ts : List Token} (hts : ts.map Token.kind = w.map some) :
  ∃ cs, DeriveFrom g ss cs ∧ tokensOf cs = ts
  := by
  induction h generalizing ts with
  | nil =>
      obtain rfl : ts = [] := by simpa using hts
      exact ⟨[], by simp [DeriveFrom], by simp [tokensOf]⟩
  | @terminal k ss w _ ih =>
      rw [List.map_cons] at hts
      obtain ⟨t, ts, rfl, hk, hts⟩ := List.map_eq_cons_iff.mp hts
      obtain ⟨cs, hd, ht⟩ := ih hts
      exact ⟨leaf t :: cs, by simp [DeriveFrom, DerivesFrom, hk, hd], by simp [tokensOf, tokens, ht]⟩
  | @nonterminal n r ss u v hr _ _ ihu ihv =>
      rw [List.map_append] at hts
      obtain ⟨us, vs, rfl, hus, hvs⟩ := List.map_eq_append_iff.mp hts
      obtain ⟨children, hc, hct⟩ := ihu hus
      obtain ⟨cs, hd, ht⟩ := ihv hvs
      exact ⟨node r children :: cs, by simp [DeriveFrom, DerivesFrom, hr, hc, hd],
        by simp [tokensOf, tokens, hct, ht]⟩

end DerivationTree

end CaptureLR

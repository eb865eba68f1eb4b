import CaptureLR.Json.Reader
import CaptureLR.Json.Text
import Mathlib.Tactic.IntervalCases

/-!
# Strings and numbers read back

What is written for a string or a number is read to the end and not further, and it means the string
or the number it was written for.
-/

namespace CaptureLR

namespace Json

/-! ### Strings -/

/-- The text is the written form of some characters. -/
def IsBody (body : List Char) : Prop := ∃ cs : List Char, body = cs.flatMap escapeChar

theorem isHex_hexDigit {n : Nat} (h : n < 16) :
  isHex (hexDigit n) = true
  := by
  interval_cases n <;> rfl

/-- Two hexadecimal digits behind two zeros are a control character. -/
theorem hexQuad?_hexDigit {n : Nat} (h : n < 32) :
  hexQuad? '0' '0' (hexDigit (n / 16)) (hexDigit (n % 16)) = some n
  := by
  interval_cases n <;> rfl

/-- A character is written with a letter behind a backslash, by its number, or as it is. -/
theorem escapeChar_cases (c : Char) :
  (∃ e, escapeChar c = ['\\', e] ∧ shortEscape? e = some c ∧ isShortEscape e = true ∧ e ≠ 'u')
    ∨ (escapeChar c
        = ['\\', 'u', '0', '0', hexDigit (c.toNat / 16), hexDigit (c.toNat % 16)] ∧ c.toNat < 32)
    ∨ (escapeChar c = [c] ∧ c ≠ '"' ∧ c ≠ '\\' ∧ ¬ c.toNat < 32)
  := by
  unfold escapeChar
  split_ifs with hquote hslash hback hfeed hnewline hreturn htab hcontrol
  · subst hquote
    exact Or.inl ⟨'"', rfl, rfl, rfl, by decide⟩
  · subst hslash
    exact Or.inl ⟨'\\', rfl, rfl, rfl, by decide⟩
  · subst hback
    exact Or.inl ⟨'b', rfl, rfl, rfl, by decide⟩
  · subst hfeed
    exact Or.inl ⟨'f', rfl, rfl, rfl, by decide⟩
  · subst hnewline
    exact Or.inl ⟨'n', rfl, rfl, rfl, by decide⟩
  · subst hreturn
    exact Or.inl ⟨'r', rfl, rfl, rfl, by decide⟩
  · subst htab
    exact Or.inl ⟨'t', rfl, rfl, rfl, by decide⟩
  · exact Or.inr (Or.inl ⟨rfl, hcontrol⟩)
  · exact Or.inr (Or.inr ⟨rfl, hquote, hslash, hcontrol⟩)

/-- The written form of a character is read as part of a string. -/
theorem readBody_escapeChar (c : Char) {cs body rest : List Char}
    (h : readBody cs = some (body, rest)) :
  readBody (escapeChar c ++ cs) = some (escapeChar c ++ body, rest)
  := by
  rcases escapeChar_cases c with ⟨e, heq, -, hshort, hu⟩ | ⟨heq, hlt⟩ | ⟨heq, hquote, hslash, hlt⟩
  · rw [heq]
    simp only [List.cons_append, List.nil_append]
    rw [readBody, if_pos hshort, h]
    · rfl
    · intro a b c d rest he
      apply absurd he hu
  · have hhigh : isHex (hexDigit (c.toNat / 16)) = true := isHex_hexDigit (by omega)
    have hlow : isHex (hexDigit (c.toNat % 16)) = true := isHex_hexDigit (by omega)
    have hzero : isHex '0' = true := rfl
    rw [heq]
    simp only [List.cons_append, List.nil_append, readBody, hhigh, hlow, hzero, h]
    rfl
  · have hplain : ¬ (c = '\\' ∨ c.toNat < 32) := not_or.mpr ⟨hslash, hlt⟩
    rw [heq]
    simp only [List.cons_append, List.nil_append]
    rw [readBody, if_neg hplain, h]
    · rfl
    · apply hquote
    · intro a b c' d rest hc
      apply absurd hc hslash
    · intro e rest hc
      apply absurd hc hslash

/-- The written form of a string is read up to its closing quote. -/
theorem IsBody.readBody {body : List Char} (h : IsBody body) (rest : List Char) :
  readBody (body ++ '"' :: rest) = some (body, rest)
  := by
  obtain ⟨cs, rfl⟩ := h
  induction cs with
  | nil => simp [Json.readBody]
  | cons c cs ih =>
      rw [List.flatMap_cons, List.append_assoc]
      apply readBody_escapeChar c ih

/-- A character that is written by its number is itself, whatever comes behind it, if the number is
not half of a surrogate pair. -/
theorem decodeBody_number {a b c d : Char} {n : Nat} (hn : hexQuad? a b c d = some n)
    (hlt : n < 32) {body tail : List Char} (h : decodeBody body = some tail) :
  decodeBody ('\\' :: 'u' :: a :: b :: c :: d :: body) = some (Char.ofNat n :: tail)
  := by
  have hhigh : isHighSurrogate n = false := by
    simp only [isHighSurrogate, Bool.and_eq_false_iff, decide_eq_false_iff_not]
    omega
  have hlow : isLowSurrogate n = false := by
    simp only [isLowSurrogate, Bool.and_eq_false_iff, decide_eq_false_iff_not]
    omega
  by_cases hpair : ∃ e f g i rest, body = '\\' :: 'u' :: e :: f :: g :: i :: rest
  · obtain ⟨e, f, g, i, rest, rfl⟩ := hpair
    rw [decodeBody, hn]
    simp [hhigh, hlow, h]
  · rw [decodeBody, hn]
    · simp [hhigh, hlow, h]
    · intro e f g i rest hbody
      apply hpair ⟨e, f, g, i, rest, hbody⟩

/-- The written form of a character means the character. -/
theorem decodeBody_escapeChar (c : Char) {body tail : List Char}
    (h : decodeBody body = some tail) :
  decodeBody (escapeChar c ++ body) = some (c :: tail)
  := by
  rcases escapeChar_cases c with ⟨e, heq, hshort, -, hu⟩ | ⟨heq, hlt⟩ | ⟨heq, -, hslash, -⟩
  · rw [heq]
    simp only [List.cons_append, List.nil_append]
    rw [decodeBody, hshort, h]
    · rfl
    · intro a b c d e' f g i rest he
      apply absurd he hu
    · intro a b c d rest he
      apply absurd he hu
  · rw [heq]
    simp only [List.cons_append, List.nil_append]
    rw [decodeBody_number (hexQuad?_hexDigit hlt) hlt h, Char.ofNat_toNat]
  · rw [heq]
    simp only [List.cons_append, List.nil_append]
    rw [decodeBody, h]
    · rfl
    · intro a b c' d e f g i rest hc
      apply absurd hc hslash
    · intro a b c' d rest hc
      apply absurd hc hslash
    · intro e rest hc
      apply absurd hc hslash

/-- The written form of some characters means them. -/
theorem decodeBody_flatMap (cs : List Char) :
  decodeBody (cs.flatMap escapeChar) = some cs
  := by
  induction cs with
  | nil => rfl
  | cons c cs ih =>
      rw [List.flatMap_cons]
      apply decodeBody_escapeChar c ih

/-- A string is what it is written as. -/
theorem string?_ofString (s : String) :
  (ofString s).string? = some s
  := by
  rw [ofString, string?, decodeBody_flatMap]
  exact congrArg some s.ofList_toList

/-! ### Numbers -/

theorem isDigit_toDigits {n : Nat} {c : Char} (h : c ∈ Nat.toDigits 10 n) :
  c.isDigit = true
  := Nat.isDigit_of_mem_toDigits (by decide) (by decide) h

/-- A number is written with a digit at least. -/
theorem exists_toDigits (n : Nat) :
  ∃ d ds, Nat.toDigits 10 n = d :: ds ∧ d.isDigit = true
  := by
  obtain ⟨d, ds, hds⟩ := List.exists_cons_of_ne_nil (Nat.toDigits_ne_nil (n := n) (b := 10))
  use d, ds, hds
  apply isDigit_toDigits (n := n)
  rw [hds]
  apply List.mem_cons_self

/-- The first digit of a number is zero for zero only. -/
theorem head?_toDigits_ne {n : Nat} (h : n ≠ 0) :
  (Nat.toDigits 10 n).head? ≠ some '0'
  := by
  induction n using Nat.strongRecOn with
  | _ n ih =>
      by_cases hn : n < 10
      · rw [Nat.toDigits_of_lt_base hn]
        interval_cases n <;> first | exact absurd rfl h | decide
      · have hdiv : n / 10 ≠ 0 := by omega
        obtain ⟨d, ds, hds, -⟩ := exists_toDigits (n / 10)
        have hfirst := ih (n / 10) (by omega) hdiv
        rw [hds] at hfirst
        rw [Nat.toDigits_of_base_le (by decide) (Nat.le_of_not_lt hn), hds]
        apply hfirst

/-- A number below the bound is what it is written as. -/
theorem decodeNat_toDigits {bound n : Nat} (h : n < bound) :
  decodeNat bound (Nat.toDigits 10 n) = some n
  := by
  have hvalue : (Nat.toDigits 10 n).foldl (fun n c => 10 * n + (c.toNat - 48)) 0 = n :=
    Nat.ofDigitChars_toDigits (by decide) (by decide)
  have hgood : ¬ (Nat.toDigits 10 n = [] ∨ !(Nat.toDigits 10 n).all Char.isDigit
      ∨ ((Nat.toDigits 10 n).length ≠ 1 ∧ (Nat.toDigits 10 n).head? = some '0')) := by
    rintro (hnil | hall | ⟨hlength, hzero⟩)
    · exact Nat.toDigits_ne_nil hnil
    · rw [Bool.not_eq_true', List.all_eq_false] at hall
      obtain ⟨c, hc, hdigit⟩ := hall
      apply hdigit (isDigit_toDigits hc)
    · by_cases hn : n = 0
      · subst hn
        apply hlength rfl
      · apply head?_toDigits_ne hn hzero
  rw [decodeNat, if_neg hgood]
  simp only [hvalue, if_pos h]

theorem nat?_ofNat {bound n : Nat} (h : n < bound) :
  (ofNat n).nat? bound = some n
  := decodeNat_toDigits h

/-- A text does not go on with what could belong to a number before it. -/
def EndsNumber (rest : List Char) : Prop :=
  ∀ c ∈ rest.head?, c.isDigit = false ∧ c ≠ '.' ∧ c ≠ 'e' ∧ c ≠ 'E'

/-- A number is read up to where it ends. -/
theorem readNumber_toDigits (n : Nat) {rest : List Char} (h : EndsNumber rest) :
  readNumber (Nat.toDigits 10 n ++ rest) = some (Nat.toDigits 10 n, rest)
  := by
  obtain ⟨d, ds, hds, hd⟩ := exists_toDigits n
  have hfraction : readFraction rest = some ([], rest) := by
    cases rest with
    | nil => rfl
    | cons c cs =>
        rw [readFraction]
        intro cs' heq
        cases heq
        apply (h '.' rfl).2.1 rfl
  have hexponent : readExponent rest = some ([], rest) := by
    cases rest with
    | nil => rfl
    | cons c cs =>
        obtain ⟨-, -, he, hE⟩ := h c rfl
        rw [readExponent, if_neg (not_or.mpr ⟨he, hE⟩)]
  have hinteger : readInteger (Nat.toDigits 10 n ++ rest) = some (Nat.toDigits 10 n, rest) := by
    by_cases hn : n = 0
    · subst hn
      rfl
    · have htake : (Nat.toDigits 10 n ++ rest).takeWhile Char.isDigit = Nat.toDigits 10 n := by
        rw [List.takeWhile_append_of_pos (fun c hc => isDigit_toDigits hc)]
        cases rest with
        | nil => exact List.append_nil _
        | cons c cs => simp [(h c rfl).1]
      have hdrop : (Nat.toDigits 10 n ++ rest).dropWhile Char.isDigit = rest := by
        rw [List.dropWhile_append_of_pos (fun c hc => isDigit_toDigits hc)]
        cases rest with
        | nil => rfl
        | cons c cs => simp [(h c rfl).1]
      rw [readInteger, readDigits, htake, hdrop]
      · rw [hds]
      · intro cs heq
        apply head?_toDigits_ne hn
        rw [hds] at heq ⊢
        rw [(List.cons.inj heq).1]
        rfl
  have hsign : ∀ cs, Nat.toDigits 10 n ++ rest ≠ '-' :: cs := by
    intro cs heq
    rw [hds] at heq
    rw [(List.cons.inj heq).1] at hd
    cases hd
  rw [readNumber, readUnsigned, hinteger]
  · simp [hfraction, hexponent]
  · apply hsign

end Json

end CaptureLR

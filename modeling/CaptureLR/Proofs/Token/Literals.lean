import CaptureLR.Proofs.Token.Reading
import CaptureLR.Text.Escaped

/-!
# Numerals and texts

What numerals and text literals look like, told without their scanners, and what these find ahead:
a literal, or the place up to which it is faulty.
-/

namespace CaptureLR

/-! ### Numerals -/

/-- A numeral: digits, and maybe a point and more digits. -/
inductive IsNumeral : List Char → Prop
  | whole {digits : List Char} (hne : digits ≠ []) (h : ∀ c ∈ digits, c.isDigit = true) :
      IsNumeral digits
  | decimal {digits fraction : List Char} (hne : digits ≠ []) (h : ∀ c ∈ digits, c.isDigit = true)
      (hfraction : fraction ≠ []) (h' : ∀ c ∈ fraction, c.isDigit = true) :
      IsNumeral (digits ++ '.' :: fraction)

theorem IsNumeral.ne_nil {cs : List Char} (h : IsNumeral cs) :
  cs ≠ []
  := by
  cases h with
  | whole hne => exact hne
  | decimal => simp

/-- Behind a point a numeral goes on over digits. -/
theorem numeralAhead_true (cs : List Char) :
  numeralAhead true cs = cs.takeWhile Char.isDigit
  := by
  induction cs with
  | nil => rfl
  | cons c cs ih =>
      unfold numeralAhead
      by_cases hc : c.isDigit = true
      · rw [if_pos hc, ih, List.takeWhile_cons_of_pos hc]
      · rw [if_neg hc, List.takeWhile_cons_of_neg hc]
        simp

/-- Before a point a numeral goes on over digits, and then over the point and digits. -/
theorem numeralAhead_false {digits rest : List Char} (h : ∀ c ∈ digits, c.isDigit = true)
    (hend : EndsRun Char.isDigit rest) :
  numeralAhead false (digits ++ rest)
    = digits ++ if rest.head? = some '.' then '.' :: rest.tail.takeWhile Char.isDigit else []
  := by
  induction digits with
  | nil =>
      rw [List.nil_append, List.nil_append]
      cases rest with
      | nil => rfl
      | cons c rest =>
          have hc : ¬ c.isDigit = true := by simp [hend c rfl]
          unfold numeralAhead
          rw [if_neg hc]
          by_cases hpoint : c = '.'
          · subst hpoint
            rw [if_pos ⟨rfl, rfl⟩, if_pos List.head?_cons, numeralAhead_true, List.tail_cons]
          · have hhead : (c :: rest).head? ≠ some '.' := fun h => hpoint (Option.some.inj h)
            rw [if_neg (fun h => hpoint h.1), if_neg hhead]
  | cons c digits ih =>
      rw [List.forall_mem_cons] at h
      rw [List.cons_append, numeralAhead, if_pos h.1, ih h.2, List.cons_append]

/-- Digits do not end in a point. -/
theorem getLast?_ne_point {digits : List Char} (h : ∀ c ∈ digits, c.isDigit = true) :
  digits.getLast? ≠ some '.'
  := by
  intro hlast
  have hpoint := h '.' (List.mem_of_getLast? hlast)
  cases hpoint

/-- What is ahead of a digit is a numeral that no digit follows, or digits and a point that no digit
follows. -/
theorem exists_numeral {first : Char} {rest : List Char} (hfirst : first.isDigit = true) :
  (∃ behind, first :: rest = numeralAhead false (first :: rest) ++ behind
      ∧ (numeralAhead false (first :: rest)).getLast? ≠ some '.'
      ∧ IsNumeral (numeralAhead false (first :: rest)) ∧ EndsRun Char.isDigit behind)
    ∨ ∃ digits behind, first :: rest = digits ++ '.' :: behind
      ∧ numeralAhead false (first :: rest) = digits ++ ['.'] ∧ digits ≠ []
      ∧ (∀ c ∈ digits, c.isDigit = true) ∧ EndsRun Char.isDigit behind
  := by
  obtain ⟨digits, behind, hcs, hdigits, hall, hend⟩ := exists_run Char.isDigit (first :: rest)
  have hne : digits ≠ [] := by
    rw [← hdigits, List.takeWhile_cons_of_pos hfirst]
    apply List.cons_ne_nil
  rw [hcs, numeralAhead_false hall hend]
  by_cases hpoint : behind.head? = some '.'
  · obtain ⟨behind, rfl⟩ := List.head?_eq_some_iff.mp hpoint
    rw [if_pos hpoint, List.tail_cons]
    obtain ⟨fraction, behind, rfl, hrun, hfraction, hend'⟩ := exists_run Char.isDigit behind
    rw [hrun]
    by_cases hempty : fraction = []
    · subst hempty
      right
      exact ⟨digits, behind, rfl, rfl, hne, hall, hend'⟩
    · left
      refine ⟨behind, by simp, ?_, .decimal hne hall hempty hfraction, hend'⟩
      rw [List.getLast?_append, List.getLast?_cons_of_ne_nil hempty]
      have hlast := getLast?_ne_point hfraction
      cases h : fraction.getLast? with
      | none => cases hempty (List.getLast?_eq_none_iff.mp h)
      | some c =>
          rw [h] at hlast
          apply hlast
  · rw [if_neg hpoint, List.append_nil]
    left
    exact ⟨behind, rfl, getLast?_ne_point hall, .whole hne hall, hend⟩

/-! ### Texts -/

/-- A text literal goes on to the first quote that no escape has, and its content is the text with
the escapes undone; it fails behind a backslash that begins no escape, or at the end. -/
inductive TextAhead : List Char → Except Nat (List Char × Nat) → Prop
  | closed {body rest content : List Char} (h : unescapeText body = some content) :
      TextAhead (body ++ '"' :: rest) (.ok (content, body.length + 1))
  | badEscape {body rest content : List Char} (h : unescapeText body = some content)
      (hrest : ∀ c, rest.head? = some c → ¬ (c = 'n' ∨ c = '\\' ∨ c = '"')) :
      TextAhead (body ++ '\\' :: rest) (.error (body.length + 1))
  | unclosed {body content : List Char} (h : unescapeText body = some content) :
      TextAhead body (.error body.length)

/-- A character of a literal, or its escape, goes before the rest of the literal. -/
theorem TextAhead.prepend {cs : List Char} {r : Except Nat (List Char × Nat)} (h : TextAhead cs r)
    (first : List Char) (x : Char)
    (hfirst : ∀ body content, unescapeText body = some content →
      unescapeText (first ++ body) = some (x :: content)) :
  TextAhead (first ++ cs)
    (match r with
      | .ok (content, n) => .ok (x :: content, n + first.length)
      | .error n => .error (n + first.length))
  := by
  have hlength : ∀ body : List Char, body.length + first.length = (first ++ body).length := by
    intro body
    rw [List.length_append, Nat.add_comm]
  cases h with
  | @closed body rest content h =>
      simp only
      rw [Nat.add_right_comm, hlength, ← List.append_assoc]
      exact .closed (hfirst body content h)
  | @badEscape body rest content h hrest =>
      simp only
      rw [Nat.add_right_comm, hlength, ← List.append_assoc]
      exact .badEscape (hfirst body content h) hrest
  | unclosed h =>
      simp only
      rw [hlength]
      exact .unclosed (hfirst _ _ h)

/-- The scanner of text literals finds what is ahead. -/
theorem textAhead (cs : List Char) :
  TextAhead cs (scanText cs)
  := by
  have hescape : ∀ {c : Char}, c = 'n' ∨ c = '\\' ∨ c = '"' → ∀ body content,
      unescapeText body = some content →
        unescapeText (['\\', c] ++ body) = some ((if c = 'n' then '\n' else c) :: content) := by
    rintro c (rfl | rfl | rfl) body content hbody <;> simp [unescapeText, hbody]
  have hplain : ∀ {c : Char}, c ≠ '"' → c ≠ '\\' → ∀ body content,
      unescapeText body = some content → unescapeText ([c] ++ body) = some (c :: content) := by
    intro c hquote hbackslash body content hbody
    simp [unescapeText, hbackslash, hbody]
  have hne : ∀ {c : Char} {cs : List Char},
      (∀ c' cs', c = '\\' → cs = c' :: cs' → False) → (c = '\\' → cs = [] → False) → c ≠ '\\' := by
    intro c cs hpair hlone hc
    cases cs with
    | nil => apply hlone hc rfl
    | cons c' cs' => apply hpair c' cs' hc rfl
  fun_induction scanText cs with
  | case1 => exact .unclosed rfl
  | case2 rest =>
      have hclosed : TextAhead ([] ++ '"' :: rest) (.ok ([], 0 + 1)) := .closed rfl
      exact hclosed
  | case3 c cs hc content n hscan ih =>
      rw [hscan] at ih
      exact ih.prepend ['\\', c] _ (hescape hc)
  | case4 c cs hc n hscan ih =>
      rw [hscan] at ih
      exact ih.prepend ['\\', c] _ (hescape hc)
  | case5 c cs hc =>
      have hbad : TextAhead ([] ++ '\\' :: c :: cs) (.error (0 + 1)) := by
        refine .badEscape rfl ?_
        rintro _ ⟨⟩
        exact hc
      exact hbad
  | case6 =>
      have hbad : TextAhead ([] ++ ['\\']) (.error (0 + 1)) := by
        refine .badEscape rfl ?_
        intro c hc
        cases hc
      exact hbad
  | case7 c cs hquote hpair hlone content n hscan ih =>
      rw [hscan] at ih
      exact ih.prepend [c] c (hplain hquote (hne hpair hlone))
  | case8 c cs hquote hpair hlone n hscan ih =>
      rw [hscan] at ih
      exact ih.prepend [c] c (hplain hquote (hne hpair hlone))

end CaptureLR

import CaptureLR.Proofs.Json.Literals

/-!
# Printed values read back

The reader gives back a value that is printed, and it stops behind it. The numerals, strings and
keys of the value have to be written as natural numbers and strings are.
-/

namespace CaptureLR

namespace Json

variable {j : Json} {js items : List Json} {members : List (List Char × Json)} {c : Char}
  {cs rest : List Char}

/-- A value whose numbers are natural numbers and whose strings are written in the usual way. -/
inductive IsWritten : Json → Prop
  | null : IsWritten .null
  | bool (b : Bool) : IsWritten (.bool b)
  | number (n : Nat) : IsWritten (.ofNat n)
  | string {body : List Char} (h : IsBody body) : IsWritten (.string body)
  | array {items : List Json} (h : ∀ j ∈ items, IsWritten j) : IsWritten (.array items)
  | object {members : List (List Char × Json)} (hk : ∀ m ∈ members, IsBody m.1)
      (hv : ∀ m ∈ members, IsWritten m.2) :
      IsWritten (.object members)

/-- A printed value is read back, if the allowed depth is twice its length. -/
def ReadsBack (j : Json) : Prop :=
  ∀ fuel rest, 2 * j.print.length ≤ fuel → EndsNumber rest →
    readValue fuel (j.print ++ rest) = some (j, rest)

/-! ### White space -/

theorem skipSpace_cons (h : isSpace c = false) :
  skipSpace (c :: cs) = c :: cs
  := List.dropWhile_cons_of_neg (by simp [h])

/-- A number ends where a comma or a closing bracket or brace follows. -/
theorem endsNumber_cons (h : c = ',' ∨ c = ']' ∨ c = '\x7d') (cs : List Char) :
  EndsNumber (c :: cs)
  := by
  intro d hd
  rw [List.head?_cons, Option.mem_some] at hd
  subst hd
  rcases h with rfl | rfl | rfl <;> decide

/-- A value begins neither with white space nor with a closing bracket. -/
theorem IsWritten.exists_print (h : j.IsWritten) :
  ∃ c cs, j.print = c :: cs ∧ isSpace c = false ∧ c ≠ ']'
  := by
  cases h with
  | null => exact ⟨'n', _, rfl, rfl, by decide⟩
  | bool b =>
      cases b with
      | true => exact ⟨'t', _, rfl, rfl, by decide⟩
      | false => exact ⟨'f', _, rfl, rfl, by decide⟩
  | number n =>
      obtain ⟨d, ds, hds, hd⟩ := exists_toDigits n
      refine ⟨d, ds, hds, ?_, ?_⟩
      · rw [Bool.eq_false_iff]
        intro hspace
        simp only [isSpace, Bool.or_eq_true, decide_eq_true_eq] at hspace
        rcases hspace with ((rfl | rfl) | rfl) | rfl <;> cases hd
      · rintro rfl
        cases hd
  | string => exact ⟨'"', _, rfl, rfl, by decide⟩
  | array => exact ⟨'[', _, rfl, rfl, by decide⟩
  | object => exact ⟨'\x7b', _, rfl, rfl, by decide⟩

theorem IsWritten.exists_fuel (h : j.IsWritten) {fuel : Nat} (hfuel : 2 * j.print.length ≤ fuel) :
  ∃ n, fuel = n + 1
  := by
  obtain ⟨c, cs, hprint, -⟩ := h.exists_print
  rw [hprint, List.length_cons] at hfuel
  apply Nat.exists_eq_add_of_le'
  omega

theorem IsWritten.skipSpace_print (h : j.IsWritten) (rest : List Char) :
  skipSpace (j.print ++ rest) = j.print ++ rest
  := by
  obtain ⟨c, cs, hprint, hspace, -⟩ := h.exists_print
  rw [hprint, List.cons_append, skipSpace_cons hspace]

/-! ### Items and members -/

/-- A sequence of texts begins as the first of them does. -/
theorem exists_commaSeparated (c : Char) (cs : List Char) (xs : List (List Char)) :
  ∃ ds, commaSeparated ((c :: cs) :: xs) = c :: ds
  := by
  cases xs with
  | nil => exact ⟨cs, rfl⟩
  | cons x xs => exact ⟨cs ++ ',' :: commaSeparated (x :: xs), rfl⟩

/-- Nothing is skipped before a sequence of texts whose first does not begin with white space. -/
theorem skipSpace_commaSeparated {x : List Char} (hx : x = c :: cs) (hspace : isSpace c = false)
    (xs : List (List Char)) :
  skipSpace (commaSeparated (x :: xs) ++ rest) = commaSeparated (x :: xs) ++ rest
  := by
  subst hx
  obtain ⟨ds, hds⟩ := exists_commaSeparated c cs xs
  rw [hds, List.cons_append, skipSpace_cons hspace]

section Items

variable {fuel : Nat} (hback : j.ReadsBack) (hfuel : 2 * j.print.length ≤ fuel)

include hback hfuel

/-- The last item of an array is read with the closing bracket. -/
theorem readItems_last (rest : List Char) :
  readItems (fuel + 1) (j.print ++ ']' :: rest) = some ([j], rest)
  := by
  rw [readItems, hback fuel _ hfuel (endsNumber_cons (by decide) _)]
  simp only [Option.bind_eq_bind, Option.bind_some, skipSpace_cons (c := ']') rfl]

/-- An item of an array before others is read with the comma behind it. -/
theorem readItems_next (hskip : skipSpace cs = cs) (h : readItems fuel cs = some (js, rest)) :
  readItems (fuel + 1) (j.print ++ ',' :: cs) = some (j :: js, rest)
  := by
  rw [readItems, hback fuel _ hfuel (endsNumber_cons (by decide) _)]
  simp only [Option.bind_eq_bind, Option.bind_some, skipSpace_cons (c := ',') rfl, hskip, h]
  rfl

variable {key : List Char} (hkey : IsBody key) (hj : j.IsWritten)

include hkey hj

/-- The last member of an object is read with the closing brace. -/
theorem readMembers_last (rest : List Char) :
  readMembers (fuel + 1) ('"' :: (key ++ '"' :: ':' :: (j.print ++ '\x7d' :: rest)))
    = some ([(key, j)], rest)
  := by
  rw [readMembers, hkey.readBody]
  simp only [Option.bind_eq_bind, Option.bind_some, skipSpace_cons (c := ':') rfl, hj.skipSpace_print,
    hback fuel _ hfuel (endsNumber_cons (c := '\x7d') (by decide) rest),
    skipSpace_cons (c := '\x7d') rfl]

/-- A member of an object before others is read with the comma behind it. -/
theorem readMembers_next (hskip : skipSpace cs = cs)
    (h : readMembers fuel cs = some (members, rest)) :
  readMembers (fuel + 1) ('"' :: (key ++ '"' :: ':' :: (j.print ++ ',' :: cs)))
    = some ((key, j) :: members, rest)
  := by
  rw [readMembers, hkey.readBody]
  simp only [Option.bind_eq_bind, Option.bind_some, skipSpace_cons (c := ':') rfl, hj.skipSpace_print,
    hback fuel _ hfuel (endsNumber_cons (c := ',') (by decide) cs),
    skipSpace_cons (c := ',') rfl, hskip, h]
  rfl

end Items

/-- The items of an array are read up to the closing bracket, if each of them is read back. -/
theorem readItems_print (hwritten : ∀ i ∈ j :: js, i.IsWritten) (hback : ∀ i ∈ j :: js, i.ReadsBack)
    {fuel : Nat} (hfuel : 2 * (commaSeparated (printItems (j :: js))).length < fuel)
    (rest : List Char) :
  readItems fuel (commaSeparated (printItems (j :: js)) ++ ']' :: rest) = some (j :: js, rest)
  := by
  obtain ⟨fuel, rfl⟩ := Nat.exists_eq_add_one_of_ne_zero (Nat.ne_zero_of_lt hfuel)
  induction js generalizing j fuel with
  | nil =>
      apply readItems_last (hback j List.mem_cons_self)
      apply Nat.le_of_lt_succ hfuel
  | cons i is ih =>
      rw [List.forall_mem_cons] at hwritten hback
      obtain ⟨c, cs, hi, hspace, -⟩ := (hwritten.2 i List.mem_cons_self).exists_print
      simp only [printItems, commaSeparated, List.append_assoc, List.cons_append, List.length_append,
        List.length_cons] at hfuel ih ⊢
      obtain ⟨fuel, rfl⟩ : ∃ n, fuel = n + 1 := Nat.exists_eq_add_of_le' (by omega)
      apply readItems_next hback.1 (by omega)
      · apply skipSpace_commaSeparated hi hspace
      · apply ih hwritten.2 hback.2
        omega

/-- The members of an object are read up to the closing brace, if their values are read back. -/
theorem readMembers_print {m : List Char × Json} {ms : List (List Char × Json)}
    (hkey : ∀ n ∈ m :: ms, IsBody n.1) (hwritten : ∀ n ∈ m :: ms, n.2.IsWritten)
    (hback : ∀ n ∈ m :: ms, n.2.ReadsBack) {fuel : Nat}
    (hfuel : 2 * (commaSeparated (printMembers (m :: ms))).length < fuel) (rest : List Char) :
  readMembers fuel (commaSeparated (printMembers (m :: ms)) ++ '\x7d' :: rest)
    = some (m :: ms, rest)
  := by
  obtain ⟨fuel, rfl⟩ := Nat.exists_eq_add_one_of_ne_zero (Nat.ne_zero_of_lt hfuel)
  induction ms generalizing m fuel with
  | nil =>
      obtain ⟨key, j⟩ := m
      simp only [printMembers, commaSeparated, List.cons_append, List.append_assoc, List.length_cons,
        List.length_append, List.forall_mem_singleton] at hkey hwritten hback hfuel ⊢
      apply readMembers_last hback (by omega) hkey hwritten
  | cons n ns ih =>
      obtain ⟨key, j⟩ := m
      rw [List.forall_mem_cons] at hkey hwritten hback
      simp only [printMembers, commaSeparated, List.cons_append, List.append_assoc, List.length_cons,
        List.length_append] at hfuel ih ⊢
      obtain ⟨fuel, rfl⟩ : ∃ n, fuel = n + 1 := Nat.exists_eq_add_of_le' (by omega)
      apply readMembers_next (j := j) hback.1 (by omega) hkey.1 hwritten.1
      · apply skipSpace_commaSeparated rfl rfl
      · apply ih hkey.2 hwritten.2 hback.2
        omega

/-! ### Values -/

/-- A value that begins with a digit is a number. -/
theorem readValue_of_isDigit (h : c.isDigit = true) (fuel : Nat) (cs : List Char) :
  readValue (fuel + 1) (c :: cs) = (readNumber (c :: cs)).map (fun p => (.number p.1, p.2))
  := by
  rw [readValue]
  · cases readNumber (c :: cs) <;> rfl
  all_goals
    rintro rest heq
    cases heq
    cases h

/-- An array is read as its items are, if it has one. -/
theorem readValue_array {fuel : Nat} (hskip : skipSpace cs = cs) (hc : cs.head? ≠ some ']')
    (h : readItems fuel cs = some (items, rest)) :
  readValue (fuel + 1) ('[' :: cs) = some (.array items, rest)
  := by
  rw [readValue, hskip]
  split
  · exact absurd rfl hc
  · rw [h]
    rfl

/-- An object is read as its members are, if it has one. -/
theorem readValue_object {fuel : Nat} (hskip : skipSpace cs = cs) (hc : cs.head? ≠ some '\x7d')
    (h : readMembers fuel cs = some (members, rest)) :
  readValue (fuel + 1) ('\x7b' :: cs) = some (.object members, rest)
  := by
  rw [readValue, hskip]
  split
  · exact absurd rfl hc
  · rw [h]
    rfl

/-- A value that is printed is read back. -/
theorem IsWritten.readsBack (h : j.IsWritten) :
  j.ReadsBack
  := by
  induction h with
  | null =>
      intro fuel rest hfuel hrest
      obtain ⟨fuel, rfl⟩ := IsWritten.null.exists_fuel hfuel
      rfl
  | bool b =>
      intro fuel rest hfuel hrest
      obtain ⟨fuel, rfl⟩ := (IsWritten.bool b).exists_fuel hfuel
      cases b <;> rfl
  | number n =>
      intro fuel rest hfuel hrest
      obtain ⟨fuel, rfl⟩ := (IsWritten.number n).exists_fuel hfuel
      obtain ⟨d, ds, hds, hd⟩ := exists_toDigits n
      have hread := readNumber_toDigits n hrest
      rw [ofNat, print, hds] at *
      rw [List.cons_append] at hread ⊢
      rw [readValue_of_isDigit hd, hread]
      rfl
  | @string body h =>
      intro fuel rest hfuel hrest
      obtain ⟨fuel, rfl⟩ := (IsWritten.string h).exists_fuel hfuel
      simp only [print, List.cons_append, List.append_assoc, List.nil_append, readValue,
        h.readBody, Option.bind_eq_bind, Option.bind_some]
      rfl
  | @array items h ih =>
      intro fuel rest hfuel hrest
      obtain ⟨fuel, rfl⟩ := (IsWritten.array h).exists_fuel hfuel
      cases items with
      | nil => rfl
      | cons i is =>
          obtain ⟨c, cs, hi, hspace, hc⟩ := (h i List.mem_cons_self).exists_print
          obtain ⟨ds, hds⟩ := exists_commaSeparated c cs (printItems is)
          simp only [print, List.length_cons, List.length_append] at hfuel
          simp only [print, List.cons_append, List.append_assoc, List.nil_append]
          apply readValue_array
          · apply skipSpace_commaSeparated hi hspace
          · rw [printItems, hi, hds]
            intro heq
            apply hc (Option.some.inj heq)
          · apply readItems_print h ih
            omega
  | @object members hk hv ih =>
      intro fuel rest hfuel hrest
      obtain ⟨fuel, rfl⟩ := (IsWritten.object hk hv).exists_fuel hfuel
      cases members with
      | nil => rfl
      | cons m ms =>
          obtain ⟨ds, hds⟩ := exists_commaSeparated '"' (m.1 ++ '"' :: ':' :: m.2.print)
            (printMembers ms)
          simp only [print, List.length_cons, List.length_append] at hfuel
          simp only [print, List.cons_append, List.append_assoc, List.nil_append]
          apply readValue_object
          · apply skipSpace_commaSeparated rfl rfl
          · rw [printMembers, hds]
            intro heq
            cases Option.some.inj heq
          · apply readMembers_print hk hv ih
            omega

/-- The text of a value is parsed to the value. -/
theorem IsWritten.parse_print (h : j.IsWritten) :
  parse (String.ofList j.print) = some j
  := by
  have hread := h.readsBack (2 * j.print.length + 2) [] (Nat.le_add_right _ _) nofun
  have hskip := h.skipSpace_print []
  rw [List.append_nil] at hread hskip
  simp only [parse, String.toList_ofList, hskip, hread]
  rfl

end Json

end CaptureLR

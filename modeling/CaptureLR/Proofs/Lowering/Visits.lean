import CaptureLR.Proofs.Lowering.Progress
import Mathlib.Algebra.Order.BigOperators.Group.Finset
import Mathlib.Algebra.Order.BigOperators.Group.List

/-!
# Lowering gets on

Every step of lowering either gets further or stops at an error that the language is to blame for.
The bound on the nesting is never reached: an instance is entered once, so the patterns that are
entered inside one another weigh no more than the language does.
-/

namespace CaptureLR

/-! ### What is left to enter -/

namespace Language

variable {l : Language} {owners owners' : List Owner} {id : CombinatorId} {c : Combinator}

/-- The weight of the instances that own nothing yet. -/
def unmade (l : Language) (owners : List Owner) : Nat :=
  ∑ i : Fin l.combinators.size, if .combinator ⟨i⟩ ∈ owners then 0 else l.combinators[i].weight

theorem unmade_le (h : owners ⊆ owners') :
  l.unmade owners' ≤ l.unmade owners
  := by
  apply Finset.sum_le_sum
  intro i _
  by_cases hi : .combinator ⟨i⟩ ∈ owners
  · rw [if_pos hi, if_pos (h hi)]
  · rw [if_neg hi]
    split
    · apply Nat.zero_le
    · apply Nat.le_refl

/-- An instance that is made leaves so much less to make. -/
theorem unmade_add_weight_le (hc : l.combinator? id = some c) (hnew : .combinator id ∉ owners) :
  l.unmade (owners ++ [.combinator id]) + c.weight ≤ l.unmade owners
  := by
  obtain ⟨hlt, rfl⟩ := Array.getElem?_eq_some_iff.mp hc
  let i : Fin l.combinators.size := ⟨id.index, hlt⟩
  have hi : i ∈ Finset.univ := Finset.mem_univ i
  rw [unmade, unmade, ← Finset.add_sum_erase _ _ hi, ← Finset.add_sum_erase _ _ hi,
    if_pos (List.mem_append_right _ (List.mem_singleton_self _)), if_neg hnew, Nat.zero_add,
    Nat.add_comm]
  apply Nat.add_le_add_left
  apply Finset.sum_le_sum
  intro j _
  by_cases hj : .combinator ⟨j⟩ ∈ owners
  · rw [if_pos hj, if_pos (List.mem_append_left _ hj)]
  · rw [if_neg hj]
    split
    · apply Nat.zero_le
    · apply Nat.le_refl

/-- The pattern of a class and all instances weigh no more than the language. -/
theorem unmade_add_weight_le_weight {cl : ClassId} {p : Pattern} (hp : l.pattern? cl = some p) :
  l.unmade owners + p.weight ≤ l.weight
  := by
  have hall : l.unmade owners ≤ (l.combinators.toList.map Combinator.weight).sum := by
    apply Nat.le_trans (unmade_le (List.nil_subset owners))
    apply Nat.le_of_eq
    rw [unmade, ← Fin.sum_univ_fun_getElem]
    simp
  have hone : p.weight
      ≤ (l.classes.toList.map (fun d => (d.pattern.map Pattern.weight).getD 0)).sum := by
    obtain ⟨d, hd, hdp⟩ := Option.bind_eq_some_iff.mp hp
    apply List.le_sum_of_mem
    apply List.mem_map.mpr
    refine ⟨d, Array.mem_toList_iff.mpr (Array.mem_of_getElem? hd), ?_⟩
    rw [hdp]
    rfl
  have hweight : l.weight
      = (l.classes.toList.map (fun d => (d.pattern.map Pattern.weight).getD 0)).sum
      + (l.combinators.toList.map Combinator.weight).sum := by
    rw [weight, List.sum_eq_foldr, List.sum_eq_foldr, List.foldr_map, List.foldr_map]
  omega

end Language

/-! ### Parts -/

/-- The repetitions that wait for their loops while the parts of one more are lowered. -/
def Repetition.awaiting (r : Repetition) (id : CombinatorId) (waiting : List CombinatorId) :
    List CombinatorId :=
  match r.upper with
  | none => id :: waiting
  | some _ => waiting

/-- The repetitions that wait for their loops while the parts of an instance are lowered. -/
def Shape.awaiting (shape : Shape) (id : CombinatorId) (waiting : List CombinatorId) :
    List CombinatorId :=
  match shape with
  | .repetition r => r.awaiting id waiting
  | _ => waiting

theorem Combinator.parts_repetition (name : Option String) (r : Repetition) :
  Combinator.parts ⟨name, .repetition r⟩ = r.element :: r.delimiter :: r.trailing.parts
  := by
  cases ht : r.trailing <;> simp only [parts, Trailing.parts, ht]

/-- The parts that are lowered are those that are gone through. -/
theorem Combinator.map_snd_entries (c : Combinator) (name : String) :
  (c.shape.entries name).map Prod.snd = c.entered
  := by
  obtain ⟨name', shape⟩ := c
  cases shape with
  | choice branches =>
      rw [Shape.entries, map_snd_numbered]
      rfl
  | repetition r =>
      rw [Shape.entries, entered, parts_repetition]
      simp only
      split
      · rfl
      · simp [Function.comp_def]
  | capture m =>
      simp only [Shape.entries, entered, parts]
      rcases m.target with _ | ⟨_ | _⟩ <;> rfl

/-- Each part is lowered to one sequence of symbols. -/
theorem Source.LowersEach.length_eq {s : Source} {n? : Option Nonterminal}
    {parts : List (String × Pattern)} {d d' : Draft} {es : List (List Symbol)}
    (h : s.LowersEach n? parts d es d') :
  es.length = parts.length
  := by
  induction parts generalizing d es with
  | nil =>
      cases h
      rfl
  | cons part parts ih =>
      cases h with
      | cons _ hs => rw [List.length_cons, ih hs, List.length_cons]

namespace Source

variable {s : Source} {root : ClassId} {made : List ClassId} {waiting : List CombinatorId}
  {owners : List Owner} {seen rest : List CombinatorId} {d : Draft} {fuel : Nat}
  {id : CombinatorId} {c : Combinator}

/-! ### Checks -/

/-- An instance is plain if its check passes. -/
theorem isPlain_of_check (hc : s.language.combinator? id = some c) {context : String}
    (hcheck : s.check c.shape context = .ok ()) :
  s.IsPlain id
  := by
  intro name m cl n hc' hm hn harray
  cases hc.symm.trans hc'
  simp only [check, hm, checkCapture, nodeClass, hn, bind, Except.bind, harray, Bool.not_false,
    Bool.true_and] at hcheck
  cases hstands : n.standsForArray with
  | false => rfl
  | true =>
      rw [hstands] at hcheck
      cases hcheck

/-- If the check of an instance fails, the language is to blame. -/
theorem Progress.blames_check (hs : s.IsCollected root)
    (hd : s.Progress root made waiting owners seen (id :: rest) d)
    (hc : s.language.combinator? id = some c) {context : String} {e : BuildError}
    (hcheck : s.check c.shape context = .error e) :
  s.Blames root e
  := by
  have hreached := hd.reached_of_mem_rest List.mem_cons_self hc
  obtain ⟨name, shape⟩ := c
  cases shape with
  | choice branches => cases hcheck
  | repetition r => cases hcheck
  | capture m =>
      -- a collected match has a target
      obtain ⟨target, hm⟩ := hs.target id name m hreached hc
      simp only [check, hm] at hcheck
      cases target with
      | pattern p => cases hcheck
      | nodeClass cl =>
          obtain ⟨n, hn⟩ := hs.nodeClass cl (hreached.target hc hm)
          simp only [checkCapture, nodeClass, hn, bind, Except.bind] at hcheck
          split at hcheck
          · next hbad =>
            cases hcheck
            apply hd.blames_capture hc hm hn hbad
          · cases hcheck

/-! ### Instances -/

/-- An owner keeps its place when more are added. -/
theorem getElem?_of_extends {owners' : List Owner} {i : Nat} {o : Owner} (h : owners <+: owners')
    (ho : owners[i]? = some o) :
  owners'[i]? = some o
  := by
  obtain ⟨more, rfl⟩ := h
  rw [List.getElem?_append_left (List.getElem?_eq_some_iff.mp ho).1, ho]

/-- The rules of a repetition are added; if there is no upper bound, its loop is made, for which the
repetition was waiting. -/
theorem Progress.repetition {name : Option String} {r : Repetition} {seen rest : List CombinatorId}
    (h : s.Progress root made (r.awaiting id waiting) owners seen rest d)
    (hc : s.language.combinator? id = some ⟨name, .repetition r⟩) (hnot : id ∉ waiting)
    {n : Nonterminal} (hn : d.instances.get? id = some n) (label : String) (es ds : List Symbol)
    (ts : Option (List Symbol)) :
  ∃ owners', owners <+: owners'
    ∧ s.Progress root made waiting owners' seen rest (r.addRules label n es ds ts d)
  := by
  unfold Repetition.addRules
  have hzero : ∃ d', (if r.lower = 0 then d.addRule n [] else d) = d'
      ∧ s.Progress root made (r.awaiting id waiting) owners seen rest d'
      ∧ d'.instances.get? id = some n := by
    split
    · exact ⟨_, rfl, h.addRule n [], hn⟩
    · exact ⟨_, rfl, h, hn⟩
  obtain ⟨d', hd', h', hn'⟩ := hzero
  simp only [hd']
  unfold Repetition.awaiting at h'
  cases hupper : r.upper with
  | some upper =>
      rw [hupper] at h'
      exact ⟨owners, List.prefix_refl owners, h'.addRules n _⟩
  | none =>
      rw [hupper] at h'
      have hloop := h'.addLoop ⟨name, r, hc, hupper⟩ hnot hn' (label ++ "['innerLoop']")
        (repeated es ds (max r.lower 1))
      exact ⟨_, List.prefix_append owners _, hloop.addRules _ _⟩

theorem Progress.addRule? (h : s.Progress root made waiting owners seen rest d)
    (n? : Option Nonterminal) (e : List Symbol) :
  s.Progress root made waiting owners seen rest (d.addRule? n? e)
  := by
  cases n? with
  | none => apply h
  | some n => apply h.addRule

/-- An instance that has no nonterminal yet is given one; if it is a repetition without an upper
bound, it waits for its loop. -/
theorem Progress.newInstance (h : s.Progress root made waiting owners seen (id :: rest) d)
    (hc : s.language.combinator? id = some c) (hnone : d.instances.get? id = none)
    {context : String} (hcheck : s.check c.shape context = .ok ()) (name : String) :
  .combinator id ∉ owners ∧ s.Progress root made (c.shape.awaiting id waiting)
    (owners ++ [.combinator id]) (seen ++ [id]) (Pattern.mentionsList c.entered ++ rest)
    (d.addInstance id name c.capture?).2
  := by
  have hnew : .combinator id ∉ owners := by
    rw [← h.owned.isSome_instances, hnone]
    exact nofun
  use hnew
  apply h.addInstance hc hnew (isPlain_of_check hc hcheck)
  · intro id' hne
    unfold Shape.awaiting Repetition.awaiting
    split
    · split
      · simp [hne]
      · rfl
    · rfl
  · rintro ⟨name', r, hc', hupper⟩
    cases hc.symm.trans hc'
    rw [Shape.awaiting, Repetition.awaiting, hupper]
    apply List.mem_cons_self

/-- An instance is finished once its parts are got past, and no longer waits for its loop. -/
theorem Progress.finish (hs : s.IsCollected root)
    (h : s.Progress root made (c.shape.awaiting id waiting) owners seen rest d)
    (hc : s.language.combinator? id = some c) (hnot : id ∉ waiting) {n : Nonterminal}
    (hn : d.instances.get? id = some n) (name : String) {es : List (List Symbol)}
    (hes : es.length = (c.shape.entries name).length) :
  ∃ owners', owners <+: owners'
    ∧ s.Progress root made waiting owners' seen rest (s.finish c.shape name n es d)
  := by
  obtain ⟨label, shape⟩ := c
  cases shape with
  | choice branches => exact ⟨owners, List.prefix_refl owners, h⟩
  | repetition r =>
      cases hr : r.isVoid with
      | true =>
          have hnil : es = [] := by
            apply List.length_eq_zero_iff.mp
            rw [hes, Shape.entries, if_pos hr, List.length_nil]
          subst hnil
          refine ⟨owners, List.prefix_refl owners, ?_⟩
          -- a repetition that allows no number of elements has an upper bound
          cases hupper : r.upper with
          | none =>
              rw [Repetition.isVoid, hupper] at hr
              cases hr
          | some upper =>
              simp only [Shape.awaiting, Repetition.awaiting, hupper] at h
              apply h
      | false =>
          simp only [Shape.entries, hr, Bool.false_eq_true, if_false, List.length_cons] at hes
          obtain _ | ⟨element, _ | ⟨delimiter, more⟩⟩ := es
          · cases hes
          · cases hes
          · apply h.repetition hc hnot hn
  | capture m =>
      unfold Source.finish
      simp only
      split
      · next cl hm =>
        split
        · next node hnode =>
          have hid : .combinator id ∈ owners := h.owned.isSome_instances.mp (by rw [hn]; rfl)
          have hreached := (h.reached _ hid).target hc hm
          rw [← hs.identifies cl node hnode] at hreached
          obtain ⟨owners', howners, h'⟩ := h.classNonterminal node hreached
          exact ⟨owners', howners, h'.addRule _ _⟩
        · exact ⟨owners, List.prefix_refl owners, h⟩
      · exact ⟨owners, List.prefix_refl owners, h⟩

/-! ### Runs that get on -/

mutual

/-- A pattern that is lowered is got past. -/
theorem Lowers.progress (hs : s.IsCollected root) : ∀ {context : String} {p : Pattern}
    {d d' : Draft} {ss : List Symbol}, s.Lowers context p d ss d' →
    ∀ {waiting : List CombinatorId} {owners : List Owner} {seen rest : List CombinatorId},
      s.Progress root made waiting owners seen (p.mentions ++ rest) d →
      ∃ owners' seen', owners <+: owners' ∧ s.Progress root made waiting owners' seen' rest d'
  | _, _, _, _, _, .literal, _, owners, seen, _, hd => ⟨owners, seen, List.prefix_refl owners, hd⟩
  | _, _, _, _, _, @Lowers.sequence _ _ items _ _ _ h, _, owners, seen, rest, hd => by
      rw [Pattern.mentions, ← map_snd_numbered _ items 0] at hd
      apply h.progress hs hd
  | _, _, _, _, _, @Lowers.dangling _ _ id d hid, _, owners, seen, rest, hd => by
      refine ⟨owners, seen ++ [id], List.prefix_refl owners, hd.pass ?_ ?_⟩
      · rw [Language.isUnnamed, hid]
      · intro c hc
        cases hid.symm.trans hc
  | _, _, _, _, _, @Lowers.again _ _ id c n d hc hn hname, _, owners, seen, rest, hd => by
      refine ⟨owners, seen ++ [id], List.prefix_refl owners, hd.pass ?_ ?_⟩
      · rw [Language.isUnnamed, hc]
        simpa using hname
      · intro _ _
        apply hd.owned.isSome_instances.mp
        rw [hn]
        rfl
  | _, _, _, _, _, @Lowers.new _ context id c d d' es hc hnone hcheck h, waiting, owners, seen,
      rest, hd => by
      obtain ⟨hnew, hadd⟩ := hd.newInstance hc hnone hcheck (c.label context)
      rw [← c.map_snd_entries (c.label context)] at hadd
      obtain ⟨owners₁, seen₁, howners, h₁⟩ := h.progress hs hadd
      have hn : d'.instances.get? id = some d.grammar.nextNonterminal := by
        apply (h₁.owned.instances id _).mpr
        apply getElem?_of_extends howners
        change (owners ++ [_])[d.size]? = _
        rw [hd.owned.size, List.getElem?_concat_length]
      obtain ⟨owners', howners', h'⟩ :=
        h₁.finish hs hc (fun hid => hnew (hd.waits id hid)) hn _ h.length_eq
      exact ⟨owners', seen₁, (List.prefix_append owners _).trans (howners.trans howners'), h'⟩

theorem LowersEach.progress (hs : s.IsCollected root) : ∀ {n? : Option Nonterminal}
    {parts : List (String × Pattern)} {d d' : Draft} {es : List (List Symbol)},
    s.LowersEach n? parts d es d' →
    ∀ {waiting : List CombinatorId} {owners : List Owner} {seen rest : List CombinatorId},
      s.Progress root made waiting owners seen
        (Pattern.mentionsList (parts.map Prod.snd) ++ rest) d →
      ∃ owners' seen', owners <+: owners' ∧ s.Progress root made waiting owners' seen' rest d'
  | _, _, _, _, _, .nil, _, owners, seen, _, hd => ⟨owners, seen, List.prefix_refl owners, hd⟩
  | n?, _, _, _, _, .cons h hparts, _, owners, seen, rest, hd => by
      rw [List.map_cons, Pattern.mentionsList, List.append_assoc] at hd
      obtain ⟨owners₁, seen₁, howners, h₁⟩ := h.progress hs hd
      obtain ⟨owners', seen', howners', h'⟩ := hparts.progress hs (h₁.addRule? n? _)
      exact ⟨owners', seen', howners.trans howners', h'⟩

end

/-! ### Runs that fail -/

/-- What is allowed for some owners is allowed for more. -/
theorem allowed_mono {owners' : List Owner} {n : Nat} (h : s.language.unmade owners + n ≤ fuel)
    (howners : owners <+: owners') :
  s.language.unmade owners' + n ≤ fuel
  := Nat.le_trans (Nat.add_le_add_right (Language.unmade_le howners.subset) n) h

/-- Lowering goes through no more than all parts. -/
theorem weightList_entered_le (c : Combinator) :
  Pattern.weightList c.entered ≤ Pattern.weightList c.parts
  := by
  unfold Combinator.entered
  split
  · split
    · apply Nat.zero_le
    · apply Nat.le_refl
  · apply Nat.le_refl

/-- What is allowed for an instance that is not made yet is enough for its parts. -/
theorem unmade_add_parts_le (hc : s.language.combinator? id = some c)
    (hfuel : s.language.unmade owners ≤ fuel) (hnew : .combinator id ∉ owners) :
  s.language.unmade (owners ++ [.combinator id]) + Pattern.weightList c.entered ≤ fuel
  := by
  have hle := Language.unmade_add_weight_le hc hnew
  have hentered := weightList_entered_le c
  rw [Combinator.weight] at hle
  omega

mutual

/-- If combinators may be nested as deep as a pattern weighs, with all that is not made yet, and the
pattern is not lowered, then the language is to blame. -/
theorem Fails.blames (hs : s.IsCollected root) : ∀ {fuel : Nat} {context : String} {p : Pattern}
    {d : Draft} {e : BuildError}, s.Fails fuel context p d e →
    ∀ {waiting : List CombinatorId} {owners : List Owner} {seen rest : List CombinatorId},
      s.language.unmade owners + p.weight ≤ fuel →
      s.Progress root made waiting owners seen (p.mentions ++ rest) d → s.Blames root e
  | _, _, p, _, _, .exhausted hp, _, owners, _, _, hfuel, _ => by
      have hweight : 1 ≤ p.weight := by
        cases p with
        | literal t => cases hp t rfl
        | sequence items => apply Nat.le_add_right
        | combinator id => apply Nat.le_refl
      omega
  | _, _, _, _, _, @Fails.sequence _ fuel _ items _ _ h, _, owners, _, _, hfuel, hd => by
      rw [Pattern.weight] at hfuel
      rw [Pattern.mentions, ← map_snd_numbered _ items 0] at hd
      apply h.blames hs _ hd
      rw [map_snd_numbered]
      omega
  | _, _, _, _, _, .again hc hn hname, _, _, _, _, _, hd => by
      apply hd.blames_reuse hc hname
      apply hd.owned.isSome_instances.mp
      rw [hn]
      rfl
  | _, _, _, _, _, .check hc _ hcheck, _, _, _, _, _, hd => hd.blames_check hs hc hcheck
  | _, _, _, _, _, @Fails.new _ fuel context id c d e hc hnone hcheck h, _, owners, _, _, hfuel,
      hd => by
      obtain ⟨hnew, hadd⟩ := hd.newInstance hc hnone hcheck (c.label context)
      rw [Pattern.weight] at hfuel
      have hallowed := unmade_add_parts_le hc (Nat.le_of_succ_le_succ hfuel) hnew
      rw [← c.map_snd_entries (c.label context)] at hadd hallowed
      apply h.blames hs hallowed hadd

theorem FailsEach.blames (hs : s.IsCollected root) : ∀ {fuel : Nat} {n? : Option Nonterminal}
    {parts : List (String × Pattern)} {d : Draft} {e : BuildError},
    s.FailsEach fuel n? parts d e →
    ∀ {waiting : List CombinatorId} {owners : List Owner} {seen rest : List CombinatorId},
      s.language.unmade owners + Pattern.weightList (parts.map Prod.snd) ≤ fuel →
      s.Progress root made waiting owners seen
        (Pattern.mentionsList (parts.map Prod.snd) ++ rest) d → s.Blames root e
  | _, _, _, _, _, .head h, _, _, _, _, hfuel, hd => by
      simp only [List.map_cons, Pattern.weightList] at hfuel
      rw [List.map_cons, Pattern.mentionsList, List.append_assoc] at hd
      apply h.blames hs _ hd
      omega
  | _, n?, _, _, _, .tail h hparts, _, _, _, _, hfuel, hd => by
      rw [List.map_cons, Pattern.weightList] at hfuel
      rw [List.map_cons, Pattern.mentionsList, List.append_assoc] at hd
      obtain ⟨owners₁, seen₁, howners, h₁⟩ := h.progress hs hd
      apply hparts.blames hs (allowed_mono _ howners) (h₁.addRule? n? _)
      omega

end

end Source

end CaptureLR

import CaptureLR.Proofs.Language.Fields
import CaptureLR.Proofs.Ordered.Occurrences
import Mathlib.Data.List.Induction

/-!
# Walks read from left to right

A pattern can be unrolled: its instances of combinators are listed from left to right, each followed
by those that it is made of, wherever it stands, but not inside itself. A walk through the pattern
enters no instance twice, whether it met the instance around the place or somewhere before it. Still,
it comes by the instances in the order of their first occurrences when the pattern is unrolled, so it
finds the fields of a class in the order in which the class can be read.
-/

namespace CaptureLR

namespace Language

/-! ### What is read in a class -/

/-- The instances in patterns from left to right, each before those it is made of. An instance that
is open, because the patterns stand in it, is not listed again. -/
def unroll (l : Language) (opened : OrderedSet CombinatorId) : List Pattern → List CombinatorId
  | [] => []
  | .literal _ :: ps => unroll l opened ps
  | .sequence items :: ps => unroll l opened (items ++ ps)
  | .combinator id :: ps =>
      if ho : id ∈ opened then unroll l opened ps
      else if hid : id.index < l.combinators.size then
        id :: (unroll l (opened.insert id) l.combinators[id.index].parts ++ unroll l opened ps)
      else unroll l opened ps
termination_by ps => (missingCount l.combinators.size opened, Pattern.weightList ps)
decreasing_by
  · apply Prod.Lex.right
    simp only [Pattern.weightList, Pattern.weight]
    omega
  · apply Prod.Lex.right
    rw [Pattern.weightList_append]
    simp only [Pattern.weightList, Pattern.weight]
    omega
  · apply Prod.Lex.right
    simp only [Pattern.weightList, Pattern.weight]
    omega
  · apply Prod.Lex.left
    apply missingCount_insert_lt hid ho
  · apply Prod.Lex.right
    simp only [Pattern.weightList, Pattern.weight]
    omega
  · apply Prod.Lex.right
    simp only [Pattern.weightList, Pattern.weight]
    omega

/-- The instances in a class, in the order in which they first occur. -/
def instancesIn (l : Language) (c : ClassId) : List CombinatorId :=
  (OrderedSet.ofList (l.unroll ∅ (l.pattern? c).toList)).toList

/-- An instance that is a match. -/
def match? (l : Language) (id : CombinatorId) : Option Match :=
  match l.combinator? id with
  | some ⟨_, .capture m⟩ => some m
  | _ => none

/-- The matches in a class, in the order in which they first occur. -/
def matchesIn (l : Language) (c : ClassId) : List Match := (l.instancesIn c).filterMap l.match?

/-- The properties that are captured in a class, in the order in which they first occur. -/
def propsIn (l : Language) (c : ClassId) : List String :=
  (OrderedSet.ofList ((l.matchesIn c).filterMap Match.prop)).toList

end Language

/-- The class that a match leads to. -/
def Match.nodeClass? (m : Match) : Option ClassId :=
  match m.target with
  | some (.nodeClass c) => some c
  | _ => none

/-- The classes that the matches in a class lead to, in the order of the matches. -/
def Language.leadsFrom (l : Language) (c : ClassId) : List ClassId :=
  (l.matchesIn c).filterMap Match.nodeClass?

namespace Language

variable {l : Language} {opened visited : OrderedSet CombinatorId} {ps : List Pattern}
  {id : CombinatorId} {c : ClassId} {className : String}

/-! ### What unrolling comes by -/

/-- The visited instances that are not open have been gone through: what they are made of is
covered. -/
structure IsSealed (l : Language) (opened visited : OrderedSet CombinatorId) : Prop where
  mem : ∀ id ∈ opened, id ∈ visited
  covers : ∀ id ∈ visited, id ∉ opened → ∀ comb, l.combinator? id = some comb →
    ∀ p ∈ comb.parts, l.Covers visited p

theorem Covers.mono {visited' : OrderedSet CombinatorId} {p : Pattern} (h : l.Covers visited p)
    (hmem : ∀ id ∈ visited, id ∈ visited') :
  l.Covers visited' p
  := by
  induction h with
  | literal t => exact .literal t
  | sequence _ ih => exact .sequence ih
  | visited h => exact .visited (hmem _ h)
  | dangling h => exact .dangling h

/-- Going into an instance that is visited opens it. -/
theorem IsSealed.reopen (h : l.IsSealed opened visited) (hid : id ∈ visited) :
  l.IsSealed (opened.insert id) visited
  where
  mem id' hid' := by
    rcases OrderedSet.mem_insert.mp hid' with hid' | rfl
    · apply h.mem id' hid'
    · apply hid
  covers id' hid' hopen comb hcomb := by
    rw [OrderedSet.mem_insert, not_or] at hopen
    apply h.covers id' hid' hopen.1 comb hcomb

/-- Going into a new instance opens it. -/
theorem IsSealed.insert (h : l.IsSealed opened visited) (id : CombinatorId) :
  l.IsSealed (opened.insert id) (visited.insert id)
  where
  mem id' hid' := by
    rw [OrderedSet.mem_insert] at hid' ⊢
    apply hid'.imp_left (h.mem id')
  covers id' hid' hopen comb hcomb p hp := by
    rw [OrderedSet.mem_insert, not_or] at hopen
    rw [OrderedSet.mem_insert] at hid'
    apply (h.covers id' (hid'.resolve_right hopen.2) hopen.1 comb hcomb p hp).mono
    intro id'' hid''
    apply OrderedSet.mem_insert.mpr (Or.inl hid'')

/-- An instance is closed when its parts are covered. -/
theorem IsSealed.close (h : l.IsSealed (opened.insert id) visited) {comb : Combinator}
    (hid : l.combinator? id = some comb) (hparts : ∀ p ∈ comb.parts, l.Covers visited p) :
  l.IsSealed opened visited
  where
  mem id' hid' := h.mem id' (OrderedSet.mem_insert.mpr (Or.inl hid'))
  covers id' hid' hopen comb' hcomb' := by
    by_cases heq : id' = id
    · subst heq
      cases hid.symm.trans hcomb'
      apply hparts
    · apply h.covers id' hid' _ comb' hcomb'
      rw [OrderedSet.mem_insert, not_or]
      exact ⟨hopen, heq⟩

/-- Nothing new is unrolled from patterns that are covered. -/
theorem IsSealed.mem_of_mem_unroll (h : l.IsSealed opened visited)
    (hps : ∀ p ∈ ps, l.Covers visited p) :
  ∀ id ∈ l.unroll opened ps, id ∈ visited
  := by
  fun_induction unroll l opened ps with
  | case1 => exact nofun
  | case2 opened t ps ih => apply ih h (List.forall_mem_cons.mp hps).2
  | case3 opened items ps ih =>
      obtain ⟨hitems, hps⟩ := List.forall_mem_cons.mp hps
      cases hitems with
      | sequence hitems =>
          apply ih h
          rw [List.forall_mem_append]
          exact ⟨hitems, hps⟩
  | case4 opened id ps ho ih => apply ih h (List.forall_mem_cons.mp hps).2
  | case5 opened id ps ho hid ihparts ih =>
      obtain ⟨hself, hps⟩ := List.forall_mem_cons.mp hps
      have hcomb : l.combinator? id = some l.combinators[id.index] := Array.getElem?_eq_getElem hid
      cases hself with
      | dangling hnone => cases hnone.symm.trans hcomb
      | visited hv =>
          rw [List.forall_mem_cons, List.forall_mem_append]
          use hv
          use ihparts (h.reopen hv) (h.covers id hv ho _ hcomb)
          apply ih h hps
  | case6 opened id ps ho hid ih => apply ih h (List.forall_mem_cons.mp hps).2

/-- When patterns are unrolled, what is visited covers them. -/
theorem IsSealed.unroll (h : l.IsSealed opened visited) (ps : List Pattern) :
  l.IsSealed opened (visited.insertMany (l.unroll opened ps))
    ∧ ∀ p ∈ ps, l.Covers (visited.insertMany (l.unroll opened ps)) p
  := by
  fun_induction Language.unroll l opened ps generalizing visited with
  | case1 => exact ⟨h, nofun⟩
  | case2 opened t ps ih =>
      obtain ⟨hsealed, hps⟩ := ih h
      exact ⟨hsealed, List.forall_mem_cons.mpr ⟨.literal t, hps⟩⟩
  | case3 opened items ps ih =>
      obtain ⟨hsealed, hps⟩ := ih h
      rw [List.forall_mem_append] at hps
      exact ⟨hsealed, List.forall_mem_cons.mpr ⟨.sequence hps.1, hps.2⟩⟩
  | case4 opened id ps ho ih =>
      obtain ⟨hsealed, hps⟩ := ih h
      exact ⟨hsealed, List.forall_mem_cons.mpr
        ⟨.visited (OrderedSet.mem_insertMany.mpr (Or.inl (h.mem id ho))), hps⟩⟩
  | case5 opened id ps ho hid ihparts ih =>
      have hcomb : l.combinator? id = some l.combinators[id.index] := Array.getElem?_eq_getElem hid
      obtain ⟨hparts, hcovers⟩ := ihparts (h.insert id)
      obtain ⟨hsealed, hps⟩ := ih (hparts.close hcomb hcovers)
      rw [← OrderedSet.insertMany_append] at hsealed hps
      exact ⟨hsealed, List.forall_mem_cons.mpr
        ⟨.visited (OrderedSet.mem_insertMany.mpr (Or.inr List.mem_cons_self)), hps⟩⟩
  | case6 opened id ps ho hid ih =>
      have hnone : l.combinator? id = none := Array.getElem?_eq_none (Nat.le_of_not_lt hid)
      obtain ⟨hsealed, hps⟩ := ih h
      exact ⟨hsealed, List.forall_mem_cons.mpr ⟨.dangling hnone, hps⟩⟩

theorem isSealed_empty (l : Language) :
  l.IsSealed ∅ ∅
  := ⟨fun _ => id, fun _ hid => (List.not_mem_nil hid).elim⟩

/-- Something stands in a class only if the class has a pattern. -/
theorem Inside.exists_pattern {q : Pattern} (h : l.Inside c q) :
  ∃ p, l.pattern? c = some p
  := by
  induction h with
  | body h => exact ⟨_, h⟩
  | item _ _ ih => apply ih
  | part _ _ _ ih => apply ih

/-- The instances in a class are those that stand in it. -/
theorem mem_instancesIn :
  id ∈ l.instancesIn c ↔ l.Inside c (.combinator id) ∧ (l.combinator? id).isSome
  := by
  rw [instancesIn, OrderedSet.mem_ofList]
  constructor
  · intro h
    have hps : ∀ p ∈ (l.pattern? c).toList, l.Inside c p :=
      fun p hp => .body (Option.mem_toList.mp hp)
    revert hps h
    fun_induction unroll l ∅ (l.pattern? c).toList with
    | case1 => exact nofun
    | case2 opened t ps ih =>
        intro h hps
        apply ih h (List.forall_mem_cons.mp hps).2
    | case3 opened items ps ih =>
        intro h hps
        obtain ⟨hitems, hps⟩ := List.forall_mem_cons.mp hps
        apply ih h
        rw [List.forall_mem_append]
        exact ⟨fun p hp => .item hitems hp, hps⟩
    | case4 opened id' ps ho ih =>
        intro h hps
        apply ih h (List.forall_mem_cons.mp hps).2
    | case5 opened id' ps ho hid ihparts ih =>
        intro h hps
        obtain ⟨hself, hps⟩ := List.forall_mem_cons.mp hps
        have hcomb : l.combinator? id' = some l.combinators[id'.index] :=
          Array.getElem?_eq_getElem hid
        rw [List.mem_cons, List.mem_append] at h
        rcases h with rfl | h | h
        · use hself
          rw [hcomb, Option.isSome_some]
        · apply ihparts h (fun p hp => .part hself hcomb hp)
        · apply ih h hps
    | case6 opened id' ps ho hid ih =>
        intro h hps
        apply ih h (List.forall_mem_cons.mp hps).2
  · rintro ⟨hin, hsome⟩
    obtain ⟨hsealed, hbody⟩ := l.isSealed_empty.unroll (l.pattern? c).toList
    obtain ⟨p, hp⟩ := hin.exists_pattern
    have hcovers := hin.covers hp (hbody p (Option.mem_toList.mpr hp))
      (fun id hid => hsealed.covers id hid List.not_mem_nil)
    cases hcovers with
    | visited h => apply (OrderedSet.mem_insertMany.mp h).resolve_left List.not_mem_nil
    | dangling h =>
        rw [h] at hsome
        cases hsome

/-- The matches in a class are those that stand in it. -/
theorem mem_matchesIn {m : Match} :
  m ∈ l.matchesIn c ↔ l.HasMatch c m
  := by
  rw [matchesIn, List.mem_filterMap]
  constructor
  · rintro ⟨id, hid, hm⟩
    unfold match? at hm
    split at hm
    · next name m' hcomb =>
      cases hm
      exact ⟨id, name, (mem_instancesIn.mp hid).1, hcomb⟩
    · cases hm
  · rintro ⟨id, name, hin, hcomb⟩
    refine ⟨id, mem_instancesIn.mpr ⟨hin, ?_⟩, ?_⟩
    · rw [hcomb, Option.isSome_some]
    · rw [match?, hcomb]

end Language

/-! ### What matches have -/

/-- Matches can be had together: they have targets, and they capture no property both as an array and
on its own. -/
structure Match.Agree (ms : List Match) : Prop where
  isSome : ∀ m ∈ ms, m.target.isSome
  flag : ∀ m ∈ ms, ∀ m' ∈ ms, ∀ prop, m.prop = some prop → m'.prop = some prop →
    m.isArray = m'.isArray

namespace Found

variable {className : String} {f f' : Found} {m : Match} {ms ms' : List Match}

/-- The finds with a match. -/
def addMatch (className : String) (f : Found) (m : Match) : Except BuildError Found :=
  f.addCombinator className ⟨none, .capture m⟩

/-- What several matches have. -/
def ofMatches (className : String) (ms : List Match) : Except BuildError Found :=
  ms.foldlM (addMatch className) ⟨∅, []⟩

theorem ofMatches_append (className : String) (ms ms' : List Match) :
  ofMatches className (ms ++ ms')
    = (ofMatches className ms).bind (fun f => ms'.foldlM (addMatch className) f)
  := List.foldlM_append

theorem ofMatches_concat (h : ofMatches className ms = .ok f) (m : Match) :
  ofMatches className (ms ++ [m]) = f.addMatch className m
  := by
  rw [ofMatches_append, h]
  change [m].foldlM (addMatch className) f = _
  rw [List.foldlM_cons]
  apply bind_pure

/-- Matches that cannot be had cannot be had with more of them behind. -/
theorem prefix_ofMatches {e : BuildError} (h : ofMatches className ms = .error e)
    (hp : ms <+: ms') :
  ofMatches className ms' = .error e
  := by
  obtain ⟨more, rfl⟩ := hp
  rw [ofMatches_append, h]
  rfl

/-- The finds are what matches have: properties in the order in which they first occur, under the flags
of the matches, and the classes that the matches lead to. -/
structure Holds (f : Found) (ms : List Match) : Prop where
  keys : f.fields.keys = (OrderedSet.ofList (ms.filterMap Match.prop)).toList
  flag : ∀ m ∈ ms, ∀ prop, m.prop = some prop → f.fields.get? prop = some m.isArray
  classes : f.classes = ms.filterMap Match.nodeClass?
  isSome : ∀ m ∈ ms, m.target.isSome

theorem addProp_keys {isArray : Bool} {prop : String}
    (h : f.addProp className isArray prop = .ok f') :
  f'.classes = f.classes ∧ f'.fields.keys
    = if prop ∈ f.fields.keys then f.fields.keys else f.fields.keys ++ [prop]
  := by
  unfold addProp at h
  split at h
  · cases h
    use rfl
    apply OrderedMap.keys_insert
  · next b hb =>
    split at h
    · cases h
      use rfl
      rw [if_pos (OrderedMap.mem_keys_iff.mpr ⟨b, hb⟩)]
    · cases h

theorem addTarget_classes (h : f.addTarget className m.target = .ok f') :
  f'.fields = f.fields ∧ f'.classes = f.classes ++ m.nodeClass?.toList
  := by
  unfold addTarget at h
  unfold Match.nodeClass?
  split at h
  · cases h
  · next hm =>
    cases h
    rw [hm]
    exact ⟨rfl, rfl⟩
  · next hm =>
    cases h
    rw [hm]
    exact ⟨rfl, (List.append_nil _).symm⟩

/-- A match brings in its property first, and then what it leads to. -/
theorem exists_addTarget (h : f.addMatch className m = .ok f') :
  ∃ f₁ : Found, f₁.addTarget className m.target = .ok f' ∧ f₁.classes = f.classes
    ∧ f₁.fields.keys = match m.prop with
      | none => f.fields.keys
      | some prop => if prop ∈ f.fields.keys then f.fields.keys else f.fields.keys ++ [prop]
  := by
  simp only [addMatch, addCombinator] at h
  cases hprop : m.prop with
  | none =>
      rw [hprop] at h
      exact ⟨f, h, rfl, rfl⟩
  | some prop =>
      rw [hprop] at h
      cases hadd : f.addProp className m.isArray prop with
      | error e =>
          simp only [hadd] at h
          cases h
      | ok f₁ =>
          simp only [hadd] at h
          obtain ⟨hclasses, hkeys⟩ := addProp_keys hadd
          exact ⟨f₁, h, hclasses, hkeys⟩

/-- A match that is found beside others is had together with them. -/
theorem Holds.addMatch (hf : f.Holds ms) (h : f.addMatch className m = .ok f') :
  f'.Holds (ms ++ [m])
  := by
  obtain ⟨hretained, hrecords⟩ := addCombinator_spec h
  obtain ⟨f₁, htarget, hclasses, hkeys⟩ := exists_addTarget h
  obtain ⟨hfields', hclasses'⟩ := addTarget_classes htarget
  refine ⟨?_, ?_, ?_, ?_⟩
  · rw [List.filterMap_append, hfields', hkeys, hf.keys]
    cases hprop : m.prop with
    | none => rw [List.filterMap_cons_none hprop, List.filterMap_nil, List.append_nil]
    | some prop =>
        rw [List.filterMap_cons_some hprop, List.filterMap_nil, OrderedSet.toList_ofList_concat]
  · intro m' hm' prop hprop
    rcases List.mem_append.mp hm' with hm' | hm'
    · apply hretained.fields prop _ (hf.flag m' hm' prop hprop)
    · obtain rfl := List.mem_singleton.mp hm'
      apply hrecords.field m' prop rfl hprop
  · rw [hclasses', hclasses, hf.classes, List.filterMap_append]
    rfl
  · intro m' hm'
    rcases List.mem_append.mp hm' with hm' | hm'
    · apply hf.isSome m' hm'
    · obtain rfl := List.mem_singleton.mp hm'
      apply hrecords.isSome m' rfl

/-- A match with a target is found if it does not contradict what was found before. -/
theorem exists_addMatch (className : String) (hm : m.target.isSome)
    (hflag : ∀ prop b, m.prop = some prop → f.fields.get? prop = some b → b = m.isArray) :
  ∃ f', f.addMatch className m = .ok f'
  := by
  have htarget : ∀ f₁ : Found, ∃ f', f₁.addTarget className m.target = .ok f' := by
    intro f₁
    obtain ⟨t, ht⟩ := Option.isSome_iff_exists.mp hm
    rw [ht]
    cases t with
    | nodeClass d => exact ⟨_, rfl⟩
    | pattern p => exact ⟨_, rfl⟩
  simp only [addMatch, addCombinator]
  cases hprop : m.prop with
  | none => apply htarget f
  | some prop =>
      obtain ⟨f₁, hadd⟩ : ∃ f₁, f.addProp className m.isArray prop = .ok f₁ := by
        unfold addProp
        cases hb : f.fields.get? prop with
        | none => exact ⟨_, rfl⟩
        | some b => exact ⟨f, if_pos (hflag prop b hprop hb)⟩
      simp only [hadd]
      apply htarget f₁

/-- What is found of matches is what they have. -/
theorem holds_of_ofMatches (h : ofMatches className ms = .ok f) :
  f.Holds ms
  := by
  induction ms using List.reverseRecOn generalizing f with
  | nil =>
      cases h
      exact ⟨rfl, nofun, rfl, nofun⟩
  | append_singleton ms m ih =>
      cases hms : ofMatches className ms with
      | error e => cases h.symm.trans (prefix_ofMatches hms (List.prefix_append ms [m]))
      | ok f₁ =>
          rw [ofMatches_concat hms] at h
          apply (ih hms).addMatch h

/-- Matches that agree are had together. -/
theorem exists_ofMatches (className : String) (h : Match.Agree ms) :
  ∃ f, ofMatches className ms = .ok f
  := by
  induction ms using List.reverseRecOn with
  | nil => exact ⟨_, rfl⟩
  | append_singleton ms m ih =>
      have hmem : ∀ m' ∈ ms, m' ∈ ms ++ [m] := fun m' => List.mem_append_left [m]
      have hlast : m ∈ ms ++ [m] := List.mem_append_right ms (List.mem_singleton_self m)
      obtain ⟨f, hf⟩ := ih ⟨fun m' hm' => h.isSome m' (hmem m' hm'), fun m' hm' m'' hm'' =>
        h.flag m' (hmem m' hm') m'' (hmem m'' hm'')⟩
      have hholds := holds_of_ofMatches hf
      obtain ⟨f', hf'⟩ := exists_addMatch (f := f) className (h.isSome m hlast) (by
        intro prop b hprop hb
        have hkey : prop ∈ f.fields.keys := OrderedMap.mem_keys_iff.mpr ⟨b, hb⟩
        rw [hholds.keys, OrderedSet.mem_ofList] at hkey
        obtain ⟨m', hm', hprop'⟩ := List.mem_filterMap.mp hkey
        cases hb.symm.trans (hholds.flag m' hm' prop hprop')
        apply h.flag m' (hmem m' hm') m hlast prop hprop' hprop)
      use f'
      rw [ofMatches_concat hf, hf']

end Found

namespace Language

variable {l : Language} {opened visited : OrderedSet CombinatorId} {id : CombinatorId}
  {className : String} {f : Found}

/-! ### What walks find -/

/-- What the visited instances have. -/
def meet (l : Language) (className : String) (visited : OrderedSet CombinatorId) :
    Except BuildError Found :=
  Found.ofMatches className (visited.toList.filterMap l.match?)

theorem meet_insert {comb : Combinator} (hid : l.combinator? id = some comb) (hv : id ∉ visited)
    (hf : l.meet className visited = .ok f) :
  l.meet className (visited.insert id) = f.addCombinator className comb
  := by
  rw [meet, OrderedSet.toList_insert, if_neg hv, List.filterMap_append]
  obtain ⟨name, shape⟩ := comb
  cases shape with
  | capture m =>
      have hm : l.match? id = some m := by rw [match?, hid]
      rw [List.filterMap_cons_some hm, List.filterMap_nil, Found.ofMatches_concat hf]
      rfl
  | choice branches =>
      have hm : l.match? id = none := by rw [match?, hid]
      rw [List.filterMap_cons_none hm, List.filterMap_nil, List.append_nil]
      apply hf
  | repetition r =>
      have hm : l.match? id = none := by rw [match?, hid]
      rw [List.filterMap_cons_none hm, List.filterMap_nil, List.append_nil]
      apply hf

/-- If what is visited cannot be had, it cannot be had with more. -/
theorem meet_insertMany {e : BuildError} (h : l.meet className visited = .error e)
    (ids : List CombinatorId) :
  l.meet className (visited.insertMany ids) = .error e
  := by
  apply Found.prefix_ofMatches h
  apply List.IsPrefix.filterMap
  apply OrderedSet.prefix_insertMany

/-- A walk comes by the instances that its patterns are unrolled to, and goes on with the rest of its
stack. -/
theorem walk_append (ps : List Pattern) (hs : l.IsSealed opened visited)
    (hf : l.meet className visited = .ok f) (stack : List Pattern) :
  l.walk className visited f (ps ++ stack)
    = (l.meet className (visited.insertMany (l.unroll opened ps))).bind
        (fun f' => l.walk className (visited.insertMany (l.unroll opened ps)) f' stack)
  := by
  fun_induction unroll l opened ps generalizing visited f stack with
  | case1 opened =>
      change _ = (l.meet className visited).bind (fun f' => l.walk className visited f' stack)
      rw [hf]
      rfl
  | case2 opened t ps ih =>
      rw [List.cons_append, walk]
      apply ih hs hf
  | case3 opened items ps ih =>
      rw [List.cons_append, walk, ← List.append_assoc]
      apply ih hs hf
  | case4 opened id ps ho ih =>
      rw [List.cons_append, walk, dif_pos (hs.mem id ho)]
      apply ih hs hf
  | case5 opened id ps ho hid ihparts ih =>
      have hcomb : l.combinator? id = some l.combinators[id.index] := Array.getElem?_eq_getElem hid
      have hmany : visited.insertMany (id :: (l.unroll (opened.insert id)
            l.combinators[id.index].parts ++ l.unroll opened ps))
          = ((visited.insert id).insertMany (l.unroll (opened.insert id)
            l.combinators[id.index].parts)).insertMany (l.unroll opened ps) :=
        OrderedSet.insertMany_append (visited.insert id) _ _
      rw [List.cons_append, walk, hmany]
      by_cases hv : id ∈ visited
      · -- the instance was met before, and so was all that it is made of
        rw [dif_pos hv, OrderedSet.insert_of_mem hv, OrderedSet.insertMany_of_forall_mem
          ((hs.reopen hv).mem_of_mem_unroll (hs.covers id hv ho _ hcomb))]
        apply ih hs hf
      · rw [dif_neg hv, dif_pos hid]
        have hinsert := meet_insert hcomb hv hf
        have hparts := (hs.insert id).unroll l.combinators[id.index].parts
        cases hadd : f.addCombinator className l.combinators[id.index] with
        | error e =>
            rw [hadd] at hinsert
            simp only [hadd]
            rw [meet_insertMany (meet_insertMany hinsert _)]
            rfl
        | ok f₁ =>
            rw [hadd] at hinsert
            simp only [hadd]
            rw [ihparts (hs.insert id) hinsert]
            cases hmeet : l.meet className ((visited.insert id).insertMany
                (l.unroll (opened.insert id) l.combinators[id.index].parts)) with
            | error e =>
                rw [meet_insertMany hmeet]
                rfl
            | ok f₂ =>
                change l.walk className _ f₂ (ps ++ stack) = _
                apply ih (hparts.1.close hcomb hparts.2) hmeet
  | case6 opened id ps ho hid ih =>
      rw [List.cons_append, walk]
      split
      · apply ih hs hf
      · apply ih hs hf

/-- The walk through the pattern of a class finds what the matches in the class have. -/
theorem walk_eq_ofMatches {c : ClassId} {p : Pattern} (hp : l.pattern? c = some p)
    (className : String) :
  l.walk className ∅ ⟨∅, []⟩ [p] = Found.ofMatches className (l.matchesIn c)
  := by
  have hnone : l.meet className ∅ = .ok ⟨∅, []⟩ := rfl
  have hwalk := walk_append [p] l.isSealed_empty hnone []
  rw [List.append_nil] at hwalk
  rw [hwalk, matchesIn, instancesIn, hp]
  change _ = l.meet className ((∅ : OrderedSet CombinatorId).insertMany (l.unroll ∅ [p]))
  cases l.meet className ((∅ : OrderedSet CombinatorId).insertMany (l.unroll ∅ [p])) with
  | error e => rfl
  | ok f =>
      change l.walk className _ f [] = _
      rw [walk]

end Language

end CaptureLR

import CaptureLR.ClassTable
import Mathlib.Logic.Relation

/-!
# The fields of classes

The walk through the pattern of a class meets every match that stands in it, so what the match
captures under a property is a field of the class, and whether the field is an array is what the
match says. The walk does not go on into the classes that matches lead to, though a match without
a property passes on what is captured in its class.
-/

namespace CaptureLR

/-! ### What stands in a class -/

namespace Language

/-- A pattern stands in a class: it is the pattern of the class, or an item or a part of a pattern
that stands there. -/
inductive Inside (l : Language) (c : ClassId) : Pattern → Prop
  | body {p : Pattern} (h : l.pattern? c = some p) : Inside l c p
  | item {items : List Pattern} {p : Pattern} (h : Inside l c (.sequence items)) (hp : p ∈ items) :
      Inside l c p
  | part {id : CombinatorId} {comb : Combinator} {p : Pattern} (h : Inside l c (.combinator id))
      (hid : l.combinator? id = some comb) (hp : p ∈ comb.parts) :
      Inside l c p

/-- A match stands in a class. -/
def HasMatch (l : Language) (c : ClassId) (m : Match) : Prop :=
  ∃ id name, l.Inside c (.combinator id) ∧ l.combinator? id = some ⟨name, .capture m⟩

/-- What is captured in a class is passed on to a class: a match without a property stands in this
and leads to that. -/
def Includes (l : Language) (c d : ClassId) : Prop :=
  ∃ m, l.HasMatch c m ∧ m.prop = none ∧ m.target = some (.nodeClass d)

/-- What is captured in a class is passed on to a class through any number of matches. -/
def Flows (l : Language) : ClassId → ClassId → Prop := Relation.ReflTransGen l.Includes

/-- A class gathers a property, as an array or on its own: a match captures it so in the class or in
one whose captures flow into it. -/
def Gathers (l : Language) (c : ClassId) (prop : String) (isArray : Bool) : Prop :=
  ∃ d m, l.Flows c d ∧ l.HasMatch d m ∧ m.prop = some prop ∧ m.isArray = isArray

end Language

/-! ### Walks -/

/-- Everything that is found first is still found, properties under the same flags. -/
structure Found.Retained (f f' : Found) : Prop where
  fields : ∀ prop b, f.fields.get? prop = some b → f'.fields.get? prop = some b
  classes : ∀ c ∈ f.classes, c ∈ f'.classes

/-- What a combinator captures is found, and so is the class it leads to; a match has a target. -/
structure Found.Records (f : Found) (c : Combinator) : Prop where
  field : ∀ m prop, c.shape = .capture m → m.prop = some prop →
    f.fields.get? prop = some m.isArray
  target : ∀ m d, c.shape = .capture m → m.target = some (.nodeClass d) → d ∈ f.classes
  isSome : ∀ m, c.shape = .capture m → m.target.isSome

namespace Found

variable {f f' f'' : Found} {className : String}

theorem Retained.refl (f : Found) :
  f.Retained f
  := ⟨fun _ _ => id, fun _ => id⟩

theorem Retained.trans (h : f.Retained f') (h' : f'.Retained f'') :
  f.Retained f''
  := ⟨fun prop b hb => h'.fields prop b (h.fields prop b hb), fun c hc => h'.classes c (h.classes c hc)⟩

theorem Records.retain {c : Combinator} (h : f.Records c) (hf : f.Retained f') :
  f'.Records c
  := ⟨fun m prop hm hp => hf.fields prop _ (h.field m prop hm hp),
    fun m d hm hd => hf.classes d (h.target m d hm hd), h.isSome⟩

theorem addProp_spec {isArray : Bool} {prop : String}
    (h : f.addProp className isArray prop = .ok f') :
  f.Retained f' ∧ f'.fields.get? prop = some isArray
  := by
  unfold addProp at h
  split at h
  · next hnone =>
    cases h
    refine ⟨⟨?_, fun _ => id⟩, ?_⟩
    · intro q b hq
      rw [OrderedMap.get?_insert, if_neg, hq]
      rintro rfl
      cases hnone.symm.trans hq
    · rw [OrderedMap.get?_insert, if_pos rfl]
  · next b hb =>
    split at h
    · next heq =>
      cases h
      exact ⟨.refl f, heq ▸ hb⟩
    · cases h

theorem addTarget_spec {t : Option Target} (h : f.addTarget className t = .ok f') :
  f.Retained f' ∧ (∀ d, t = some (.nodeClass d) → d ∈ f'.classes) ∧ t.isSome
  := by
  unfold addTarget at h
  split at h
  · cases h
  · cases h
    refine ⟨⟨fun _ _ => id, fun _ => List.mem_append_left _⟩, ?_, rfl⟩
    rintro d hd
    cases hd
    apply List.mem_append_right _ (List.mem_singleton_self _)
  · cases h
    exact ⟨.refl f, nofun, rfl⟩

/-- What stands directly in a combinator is found, or it contradicts what was found before. -/
theorem addCombinator_spec {c : Combinator} (h : f.addCombinator className c = .ok f') :
  f.Retained f' ∧ f'.Records c
  := by
  unfold addCombinator at h
  split at h
  · next m hm =>
    have heq : ∀ m', c.shape = .capture m' → m = m' := by
      intro m' hm'
      cases hm.symm.trans hm'
      rfl
    split at h
    · next prop hprop =>
      cases hadd : f.addProp className m.isArray prop with
      | error e =>
          rw [hadd] at h
          cases h
      | ok f₁ =>
          rw [hadd] at h
          obtain ⟨hretained, hfound⟩ := addProp_spec hadd
          obtain ⟨hretained', htarget, hsome⟩ := addTarget_spec h
          refine ⟨hretained.trans hretained', ?_, ?_, ?_⟩
          · intro m' prop' hm' hprop'
            obtain rfl := heq m' hm'
            cases hprop.symm.trans hprop'
            apply hretained'.fields prop _ hfound
          · intro m' d hm' hd
            obtain rfl := heq m' hm'
            apply htarget d hd
          · intro m' hm'
            obtain rfl := heq m' hm'
            apply hsome
    · next hprop =>
      obtain ⟨hretained, htarget, hsome⟩ := addTarget_spec h
      refine ⟨hretained, ?_, ?_, ?_⟩
      · intro m' prop' hm' hprop'
        obtain rfl := heq m' hm'
        cases hprop.symm.trans hprop'
      · intro m' d hm' hd
        obtain rfl := heq m' hm'
        apply htarget d hd
      · intro m' hm'
        obtain rfl := heq m' hm'
        apply hsome
  · next hother =>
    cases h
    exact ⟨.refl f, fun m _ hm => (hother m hm).elim, fun m _ hm => (hother m hm).elim,
      fun m hm => (hother m hm).elim⟩

end Found

namespace Language

variable {l : Language} {visited visited' : OrderedSet CombinatorId} {p : Pattern}

/-- The instances that a pattern is made of are visited, but for numbers that name none. -/
inductive Covers (l : Language) (visited : OrderedSet CombinatorId) : Pattern → Prop
  | literal (t : Terminal) : Covers l visited (.literal t)
  | sequence {items : List Pattern} (h : ∀ p ∈ items, Covers l visited p) :
      Covers l visited (.sequence items)
  | visited {id : CombinatorId} (h : id ∈ visited) : Covers l visited (.combinator id)
  | dangling {id : CombinatorId} (h : l.combinator? id = none) : Covers l visited (.combinator id)

/-- A walk from some visited instances to more of them: what a new one captures is found, and its
parts are covered. -/
structure Walked (l : Language) (visited visited' : OrderedSet CombinatorId) (f f' : Found) :
    Prop where
  mono : ∀ id ∈ visited, id ∈ visited'
  retained : f.Retained f'
  met : ∀ id ∈ visited', id ∈ visited ∨ ∀ comb, l.combinator? id = some comb →
    f'.Records comb ∧ ∀ p ∈ comb.parts, l.Covers visited' p

/-- A walk covers all patterns of its stack. -/
theorem exists_walked {className : String} {f f' : Found} {stack : List Pattern}
    (h : l.walk className visited f stack = .ok f') :
  ∃ visited', l.Walked visited visited' f f' ∧ ∀ p ∈ stack, l.Covers visited' p
  := by
  fun_induction Language.walk l className visited f stack with
  | case1 visited f =>
      cases h
      exact ⟨visited, ⟨fun _ => id, .refl _, fun _ => Or.inl⟩, nofun⟩
  | case2 visited f t stack ih =>
      obtain ⟨visited', hwalked, hcovers⟩ := ih h
      exact ⟨visited', hwalked, List.forall_mem_cons.mpr ⟨.literal t, hcovers⟩⟩
  | case3 visited f items stack ih =>
      obtain ⟨visited', hwalked, hcovers⟩ := ih h
      rw [List.forall_mem_append] at hcovers
      exact ⟨visited', hwalked, List.forall_mem_cons.mpr ⟨.sequence hcovers.1, hcovers.2⟩⟩
  | case4 visited f id stack hv ih =>
      obtain ⟨visited', hwalked, hcovers⟩ := ih h
      exact ⟨visited', hwalked,
        List.forall_mem_cons.mpr ⟨.visited (hwalked.mono id hv), hcovers⟩⟩
  | case5 visited f id stack hv hid comb e he => cases h
  | case6 visited f id stack hv hid comb f₁ hf₁ ih =>
      obtain ⟨visited', hwalked, hcovers⟩ := ih h
      rw [List.forall_mem_append] at hcovers
      obtain ⟨hretained, hrecords⟩ := Found.addCombinator_spec hf₁
      have hself : id ∈ visited.insert id := OrderedSet.mem_insert.mpr (Or.inr rfl)
      refine ⟨visited', ⟨?_, hretained.trans hwalked.retained, ?_⟩, List.forall_mem_cons.mpr
        ⟨.visited (hwalked.mono id hself), hcovers.2⟩⟩
      · intro id' hid'
        apply hwalked.mono id' (OrderedSet.mem_insert.mpr (Or.inl hid'))
      · intro id' hid'
        rcases hwalked.met id' hid' with hold | hnew
        · rcases OrderedSet.mem_insert.mp hold with hold | rfl
          · exact Or.inl hold
          · right
            intro comb' hcomb'
            obtain rfl : comb = comb' :=
              Option.some.inj ((Array.getElem?_eq_getElem hid).symm.trans hcomb')
            exact ⟨hrecords.retain hwalked.retained, hcovers.1⟩
        · exact Or.inr hnew
  | case7 visited f id stack hv hid ih =>
      obtain ⟨visited', hwalked, hcovers⟩ := ih h
      have hnone : l.combinator? id = none := Array.getElem?_eq_none (Nat.le_of_not_lt hid)
      exact ⟨visited', hwalked, List.forall_mem_cons.mpr ⟨.dangling hnone, hcovers⟩⟩

/-- Instances whose parts are covered cover all that stands in a class if they cover its pattern. -/
theorem Inside.covers {c : ClassId} {q : Pattern} (hq : l.Inside c q) (hp : l.pattern? c = some p)
    (hc : l.Covers visited p)
    (hparts : ∀ id ∈ visited, ∀ comb, l.combinator? id = some comb →
      ∀ p ∈ comb.parts, l.Covers visited p) :
  l.Covers visited q
  := by
  induction hq with
  | body h =>
      cases hp.symm.trans h
      apply hc
  | item _ hmem ih =>
      cases ih with
      | sequence h => apply h _ hmem
  | part _ hid hmem ih =>
      cases ih with
      | visited h => apply hparts _ h _ hid _ hmem
      | dangling h => cases h.symm.trans hid

/-- A walk through the pattern of a class finds what the matches in the class capture and the classes
they lead to. -/
theorem HasMatch.exists_records {c : ClassId} {m : Match} (hm : l.HasMatch c m)
    (hp : l.pattern? c = some p) {className : String} {f : Found}
    (h : l.walk className ∅ ⟨∅, []⟩ [p] = .ok f) :
  ∃ name, f.Records ⟨name, .capture m⟩
  := by
  obtain ⟨visited, hwalked, hcovers⟩ := exists_walked h
  have hmet : ∀ id ∈ visited, ∀ comb, l.combinator? id = some comb →
      f.Records comb ∧ ∀ p ∈ comb.parts, l.Covers visited p :=
    fun id hid => (hwalked.met id hid).resolve_left (List.not_mem_nil)
  obtain ⟨id, name, hin, hid⟩ := hm
  have hc := hin.covers hp (hcovers p (List.mem_singleton_self p))
    (fun id hid comb h => (hmet id hid comb h).2)
  cases hc with
  | visited h => exact ⟨name, (hmet id h _ hid).1⟩
  | dangling h => cases h.symm.trans hid

end Language

/-! ### Class tables -/

namespace ClassTable

variable {l : Language}

/-- A class that is examined without an error is added, and the classes it leads to are queued. -/
theorem collectQueue_cons {t : ClassTable} {c : ClassId} {queue : List ClassId} {d : ClassDecl}
    {found : Found} (hc : ¬ t.classes.contains c = true) (hd : l.classes[c.index]? = some d)
    (he : t.examine l d = .ok found) :
  t.collectQueue l (c :: queue)
    = collectQueue l ⟨t.classes.insert c ⟨c, d.name, d.hidden, found.fields⟩⟩
        (queue ++ found.classes)
  := by
  obtain ⟨hlt, rfl⟩ := Array.getElem?_eq_some_iff.mp hd
  rw [collectQueue, dif_neg hc, dif_pos hlt]
  simp only [he]

/-- The fields of the classes are what walks through their patterns find, and the classes that are
found there are in the table, or they are in the queue. -/
def IsWalked (l : Language) (t : ClassTable) (queue : List ClassId) : Prop :=
  ∀ c n, t.get? c = some n → ∃ p f, l.pattern? c = some p
    ∧ l.walk n.name ∅ ⟨∅, []⟩ [p] = .ok f ∧ n.fields = f.fields
    ∧ ∀ d ∈ f.classes, (t.get? d).isSome ∨ d ∈ queue

/-- A class that is examined is in the table with what was found, and the classes that were found are
in the queue. -/
theorem IsWalked.insert {t : ClassTable} {c : ClassId} {queue : List ClassId} {d : ClassDecl}
    {found : Found} (ht : t.IsWalked l (c :: queue)) (hd : l.classes[c.index]? = some d)
    (he : t.examine l d = .ok found) :
  IsWalked l ⟨t.classes.insert c ⟨c, d.name, d.hidden, found.fields⟩⟩ (queue ++ found.classes)
  := by
  have hget : ∀ n c', get? ⟨t.classes.insert c n⟩ c' = if c' = c then some n else t.get? c' :=
    fun n c' => OrderedMap.get?_insert t.classes c c' n
  intro c' n hn
  rw [hget] at hn
  simp only [hget]
  split at hn
  · next heq =>
    cases hn
    subst heq
    unfold examine at he
    split at he
    · cases he
    · next p hp =>
      split at he
      · cases he
      · refine ⟨p, found, ?_, he, rfl, fun d' hd' => Or.inr (List.mem_append_right _ hd')⟩
        rw [Language.pattern?, hd]
        apply hp
  · obtain ⟨p, f, hp, hwalk, hfields, hclasses⟩ := ht c' n hn
    refine ⟨p, f, hp, hwalk, hfields, ?_⟩
    intro d' hd'
    split
    · exact Or.inl rfl
    · next hne =>
      apply (hclasses d' hd').imp_right
      intro hmem
      apply List.mem_append_left _ ((List.mem_cons.mp hmem).resolve_left hne)

theorem IsWalked.collectQueue {t t' : ClassTable} {queue : List ClassId} (ht : t.IsWalked l queue)
    (h : t.collectQueue l queue = .ok t') :
  t'.IsWalked l []
  := by
  fun_induction ClassTable.collectQueue l t queue with
  | case1 t =>
      cases h
      apply ht
  | case2 t c queue hc ih =>
      apply ih _ h
      intro c' n hn
      obtain ⟨p, f, hp, hwalk, hfields, hclasses⟩ := ht c' n hn
      refine ⟨p, f, hp, hwalk, hfields, ?_⟩
      intro d hd
      rcases hclasses d hd with hd | hd
      · exact Or.inl hd
      · rcases List.mem_cons.mp hd with rfl | hd
        · exact Or.inl hc
        · exact Or.inr hd
  | case3 t c queue hc hlt d e he => cases h
  | case4 t c queue hc hlt d found he ih =>
      apply ih _ h
      apply ht.insert (Array.getElem?_eq_getElem hlt) he
  | case5 t c queue hc hlt => cases h

section Collected

variable {root c : ClassId} {classes : ClassTable} (h : collect l root = .ok classes) {n : NodeClass}
  (hn : classes.get? c = some n)

include h hn

/-- What a match in a class captures is among the fields of the class, and the class it leads to is
in the table. -/
theorem exists_records {m : Match} (hm : l.HasMatch c m) :
  ∃ name, ∃ f : Found, f.Records ⟨name, .capture m⟩ ∧ n.fields = f.fields
    ∧ ∀ d ∈ f.classes, (classes.get? d).isSome
  := by
  have hwalked : classes.IsWalked l [] := by
    apply IsWalked.collectQueue _ h
    intro c n hn
    cases hn
  obtain ⟨p, f, hp, hwalk, hfields, hclasses⟩ := hwalked c n hn
  obtain ⟨name, hrecords⟩ := hm.exists_records hp hwalk
  exact ⟨name, f, hrecords, hfields, fun d hd => (hclasses d hd).resolve_right List.not_mem_nil⟩

/-- What a match in a class captures is a field of the class, and an array exactly if the match
captures it for one. -/
theorem get?_fields_of_hasMatch {m : Match} (hm : l.HasMatch c m) {prop : String}
    (hprop : m.prop = some prop) :
  n.fields.get? prop = some m.isArray
  := by
  obtain ⟨name, f, hrecords, hfields, -⟩ := exists_records h hn hm
  rw [hfields]
  apply hrecords.field m prop rfl hprop

/-- The classes whose captures flow into a class of the table are in the table. -/
theorem exists_of_flows {d : ClassId} (hf : l.Flows c d) :
  ∃ n', classes.get? d = some n'
  := by
  induction hf with
  | refl => exact ⟨n, hn⟩
  | tail _ hincludes ih =>
      obtain ⟨n', hn'⟩ := ih
      obtain ⟨m, hm, -, htarget⟩ := hincludes
      obtain ⟨name, f, hrecords, -, hclasses⟩ := exists_records h hn' hm
      apply Option.isSome_iff_exists.mp (hclasses _ (hrecords.target m _ rfl htarget))

/-- What a class gathers is a field of the class, or of one whose captures flow into it. -/
theorem exists_field_of_gathers {prop : String} {isArray : Bool} (hg : l.Gathers c prop isArray) :
  ∃ d n', l.Flows c d ∧ classes.get? d = some n' ∧ n'.fields.get? prop = some isArray
  := by
  obtain ⟨d, m, hf, hm, hprop, rfl⟩ := hg
  obtain ⟨n', hn'⟩ := exists_of_flows h hn hf
  exact ⟨d, n', hf, hn', get?_fields_of_hasMatch h hn' hm hprop⟩

end Collected

end ClassTable

end CaptureLR

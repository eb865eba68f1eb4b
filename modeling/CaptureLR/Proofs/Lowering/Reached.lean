import CaptureLR.Lowering.Owner
import CaptureLR.Proofs.Language.Fields
import CaptureLR.Proofs.Lowering.Readings

/-!
# What lowering comes by is collected

Lowering comes by no class that was not collected and by no match without a target: a body that it
goes through stands in a class that was collected, and the walk through the pattern of the class
met everything that stands there.
-/

namespace CaptureLR

variable {l : Language} {root : ClassId}

/-! ### Mentioned instances -/

namespace Pattern

mutual

/-- The instances mentioned by a pattern of a class stand in the class. -/
theorem inside_of_mem_mentions {c : ClassId} :
  ∀ {p : Pattern} {id : CombinatorId}, l.Inside c p → id ∈ p.mentions → l.Inside c (.combinator id)
  | .literal _, _, _, hid => nomatch hid
  | .sequence items, id, h, hid => by
      rw [mentions] at hid
      apply inside_of_mem_mentionsList (fun p hp => h.item hp) hid
  | .combinator id', id, h, hid => by
      rw [mentions, List.mem_singleton] at hid
      rw [hid]
      apply h

theorem inside_of_mem_mentionsList {c : ClassId} :
  ∀ {ps : List Pattern} {id : CombinatorId}, (∀ p ∈ ps, l.Inside c p) → id ∈ mentionsList ps →
    l.Inside c (.combinator id)
  | [], _, _, hid => nomatch hid
  | p :: ps, id, h, hid => by
      rw [mentionsList, List.mem_append] at hid
      rw [List.forall_mem_cons] at h
      rcases hid with hid | hid
      · apply inside_of_mem_mentions h.1 hid
      · apply inside_of_mem_mentionsList h.2 hid

end

end Pattern

/-- Lowering goes through parts of a combinator only. -/
theorem Combinator.mem_parts_of_mem_entered {c : Combinator} {p : Pattern} (h : p ∈ c.entered) :
  p ∈ c.parts
  := by
  unfold entered at h
  split at h
  · split at h
    · cases h
    · apply h
  · apply h

/-! ### Collected classes -/

namespace ClassTable

/-- A table that is collected has the classes of the queue and those it had before. -/
theorem isSome_of_collectQueue {t t' : ClassTable} {queue : List ClassId}
    (h : t.collectQueue l queue = .ok t') :
  (∀ c ∈ queue, (t'.get? c).isSome) ∧ ∀ c, (t.get? c).isSome → (t'.get? c).isSome
  := by
  fun_induction ClassTable.collectQueue l t queue with
  | case1 t =>
      cases h
      exact ⟨fun c hc => absurd hc List.not_mem_nil, fun _ => id⟩
  | case2 t c queue hc ih =>
      obtain ⟨hqueue, hold⟩ := ih h
      exact ⟨List.forall_mem_cons.mpr ⟨hold c hc, hqueue⟩, hold⟩
  | case3 t c queue hc hlt d e he => cases h
  | case4 t c queue hc hlt d found he ih =>
      obtain ⟨hqueue, hold⟩ := ih h
      rw [List.forall_mem_append] at hqueue
      have hget : ∀ n c', get? ⟨t.classes.insert c n⟩ c' = if c' = c then some n else t.get? c' :=
        fun n c' => OrderedMap.get?_insert t.classes c c' n
      simp only [hget] at hold
      constructor
      · rw [List.forall_mem_cons]
        use hold c (by rw [if_pos rfl]; rfl)
        apply hqueue.1
      · intro c' hc'
        apply hold
        split
        · rfl
        · apply hc'
  | case5 t c queue hc hlt => cases h

end ClassTable

/-- What lowering comes by was collected: its classes are in the table, under themselves, and have
patterns, and its matches have targets. -/
structure Source.IsCollected (s : Source) (root : ClassId) : Prop where
  identifies : s.Identifies
  nodeClass : ∀ c, s.language.Reaches root (.nodeClass c) → ∃ n, s.classes.get? c = some n
  pattern : ∀ c, s.language.Reaches root (.nodeClass c) → ∃ p, s.language.pattern? c = some p
  target : ∀ id name m, s.language.Reaches root (.combinator id) →
    s.language.combinator? id = some ⟨name, .capture m⟩ → ∃ t, m.target = some t

/-- The classes that lowering comes by are in the table, and the instances stand in such classes. -/
def Source.Holds (s : Source) : Owner → Prop
  | .nodeClass c => ∃ n, s.classes.get? c = some n
  | .combinator id => ∃ c n, s.classes.get? c = some n ∧ s.language.Inside c (.combinator id)
  | _ => True

section Collected

variable {classes : ClassTable} (h : ClassTable.collect l root = .ok classes)

include h

theorem Source.holds_of_reaches {o : Owner} (ho : l.Reaches root o) :
  Source.Holds ⟨l, classes⟩ o
  := by
  induction ho with
  | start => trivial
  | root => trivial
  | rootClass =>
      apply Option.isSome_iff_exists.mp
      apply (ClassTable.isSome_of_collectQueue h).1 root (List.mem_singleton_self _)
  | @mention o id _ _ hid hc ih =>
      cases o with
      | start => cases hid
      | root => cases hid
      | loop => cases hid
      | nodeClass c =>
          obtain ⟨n, hn⟩ := ih
          rw [Language.mentions] at hid
          split at hid
          · next p hp => exact ⟨c, n, hn, Pattern.inside_of_mem_mentions (.body hp) hid⟩
          · cases hid
      | combinator id' =>
          obtain ⟨c, n, hn, hin⟩ := ih
          rw [Language.mentions] at hid
          split at hid
          · next comb hcomb =>
            refine ⟨c, n, hn, Pattern.inside_of_mem_mentionsList (fun p hp => ?_) hid⟩
            apply hin.part hcomb (Combinator.mem_parts_of_mem_entered hp)
          · cases hid
  | @target id name m d _ hid hm ih =>
      obtain ⟨c, n, hn, hin⟩ := ih
      obtain ⟨name', f, hrecords, -, hclasses⟩ :=
        ClassTable.exists_records h hn ⟨id, name, hin, hid⟩
      apply Option.isSome_iff_exists.mp
      apply hclasses d (hrecords.target m d rfl hm)
  | loop => trivial

/-- What lowering comes by was collected. -/
theorem Source.isCollected_of_collect :
  Source.IsCollected ⟨l, classes⟩ root
  where
  identifies := identifies_of_collect h
  nodeClass c hc := holds_of_reaches h hc
  pattern c hc := by
    obtain ⟨n, hn⟩ := holds_of_reaches h hc
    have hwalked : classes.IsWalked l [] := by
      apply ClassTable.IsWalked.collectQueue _ h
      intro c n hn
      cases hn
    obtain ⟨p, -, hp, -⟩ := hwalked c n hn
    exact ⟨p, hp⟩
  target id name m hid hm := by
    obtain ⟨c, n, hn, hin⟩ := holds_of_reaches h hid
    obtain ⟨name', f, hrecords, -⟩ := ClassTable.exists_records h hn ⟨id, name, hin, hm⟩
    apply Option.isSome_iff_exists.mp (hrecords.isSome m rfl)

end Collected

end CaptureLR

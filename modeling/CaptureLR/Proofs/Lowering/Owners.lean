import CaptureLR.Proofs.Lowering.Visits

/-!
# What is lowered

A language whose classes are collected is lowered exactly if no instance without a name is come by
in two places and no match captures a class standing for an array as a single value; there is no
other error. The nonterminals of the grammar are then those of what lowering comes by, one for each,
and the start symbol has the start rule for its only one.
-/

namespace CaptureLR

variable {s : Source} {l : Language} {root : ClassId} {made : List ClassId} {owners : List Owner}
  {seen : List CombinatorId} {d : Draft}

/-! ### Pending classes -/

/-- Keys that differ and have values are no more than there are entries. -/
theorem OrderedMap.length_le_size {κ ν : Type} [DecidableEq κ] {m : OrderedMap κ ν} {ks : List κ}
    (hnodup : ks.Nodup) (h : ∀ k ∈ ks, ∃ x, m.get? k = some x) :
  ks.length ≤ m.size
  := by
  have hsub : ks ⊆ m.keys := fun k hk => mem_keys_iff.mpr (h k hk)
  apply Nat.le_trans (hnodup.subperm hsub).length_le
  rw [keys, List.length_map, size]

namespace Source

/-- The body of the class that is pending first is got past. -/
theorem Progress.lowerClass (hs : s.IsCollected root)
    (hd : s.Progress root made [] owners seen [] d) {c : ClassId} {n : Nonterminal}
    {pending : List (ClassId × Nonterminal)} (hpending : d.pending = (c, n) :: pending)
    {p : Pattern} (hp : s.language.pattern? c = some p) {context : String} {e : List Symbol}
    {d' : Draft} (h : s.Lowers context p { d with pending } e d') :
  ∃ owners' seen', owners <+: owners'
    ∧ s.Progress root (made ++ [c]) [] owners' seen' [] (d'.addRule n e)
  := by
  have hbegun := hd.beginClass hpending
  simp only [Language.mentions, hp] at hbegun
  obtain ⟨owners', seen', howners, h'⟩ := h.progress hs hbegun
  exact ⟨owners', seen', howners, h'.addRule n e⟩

/-- No more bodies are begun than there are classes. -/
theorem length_made_le (hs : s.IsCollected root)
    (hd : s.Progress root made [] owners seen [] d) :
  made.length ≤ s.classes.size
  := by
  apply OrderedMap.length_le_size (List.nodup_append.mp hd.classOnce).1
  intro c hc
  apply hs.nodeClass c
  apply hd.reached
  apply (hd.begun c).mpr (List.mem_append_left _ hc)

/-- All pending classes are got past. -/
theorem Completes.progress (hs : s.IsCollected root) {d' : Draft} (h : s.Completes d d')
    (hd : s.Progress root made [] owners seen [] d) :
  ∃ made' owners' seen', owners <+: owners' ∧ s.Progress root made' [] owners' seen' [] d'
    ∧ d'.pending = []
  := by
  induction h generalizing made owners seen with
  | done hp => exact ⟨made, owners, seen, List.prefix_refl owners, hd, hp⟩
  | next hpending _ hp h _ ih =>
      obtain ⟨owners₁, seen₁, howners, h₁⟩ := hd.lowerClass hs hpending hp h
      obtain ⟨made', owners', seen', howners', h'⟩ := ih h₁
      exact ⟨made', owners', seen', howners.trans howners', h'⟩

/-- If the pending classes do not go on, the language is to blame: they come to an end, since no
class becomes pending twice. -/
theorem blames_of_lowerPending (hs : s.IsCollected root) {fuel : Nat}
    (hfuel : s.classes.size + 1 ≤ fuel + made.length)
    (hd : s.Progress root made [] owners seen [] d) {e : BuildError}
    (hrun : (s.lowerPending fuel).run d = .error e) :
  s.Blames root e
  := by
  induction fuel generalizing made owners seen d with
  | zero =>
      have hle := length_made_le hs hd
      omega
  | succ fuel ih =>
      obtain ⟨c, n, pending, hpending, hrun⟩ := error_of_lowerPending hrun
      have hc : s.language.Reaches root (.nodeClass c) := by
        apply hd.reached
        apply (hd.begun c).mpr
        rw [hpending]
        apply List.mem_append_right _ List.mem_cons_self
      obtain ⟨node, hnode⟩ := hs.nodeClass c hc
      obtain ⟨p, hp⟩ := hs.pattern c hc
      rcases hrun with hrun | ⟨d₁, hclass, hrun⟩
      · have hget : s.nodeClass c = .ok node := by
          rw [nodeClass, hnode]
        have hweight : s.language.unmade owners + p.weight ≤ s.language.weight :=
          Language.unmade_add_weight_le_weight hp
        have hbegun := hd.beginClass hpending
        simp only [Language.mentions, hp] at hbegun
        apply (fails_of_lowerClass hget hp hrun).blames hs (Nat.le_succ_of_le hweight) hbegun
      · obtain ⟨node', p', e', d₂, -, hp', h, rfl⟩ := lowers_of_lowerClass hclass
        obtain ⟨owners₁, seen₁, -, h₁⟩ := hd.lowerClass hs hpending hp' h
        apply ih _ h₁ hrun
        rw [List.length_append, List.length_singleton]
        omega

/-- Lowering begins with the start symbol, the capture of the root and the root class. -/
theorem progress_rootDraft {c : NodeClass} (hc : c.id = root) :
  s.Progress root [] [] [.start, .root, .nodeClass root] [] [] (rootDraft root c)
  := by
  have hreached : ∀ o ∈ [Owner.start, .root, .nodeClass root], s.language.Reaches root o := by
    intro o ho
    rcases List.mem_cons.mp ho with rfl | ho
    · exact .start
    · rcases List.mem_cons.mp ho with rfl | ho
      · exact .root
      · rw [List.mem_singleton.mp ho]
        exact .rootClass
  have hpending : (rootDraft root c).pending.map Prod.fst = [root] := by
    rw [← hc]
    rfl
  refine ⟨⟨rfl, by simp, ?_, ?_, ?_, ?_⟩, hreached, ?_, nofun, ?_, ?_, .nil, .nil, nofun, ?_, ?_⟩
  · intro id n
    constructor
    · nofun
    · intro hn
      cases List.mem_of_getElem? hn with
      | tail _ h => cases h with
        | tail _ h => cases h with
          | tail _ h => cases h
  · intro c' n
    rw [get?_classes_rootDraft hc]
    obtain ⟨_ | _ | _ | i⟩ := n
    · simp
    · simp
    · simp [eq_comm]
    · simp
  · intro i o ho
    match i with
    | 0 => cases ho; rfl
    | 1 => cases ho; rfl
    | 2 => cases ho; rfl
    | i + 3 => cases ho
  · intro id i hi
    match i with
    | 0 => cases hi
    | 1 => cases hi
    | 2 => cases hi
    | i + 3 => cases hi
  · simp
  · intro c'
    rw [hpending]
    simp
  · rw [hpending]
    apply List.pairwise_singleton
  · simp
  · simp

/-- Lowering from a root that succeeds gets past everything. -/
theorem progress_of_lowerAll (hs : s.IsCollected root) {startRule : Nat}
    (hrun : (s.lowerAll root).run .empty = .ok (startRule, d)) :
  ∃ made owners seen, [.start, .root, .nodeClass root] <+: owners
    ∧ s.Progress root made [] owners seen [] d ∧ d.pending = []
  := by
  obtain ⟨-, c, hc, h⟩ := completes_of_lowerAll hrun
  apply h.progress hs (progress_rootDraft (hs.identifies root c (get?_of_nodeClass hc)))

/-- If lowering from a root fails, the language is to blame. -/
theorem blames_of_lowerAll (hs : s.IsCollected root) {e : BuildError}
    (hrun : (s.lowerAll root).run .empty = .error e) :
  s.Blames root e
  := by
  obtain ⟨c, hc⟩ := hs.nodeClass root .rootClass
  have hget : s.nodeClass root = .ok c := by
    rw [nodeClass, hc]
  rw [run_lowerAll, hget] at hrun
  change ((s.lowerPending (s.classes.size + 1)).run (rootDraft root c) >>= _) = _ at hrun
  rcases bind_eq_error.mp hrun with hrun | ⟨_, -, hrun⟩
  · have hroot := progress_rootDraft (s := s) (hs.identifies root c hc)
    apply blames_of_lowerPending hs (Nat.le_refl _) hroot hrun
  · cases hrun

end Source

/-! ### Everything that is come by -/

namespace Source.Progress

variable (h : s.Progress root made [] owners seen [] d)

include h

/-- Once no class is pending, all bodies of owners were begun. -/
theorem mem_bodiesOf_of_mem_mentions (hp : d.pending = []) {o : Owner} (ho : o ∈ owners)
    {id : CombinatorId} (hid : id ∈ s.language.mentions o) :
  o ∈ bodiesOf made owners
  := by
  apply mem_bodiesOf.mpr
  cases o with
  | nodeClass c =>
      have hmade := (h.begun c).mp ho
      rw [hp, List.map_nil, List.append_nil] at hmade
      exact Or.inl ⟨c, hmade, rfl⟩
  | combinator id' => exact Or.inr ⟨id', rfl, ho⟩
  | _ => cases hid

/-- Everything that lowering comes by owns a nonterminal once all classes are made. -/
theorem mem_owners_of_reaches (hd : d.Settled s.language) (hp : d.pending = [])
    (hfirst : [.start, .root, .nodeClass root] <+: owners) {o : Owner}
    (ho : s.language.Reaches root o) :
  o ∈ owners
  := by
  have hmem := hfirst.subset
  induction ho with
  | start => apply hmem; simp
  | root => apply hmem; simp
  | rootClass => apply hmem; simp
  | @mention o id c _ hid hc ih =>
      have hbody := h.mem_bodiesOf_of_mem_mentions hp ih hid
      have hplace : id ∈ s.language.places made owners := List.mem_flatMap.mpr ⟨o, hbody, hid⟩
      have hseen := h.places.mem_iff.mp hplace
      rw [List.append_nil] at hseen
      apply h.asked id hseen c hc
  | @target id name m c _ hid hm ih =>
      obtain ⟨n, hn⟩ := Option.isSome_iff_exists.mp (h.owned.isSome_instances.mpr ih)
      obtain ⟨-, c', hc', hdef⟩ := hd.instances id n hn
      cases hid.symm.trans hc'
      cases hdef with
      | toPattern hm' => cases hm.symm.trans hm'
      | toClass hm' hc =>
          cases hm.symm.trans hm'
          apply h.owned.isSome_classes.mp
          rw [hc]
          rfl
  | loop _ hid ih => exact (h.loops _).mpr ⟨ih, hid, nofun⟩

/-- What was lowered was lowerable. -/
theorem isLowerable (hp : d.pending = [])
    (hreaches : ∀ o, s.language.Reaches root o → o ∈ owners) :
  s.IsLowerable root
  := by
  have hnodup : ((bodiesOf made owners).flatMap s.language.unnamed).Nodup := by
    rw [← Language.filter_places, (h.places.filter _).nodup_iff, List.append_nil]
    apply h.once
  obtain ⟨honce, happart⟩ := List.nodup_flatMap.mp hnodup
  have hbodies : ∀ o, s.language.Reaches root o → ∀ id ∈ s.language.unnamed o,
      o ∈ bodiesOf made owners := by
    intro o ho id hid
    apply h.mem_bodiesOf_of_mem_mentions hp (hreaches o ho) (List.mem_filter.mp hid).1
  constructor
  · intro o ho
    by_cases hnil : s.language.unnamed o = []
    · rw [hnil]
      apply List.nodup_nil
    · obtain ⟨id, hid⟩ := List.exists_mem_of_ne_nil _ hnil
      apply honce o (hbodies o ho id hid)
  · intro o o' ho ho' hne id hid hid'
    have : Std.Symm (Function.onFun List.Disjoint s.language.unnamed) := ⟨fun _ _ h => h.symm⟩
    apply happart.forall (hbodies o ho id hid) (hbodies o' ho' id hid') hne hid hid'
  · intro id hid
    apply h.plain id (hreaches _ hid)

end Source.Progress

/-! ### Lowered grammars -/

/-- A grammar that a root was lowered to, with the draft it is made of and the owners of its
nonterminals. Everything that lowering comes by owns exactly one nonterminal, all nonterminals in
rules are registered, and the start symbol heads the start rule and stands nowhere else. -/
structure LanguageGrammar.IsLowered (lg : LanguageGrammar) (s : Source) (root : ClassId) (d : Draft)
    (owners : List Owner) : Prop where
  run : (s.lowerAll root).run .empty = .ok (lg.startRule, d)
  grammar : lg.grammar = d.grammar.computeFirst
  settled : d.Settled s.language
  pending : d.pending = []
  owned : d.OwnedBy s.language root owners
  first : [.start, .root, .nodeClass root] <+: owners
  reaches : ∀ o, o ∈ owners ↔ s.language.Reaches root o
  unique : ∀ o, s.language.Reaches root o → ∃! n : Nonterminal, owners[n.index]? = some o
  registered : ∀ n, (lg.grammar.info? n).isSome ↔ ∃ o, owners[n.index]? = some o
  heads : ∀ (r : Nat) (rule : Rule), lg.grammar.rules[r]? = some rule →
    (lg.grammar.info? rule.head).isSome
  symbols : ∀ r n, .nonterminal n ∈ lg.grammar.expansion r → (lg.grammar.info? n).isSome
  startRule : ∀ (r : Nat) (ss : List Symbol), lg.grammar.rules[r]? = some ⟨.start, ss⟩
    ↔ r = lg.startRule ∧ ss = [.nonterminal ⟨1⟩]
  absent : ∀ r, .nonterminal .start ∉ lg.grammar.expansion r

namespace Source

/-- The start symbol heads the start rule only. -/
theorem startRule_unique (hs : s.Identifies) {lg : LanguageGrammar} (h : s.grammar root = .ok lg)
    {r : Nat} {ss : List Symbol} :
  lg.grammar.rules[r]? = some ⟨.start, ss⟩ ↔ r = lg.startRule ∧ ss = [.nonterminal ⟨1⟩]
  := by
  have hrooted := (compiled_of_grammar h).rooted
  constructor
  · intro hr
    have hall := listsAll_of_grammar hs h
    have hmem : r ∈ lg.grammar.rulesFor .start := hall r _ hr
    have hstart : lg.startRule ∈ lg.grammar.rulesFor .start := hall _ _ hrooted.rule
    have hlength : (lg.grammar.rulesFor .start).length = 1 := by
      have h := congrArg List.length (expansionsOf_start hs h)
      rw [Grammar.expansionsOf, List.length_map] at h
      apply h
    obtain ⟨r', hrules⟩ := List.length_eq_one_iff.mp hlength
    rw [hrules, List.mem_singleton] at hmem hstart
    rw [hmem, ← hstart] at hr
    cases hrooted.rule.symm.trans hr
    exact ⟨hmem.trans hstart.symm, rfl⟩
  · rintro ⟨rfl, rfl⟩
    apply hrooted.rule

theorem blames_of_grammar (hs : s.IsCollected root) {e : BuildError}
    (h : s.grammar root = .error e) :
  s.Blames root e
  := by
  unfold grammar at h
  split at h
  · next e' hrun =>
    cases h
    apply blames_of_lowerAll hs hrun
  · cases h

/-- What is lowered was lowerable, and all that is come by owns a nonterminal. -/
theorem isLowered_of_grammar (hs : s.IsCollected root) {lg : LanguageGrammar}
    (h : s.grammar root = .ok lg) :
  s.IsLowerable root ∧ ∃ d owners, lg.IsLowered s root d owners
  := by
  have hcompiled := compiled_of_grammar h
  have hall := listsAll_of_grammar hs.identifies h
  have hstart : ∀ (r : Nat) (ss : List Symbol), lg.grammar.rules[r]? = some ⟨.start, ss⟩
      ↔ r = lg.startRule ∧ ss = [.nonterminal ⟨1⟩] :=
    fun _ _ => startRule_unique hs.identifies h
  unfold grammar at h
  split at h
  · cases h
  · next startRule d hrun =>
    cases h
    obtain ⟨hsettled, hpending, -⟩ := settled_of_lowerAll hs.identifies hrun
    obtain ⟨made, owners, seen, hfirst, hd, -⟩ := progress_of_lowerAll hs hrun
    have hreaches : ∀ o, s.language.Reaches root o → o ∈ owners :=
      fun o ho => hd.mem_owners_of_reaches hsettled hpending hfirst ho
    refine ⟨hd.isLowerable hpending hreaches, d, owners, hrun, rfl, hsettled, hpending, hd.owned,
      hfirst, fun o => ⟨hd.reached o, hreaches o⟩, ?_, ?_, ?_, hcompiled.registered, hstart,
      hcompiled.rooted.absent⟩
    · intro o ho
      obtain ⟨i, hi⟩ := List.mem_iff_getElem?.mp (hreaches o ho)
      refine ⟨⟨i⟩, hi, ?_⟩
      rintro ⟨j⟩ hj
      have hlt := (List.getElem?_eq_some_iff.mp hj).1
      rw [Nonterminal.mk.injEq]
      apply (List.getElem?_inj hlt hd.owned.nodup).mp (hj.trans hi.symm)
    · intro n
      have hsize : d.grammar.computeFirst.nonterminals.size = owners.length :=
        (Grammar.sameRules_computeFirst d.grammar).size.trans hd.owned.size
      rw [Grammar.info?, ← Option.isSome_iff_exists]
      simp [hsize]
    · intro r rule hr
      obtain ⟨i, hi⟩ := Grammar.exists_info_of_mem_rulesFor (hall r rule hr)
      rw [hi]
      rfl

/-- Lowering a language whose classes are collected succeeds exactly if the language is lowerable,
and fails by an instance without a name that is used again or by a captured array only. The
nonterminals of the grammar belong to what lowering comes by. -/
theorem isLowerable_iff_of_collect {classes : ClassTable}
    (h : ClassTable.collect l root = .ok classes) :
  ((∃ lg, Source.grammar ⟨l, classes⟩ root = .ok lg) ↔ Source.IsLowerable ⟨l, classes⟩ root)
    ∧ (∀ e, Source.grammar ⟨l, classes⟩ root = .error e →
      (∃ combinator context, e = .unnamedReuse combinator context)
        ∨ ∃ name, e = .hiddenArrayCapture name)
    ∧ ∀ lg, Source.grammar ⟨l, classes⟩ root = .ok lg →
      ∃ d owners, lg.IsLowered ⟨l, classes⟩ root d owners
  := by
  have hs := isCollected_of_collect h
  refine ⟨⟨?_, ?_⟩, ?_, ?_⟩
  · rintro ⟨lg, hlg⟩
    apply (isLowered_of_grammar hs hlg).1
  · intro hlowerable
    cases hg : Source.grammar ⟨l, classes⟩ root with
    | error e => cases (blames_of_grammar hs hg).not_isLowerable hlowerable
    | ok lg => exact ⟨lg, rfl⟩
  · intro e he
    apply (blames_of_grammar hs he).kind
  · intro lg hlg
    apply (isLowered_of_grammar hs hlg).2

/-- The theorem for nested lists. -/
theorem isLowerable_iff_of_collect_nested :
  ClassTable.collect .nested ⟨0⟩ = .ok .nested ∧ Source.IsLowerable ⟨.nested, .nested⟩ ⟨0⟩
    ∧ ∃ d owners, LanguageGrammar.nested.IsLowered ⟨.nested, .nested⟩ ⟨0⟩ d owners
  := by
  obtain ⟨hiff, -, hlowered⟩ := isLowerable_iff_of_collect ClassTable.collect_nested
  exact ⟨ClassTable.collect_nested, hiff.mp ⟨_, grammar_nested⟩, hlowered _ grammar_nested⟩

end Source

/-! ### The root capture -/

/-- The start rule leads to the nonterminal that captures the root. -/
theorem LanguageGrammar.IsLowered.capture?_root {lg : LanguageGrammar}
    (h : lg.IsLowered s root d owners) :
  lg.grammar.capture? ⟨1⟩ = some ⟨false, "root", .node root⟩
  := by
  obtain ⟨more, rfl⟩ := h.first
  rw [h.grammar, (Grammar.sameRules_computeFirst d.grammar).capture?]
  apply h.owned.captures 1 .root rfl

end CaptureLR

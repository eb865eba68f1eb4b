import CaptureLR.Proofs.Token.Keywords
import CaptureLR.Proofs.Token.Words

/-!
# Streams that end

A stream of the word or keyword tokenizer ends after at most one more item than its text has
characters, because each token covers some of them. Only the empty operator or keyword can spoil
this: where it is the longest one that is ahead, the stream stays at its place and yields the same
token without characters forever.
-/

namespace CaptureLR

namespace TokenStream

/-- A stream of a text ends after at most one more item than the text has characters, and every
token but the end of the input covers some of them. -/
structure IsBounded (s : TokenStream) (text : String) : Prop where
  length_le : ∀ n, (s.take n).length ≤ text.length + 1
  covers : ∀ n t, .ok t ∈ s.take n → t.isEnd = false → t.textIn text ≠ ""

/-- From some place on a stream of a text yields one token without characters forever. -/
def Repeats (s : TokenStream) (text : String) : Prop :=
  ∃ n t, t.isEnd = false ∧ t.textIn text = ""
    ∧ ∀ m, s.take (n + m) = s.take n ++ List.replicate m (.ok t)

/-- A stream that repeats a token does not end. -/
theorem Repeats.not_isBounded {s : TokenStream} {text : String} (h : s.Repeats text) :
  ¬ s.IsBounded text
  := by
  intro hbounded
  obtain ⟨n, t, -, -, hrepeats⟩ := h
  have hlength := hbounded.length_le (n + (text.length + 2))
  rw [hrepeats, List.length_append, List.length_replicate] at hlength
  omega

/-- A stream that yields an item and stays as it is yields it forever. -/
theorem take_eq_replicate {s s' : TokenStream} {item : TokenItem} (h : s.next = some (item, s'))
    (hagain : s'.next = s.next) (m : Nat) :
  s.take m = List.replicate m item
  := by
  induction m generalizing s with
  | zero => rfl
  | succ m ih =>
      have hrest : s'.take m = List.replicate m item := ih (hagain.trans h) rfl
      simp only [take, h, hrest, List.replicate_succ]

end TokenStream

section Cut

variable {Gap Fault : List Char → List Char → Prop}
  {Lexeme : (before piece rest : List Char) → Terminal → TokenValue → Prop}

/-- If every piece has a character, there is at most one more item than there are characters. -/
theorem IsCut.length_le {n : Nat} {before rest : List Char} {items : List TokenItem}
    (hpiece : ∀ before piece rest kind value,
      Lexeme before piece rest kind value → piece ≠ [])
    (h : IsCut Gap Lexeme Fault n before rest items) :
  items.length ≤ rest.length + 1
  := by
  induction h with
  | nil => apply Nat.zero_le
  | token _ hlexeme _ ih =>
      have hpos := List.length_pos_iff.mpr (hpiece _ _ _ _ _ hlexeme)
      rw [List.length_append, List.length_append, List.length_cons]
      omega
  | endOfInput => simp
  | error => simp

/-- A stream is cut into pieces that have characters, or it comes to a piece that has none and stays
there. -/
theorem isCut_or_repeats {stream : Cursor → TokenStream}
    (hyields : ∀ before c, c.Behind before → YieldsNext Gap Lexeme Fault stream before c)
    {before : List Char} {c : Cursor} (h : c.Behind before) :
  (∀ n, IsCut Gap
      (fun before piece rest kind value => Lexeme before piece rest kind value ∧ piece ≠ [])
      Fault n before c.rest ((stream c).take n))
    ∨ ∃ front back kind value, before ++ c.rest = front ++ back ∧ Lexeme front [] back kind value
      ∧ ∃ n, ∀ m, (stream c).take (n + m)
        = (stream c).take n ++ List.replicate m (.ok (.covering kind front [] value))
  := by
  -- what is left to read gets shorter with every piece that has characters
  induction hlength : c.rest.length using Nat.strongRecOn generalizing before c with
  | ind length ih =>
      cases hyields before c h with
      | endOfInput hgap hnext =>
          left
          refine IsCut.of_succ fun n => ?_
          simp only [TokenStream.take, hnext, TokenStream.take_nil]
          exact .endOfInput hgap
      | error hrest hfault hnext =>
          left
          refine IsCut.of_succ fun n => ?_
          simp only [TokenStream.take, hnext, TokenStream.take_nil]
          rw [hrest]
          exact .error hfault
      | @token gap piece rest kind value c' hrest hgap hlexeme hbehind hrest' hnext hagain =>
          by_cases hpiece : piece = []
          · subst hpiece
            right
            refine ⟨before ++ gap, rest, kind, value, ?_, hlexeme, 0, ?_⟩
            · rw [hrest, List.nil_append, List.append_assoc]
            · intro m
              rw [Nat.zero_add, TokenStream.take, List.nil_append]
              apply TokenStream.take_eq_replicate hnext (hagain rfl)
          · have hshorter : c'.rest.length < length := by
              have hpos := List.length_pos_iff.mpr hpiece
              rw [← hlength, hrest, hrest', List.length_append, List.length_append]
              omega
            subst hrest'
            rcases ih _ hshorter hbehind rfl with
              hcut | ⟨front, back, kind', value', htext, hlexeme', n, hrepeats⟩
            · left
              refine IsCut.of_succ fun n => ?_
              simp only [TokenStream.take, hnext]
              rw [hrest]
              exact .token hgap ⟨hlexeme, hpiece⟩ (hcut n)
            · right
              refine ⟨front, back, kind', value', ?_, hlexeme', n + 1, ?_⟩
              · rw [← htext, hrest]
                simp only [List.append_assoc]
              · intro m
                rw [Nat.add_right_comm]
                simp only [TokenStream.take, hnext, hrepeats, List.cons_append]

/-- A stream of a text is bounded, or it repeats a token of a piece that has no characters. -/
theorem isBounded_or_repeats_of_yieldsNext {stream : Cursor → TokenStream}
    (hyields : ∀ before c, c.Behind before → YieldsNext Gap Lexeme Fault stream before c)
    (text : String) :
  (stream (.ofText text)).IsBounded text
    ∨ (∃ before rest kind value, Lexeme before [] rest kind value)
      ∧ (stream (.ofText text)).Repeats text
  := by
  rcases isCut_or_repeats hyields (Cursor.behind_ofText text) with
    hcut | ⟨front, back, kind, value, htext, hlexeme, n, hrepeats⟩
  · left
    constructor
    · intro n
      have hlength := (hcut n).length_le (fun _ _ _ _ _ h => h.2)
      rw [← String.length_toList]
      apply hlength
    · intro n t ht hkind
      rcases (hcut n).exists_text_of_mem ht with
        rfl | ⟨_, piece, _, _, _, -, -, hpiece, -, hne⟩
      · cases hkind
      · rw [hpiece]
        exact mt String.ofList_eq_empty_iff.mp hne
  · right
    refine ⟨⟨front, back, kind, value, hlexeme⟩, n, _, rfl, ?_, hrepeats⟩
    have hpieces : text.toList = front ++ ([] ++ back) := htext
    exact Token.textIn_eq hpieces rfl rfl

end Cut

/-- A piece without characters is the empty operator. -/
theorem WordLexeme.empty_mem {operators : List String} {before rest : List Char} {kind : Terminal}
    {value : TokenValue} (h : WordLexeme operators before [] rest kind value) :
  "" ∈ operators
  := by
  cases h with
  | letters hfirst => cases hfirst
  | operator _ _ hw hpiece =>
      rw [← String.toList_eq_nil_iff.mp hpiece.symm]
      apply hw.mem
  | character hpiece => cases hpiece

/-- A piece without characters is the empty keyword. -/
theorem KeywordLexeme.empty_mem {keywords : List String} {before rest : List Char}
    {kind : Terminal} {value : TokenValue}
    (h : KeywordLexeme keywords before [] rest kind value) :
  "" ∈ keywords
  := by
  cases h with
  | keyword hk hpiece =>
      rw [← String.toList_eq_nil_iff.mp hpiece.symm]
      apply hk.mem
  | @extended k more hk _ hpiece =>
      rw [← String.toList_eq_nil_iff.mp (List.append_eq_nil_iff.mp hpiece.symm).1]
      apply hk.mem
  | identifier _ hfirst => cases hfirst
  | number _ hpiece => exact absurd rfl hpiece.ne_nil
  | text _ hpiece => cases hpiece

/-- Every stream of the word tokenizer and of the keyword tokenizer is bounded, or the empty word is
among the operators or keywords and the stream repeats a token without characters. -/
theorem Tokenizer.isBounded_or_repeats (words : List String) (text : String) :
  (((Tokenizer.words (.ofList words)).stream text).IsBounded text
      ∨ "" ∈ words ∧ ((Tokenizer.words (.ofList words)).stream text).Repeats text)
    ∧ (((Tokenizer.keywords (.ofList words)).stream text).IsBounded text
      ∨ "" ∈ words ∧ ((Tokenizer.keywords (.ofList words)).stream text).Repeats text)
  := by
  constructor
  · apply (isBounded_or_repeats_of_yieldsNext
      (fun _ _ => yieldsNext_words words) text).imp_right
    rintro ⟨⟨_, _, _, _, hlexeme⟩, hrepeats⟩
    exact ⟨hlexeme.empty_mem, hrepeats⟩
  · apply (isBounded_or_repeats_of_yieldsNext
      (fun _ _ => yieldsNext_keywords words) text).imp_right
    rintro ⟨⟨_, _, _, _, hlexeme⟩, hrepeats⟩
    exact ⟨hlexeme.empty_mem, hrepeats⟩

/-- With an empty operator or keyword a stream need not be bounded. -/
theorem Tokenizer.not_forall_isBounded :
  (¬ ∀ (operators : List String) (text : String),
      ((Tokenizer.words (.ofList operators)).stream text).IsBounded text)
    ∧ ¬ ∀ (keywords : List String) (text : String),
      ((Tokenizer.keywords (.ofList keywords)).stream text).IsBounded text
  := by
  have hempty : ∀ {s : TokenStream},
      s.next = some (.ok ⟨some "", .start, .start, .none⟩, s) → s.Repeats "+" := by
    intro s hnext
    refine ⟨0, ⟨some "", .start, .start, .none⟩, rfl, rfl, fun m => ?_⟩
    rw [Nat.zero_add, TokenStream.take, List.nil_append]
    apply TokenStream.take_eq_replicate hnext rfl
  constructor
  · intro h
    apply (hempty rfl).not_isBounded (h [""] "+")
  · intro h
    have hgap : IsGap [] (Cursor.ofText "+").rest := .cons (by decide) (by decide) []
    have hnext : TokenStream.next (.keywords (.ofList [""]) (.ofText "+"))
        = some (.ok ⟨some "", .start, .start, .none⟩, .keywords (.ofList [""]) (.ofText "+")) := by
      simp only [TokenStream.next, hgap.skipTrivia_eq]
      rfl
    apply (hempty hnext).not_isBounded (h [""] "+")

end CaptureLR

import CaptureLR.Token.Keyword
import CaptureLR.Token.Word

/-!
# Tokenizers and token streams

A tokenizer turns a text into a stream of tokens and tokenization errors. A stream is read
one item at a time, because it need not end: an empty operator or keyword matches again and
again at the same place.
-/

namespace CaptureLR

/-- The ways of cutting a text into tokens. -/
inductive Tokenizer where
  /-- Every character is a token. -/
  | characters
  /-- Words, and the given operators. -/
  | words (operators : Lexicon)
  /-- The given keywords, literals and identifiers. -/
  | keywords (keywords : Lexicon)
  /-- The given items, whatever the text. -/
  | replay (items : List TokenItem)
deriving Inhabited

/-- The items still to come. -/
inductive TokenStream where
  | characters (c : Cursor)
  | words (operators : Lexicon) (c : Cursor)
  | keywords (keywords : Lexicon) (c : Cursor)
  | items (l : List TokenItem)
deriving Inhabited

/-- The stream a tokenizer makes of a text. -/
def Tokenizer.stream (text : String) : Tokenizer → TokenStream
  | characters => .characters (.ofText text)
  | words operators => .words operators (.ofText text)
  | keywords ks => .keywords ks (.ofText text)
  | replay items => .items items

namespace TokenStream

/-- The stream that has nothing to yield. -/
def nil : TokenStream := .items []

/-- The next item, if there is one, and the stream behind it. After the end of the input or
an error a tokenizer yields nothing more. -/
def next : TokenStream → Option (TokenItem × TokenStream)
  | characters c =>
      match c.rest with
      | [] => some (.ok (.endOfInput c.position), nil)
      | x :: _ =>
          some (.ok ⟨some (String.singleton x), c.position, c.position.after x, .none⟩,
            .characters c.bump)
  | words operators c =>
      let c := c.skipBlanks
      match scanWord operators c with
      | none => some (.ok (.endOfInput c.position), nil)
      | some (token, c') => some (.ok token, .words operators c')
  | keywords ks c =>
      match skipTrivia c with
      | .error e => some (.error e, nil)
      | .ok c =>
          match scanKeyword ks c with
          | .error e => some (.error e, nil)
          | .ok none => some (.ok (.endOfInput c.position), nil)
          | .ok (some (token, c')) => some (.ok token, .keywords ks c')
  | items [] => none
  | items (i :: l) => some (i, .items l)

/-- The first items of a stream, at most as many as asked for. -/
def take : Nat → TokenStream → List TokenItem
  | 0, _ => []
  | n + 1, s =>
      match s.next with
      | none => []
      | some (i, s') => i :: take n s'

end TokenStream

end CaptureLR

import CaptureLR.Text.Alphanumeric
import CaptureLR.Text.Double
import CaptureLR.Token.Cursor
import CaptureLR.Token.Lexicon

/-!
# Tokens of keywords and literals

White space and comments separate tokens: a line comment runs from `//` to the end of the
line, a block comment from `///` to the next `///`. A token is a longest keyword that begins
the rest of the text, a text literal, a number or an identifier. A keyword made of letters,
numerals and underscores is part of an identifier if ASCII letters or digits follow it or a
point stands right before it.
-/

namespace CaptureLR

/-! ### White space and comments -/

/-- The number of characters up to the end of the next `///`, if there is one. -/
def blockLength : List Char → Option Nat
  | '/' :: '/' :: '/' :: _ => some 3
  | _ :: cs => (blockLength cs).map (· + 1)
  | [] => none

/-- The number of characters of white space and comments that a text begins with, unless a
block comment among them is not closed. -/
def triviaLength (cs : List Char) : Option Nat :=
  let blanks := (cs.takeWhile isBlank).length
  match h : cs.drop blanks with
  | '/' :: '/' :: '/' :: rest =>
      match blockLength rest with
      | none => none
      | some n => (triviaLength (rest.drop n)).map (blanks + 3 + n + ·)
  | '/' :: '/' :: rest =>
      let line := (rest.takeWhile (· ≠ '\n')).length
      (triviaLength (rest.drop line)).map (blanks + 2 + line + ·)
  | _ => some blanks
termination_by cs.length
decreasing_by
  · have hl := congrArg List.length h
    simp only [List.length_drop, List.length_cons] at hl ⊢
    omega
  · have hl := congrArg List.length h
    simp only [List.length_drop, List.length_cons] at hl ⊢
    omega

/-! ### Literals -/

/-- The content of a text literal and the number of characters up to the end of its closing
quote, given the characters behind the opening one. If an escape is unknown or the quote is
missing, the number of characters up to the place where this shows. -/
def scanText : List Char → Except Nat (List Char × Nat)
  | [] => .error 0
  | '"' :: _ => .ok ([], 1)
  | '\\' :: c :: cs =>
      if c = 'n' ∨ c = '\\' ∨ c = '"' then
        match scanText cs with
        | .ok (content, n) => .ok ((if c = 'n' then '\n' else c) :: content, n + 2)
        | .error n => .error (n + 2)
      else .error 1
  | '\\' :: [] => .error 1
  | c :: cs =>
      match scanText cs with
      | .ok (content, n) => .ok (c :: content, n + 1)
      | .error n => .error (n + 1)

/-- The longest beginning of a text that is made of digits and at most one point. -/
def numeralAhead (pointSeen : Bool) : List Char → List Char
  | [] => []
  | c :: cs =>
      if c.isDigit then c :: numeralAhead pointSeen cs
      else if c = '.' ∧ pointSeen = false then c :: numeralAhead true cs
      else []

/-! ### Tokens -/

/-- Whether a keyword is made of letters, numerals and underscores. -/
def isWord (keyword : String) : Bool :=
  keyword.toList.all (fun c => isAlphanumeric c || c = '_')

/-- The identifier that covers the next characters. -/
def identifierToken (c : Cursor) (length : Nat) : Token :=
  c.token length "identifier" (.identifier (c.ahead length))

/-- The number of characters and the token for a keyword that the text at a cursor begins
with: the keyword itself, or the identifier it is a part of. -/
def keywordToken (keyword : String) (c : Cursor) : Nat × Token :=
  let length := keyword.length
  if isWord keyword then
    let extra := ((c.rest.drop length).takeWhile Char.isAlphanum).length
    if extra ≠ 0 ∨ c.last = some '.' then (length + extra, identifierToken c (length + extra))
    else (length, c.token length keyword .none)
  else (length, c.token length keyword .none)

/-- The number of characters and the token for a literal or identifier that the text at a
cursor begins with. -/
def literalToken (first : Char) (rest : List Char) (c : Cursor) :
    Except TokenizeError (Nat × Token) :=
  if first = '"' then
    match scanText rest with
    | .ok (content, n) => .ok (n + 1, c.token (n + 1) "text" (.text (String.ofList content)))
    | .error n => .error ⟨(c.skip (n + 1)).position⟩
  else if first.isDigit then
    let numeral := numeralAhead false (first :: rest)
    if numeral.getLast? = some '.' then .error ⟨(c.skip numeral.length).position⟩
    else .ok (numeral.length, c.token numeral.length "number" (.number (numeralBits numeral)))
  else if first.isAlpha then
    let length := ((first :: rest).takeWhile Char.isAlphanum).length
    .ok (length, identifierToken c length)
  else .error ⟨c.position⟩

/-- The next token and the cursor behind it, nothing at the end of the text, given a cursor
that white space and comments do not follow. -/
def scanKeyword (keywords : Lexicon) (c : Cursor) :
    Except TokenizeError (Option (Token × Cursor)) :=
  match c.rest with
  | [] => .ok none
  | first :: rest =>
      match keywords.match? (first :: rest) with
      | some keyword =>
          let (length, token) := keywordToken keyword c
          .ok (some (token, c.skip length))
      | none =>
          match literalToken first rest c with
          | .ok (length, token) => .ok (some (token, c.skip length))
          | .error e => .error e

/-- The cursor behind white space and comments, or the error of a block comment that is not
closed, at the end of the text. -/
def skipTrivia (c : Cursor) : Except TokenizeError Cursor :=
  match triviaLength c.rest with
  | some n => .ok (c.skip n)
  | none => .error ⟨(c.skip c.rest.length).position⟩

end CaptureLR

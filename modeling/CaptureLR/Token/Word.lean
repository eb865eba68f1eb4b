import CaptureLR.Token.Cursor
import CaptureLR.Token.Lexicon

/-!
# Tokens of words and operators

Between white space, a run of ASCII letters is a token, and elsewhere a longest operator
that begins the rest of the text, or else the next character. The kind of a token is the text
it covers.
-/

namespace CaptureLR

/-- The text of the token that begins a text whose first character is not blank. -/
def wordAhead (operators : Lexicon) (first : Char) (rest : List Char) : String :=
  if first.isAlpha then String.ofList ((first :: rest).takeWhile Char.isAlpha)
  else (operators.match? (first :: rest)).getD (String.singleton first)

/-- The next token and the cursor behind it, or nothing at the end of the text. -/
def scanWord (operators : Lexicon) (c : Cursor) : Option (Token × Cursor) :=
  match c.rest with
  | [] => none
  | first :: rest =>
      let word := wordAhead operators first rest
      some (c.token word.length word .none, c.skip word.length)

end CaptureLR

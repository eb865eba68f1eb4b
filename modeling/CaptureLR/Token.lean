import CaptureLR.Position
import CaptureLR.Symbol

/-!
# Tokens

A token has a kind, the range of the source it covers and perhaps a decoded value. A token
without a kind marks the end of the input.
-/

namespace CaptureLR

/-- The decoded value of a token. A number is given by the bits of a double, so two numbers
are equal exactly if their bits are. -/
inductive TokenValue where
  | none
  | identifier (name : String)
  | number (bits : UInt64)
  | text (content : String)
deriving DecidableEq, Inhabited, Repr

/-- The name or content of a value that is a text. -/
def TokenValue.string? : TokenValue → Option String
  | identifier s => some s
  | text s => some s
  | none => Option.none
  | number _ => Option.none

/-- The bits of a value that is a number. -/
def TokenValue.number? : TokenValue → Option UInt64
  | number bits => some bits
  | _ => Option.none

/-- A piece of the source. -/
@[ext]
structure Token where
  /-- The terminal it is read as, or none at the end of the input. -/
  kind : Option Terminal
  /-- Where it begins. -/
  start : Position
  /-- Where it ends. -/
  stop : Position
  value : TokenValue := .none
deriving DecidableEq, Inhabited, Repr

namespace Token

/-- The token that marks the end of the input. -/
def endOfInput (p : Position) : Token := ⟨none, p, p, .none⟩

/-- Whether it marks the end of the input. -/
def isEnd (t : Token) : Bool := t.kind.isNone

/-- The lookahead a token is to the parser. -/
def lookahead (t : Token) : Lookahead :=
  match t.kind with
  | some k => .terminal k
  | none => .endOfInput

/-- A token as messages show it: what it is and where it begins. -/
def display (t : Token) : String := t.lookahead.display ++ " at " ++ t.start.display

/-- The characters that begin at or behind a byte offset, if a character begins there or the
text ends there. -/
def charsFrom : (offset : Nat) → List Char → Option (List Char)
  | 0, cs => some cs
  | _ + 1, [] => none
  | n + 1, c :: cs => if n + 1 < c.utf8Size then none else charsFrom (n + 1 - c.utf8Size) cs

/-- The characters before a byte offset, if a character ends there. -/
def charsUntil : (offset : Nat) → List Char → Option (List Char)
  | 0, _ => some []
  | _ + 1, [] => none
  | n + 1, c :: cs =>
      if n + 1 < c.utf8Size then none
      else (charsUntil (n + 1 - c.utf8Size) cs).map (c :: ·)

/-- The text a token covers in a source; a range that is no range of whole characters of the
source covers nothing. -/
def textIn (t : Token) (source : String) : String :=
  if t.stop.offset < t.start.offset then ""
  else
    match (charsFrom t.start.offset source.toList).bind
        (charsUntil (t.stop.offset - t.start.offset)) with
    | some cs => String.ofList cs
    | none => ""

end Token

/-- A text that cannot be cut into tokens, with the place where this shows. -/
structure TokenizeError where
  position : Position
deriving DecidableEq, Inhabited, Repr

/-- The message of a tokenization error. -/
def TokenizeError.message (e : TokenizeError) : String :=
  "Tokenization error at " ++ e.position.display

/-- What a token stream yields. -/
abbrev TokenItem := Except TokenizeError Token

end CaptureLR

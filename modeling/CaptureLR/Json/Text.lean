import CaptureLR.Json

/-!
# Strings and numbers in JSON texts

The written form of a string escapes quotes, backslashes and control characters. Reading it
back also knows the other escapes; an escape of half a surrogate pair alone has no meaning.
Numbers are natural numbers here, written with decimal digits alone.
-/

namespace CaptureLR

namespace Json

/-! ### Writing -/

/-- A hexadecimal digit. -/
def hexDigit (n : Nat) : Char := if n < 10 then Char.ofNat (48 + n) else Char.ofNat (87 + n)

/-- A character as it is written in a string. -/
def escapeChar (c : Char) : List Char :=
  if c = '"' then ['\\', '"']
  else if c = '\\' then ['\\', '\\']
  else if c = '\x08' then ['\\', 'b']
  else if c = '\x0c' then ['\\', 'f']
  else if c = '\n' then ['\\', 'n']
  else if c = '\r' then ['\\', 'r']
  else if c = '\t' then ['\\', 't']
  else if c.toNat < 32 then
    ['\\', 'u', '0', '0', hexDigit (c.toNat / 16), hexDigit (c.toNat % 16)]
  else [c]

/-- The value of a string. -/
def ofString (s : String) : Json := .string (s.toList.flatMap escapeChar)

/-- The value of a natural number. -/
def ofNat (n : Nat) : Json := .number (Nat.toDigits 10 n)

/-! ### Reading -/

/-- The value of a hexadecimal digit of either case. -/
def hexValue? (c : Char) : Option Nat :=
  if '0' ≤ c ∧ c ≤ '9' then some (c.toNat - 48)
  else if 'a' ≤ c ∧ c ≤ 'f' then some (c.toNat - 87)
  else if 'A' ≤ c ∧ c ≤ 'F' then some (c.toNat - 55)
  else none

/-- The value of four hexadecimal digits. -/
def hexQuad? (a b c d : Char) : Option Nat := do
  let a ← hexValue? a
  let b ← hexValue? b
  let c ← hexValue? c
  let d ← hexValue? d
  return ((a * 16 + b) * 16 + c) * 16 + d

/-- The character that is escaped by one letter. -/
def shortEscape? : Char → Option Char
  | '"' => some '"'
  | '\\' => some '\\'
  | '/' => some '/'
  | 'b' => some '\x08'
  | 'f' => some '\x0c'
  | 'n' => some '\n'
  | 'r' => some '\r'
  | 't' => some '\t'
  | _ => none

/-- Whether a number is the first half of a surrogate pair. -/
def isHighSurrogate (n : Nat) : Bool := decide (0xD800 ≤ n) && decide (n ≤ 0xDBFF)

/-- Whether a number is the second half of a surrogate pair. -/
def isLowSurrogate (n : Nat) : Bool := decide (0xDC00 ≤ n) && decide (n ≤ 0xDFFF)

/-- The character of a surrogate pair. -/
def ofSurrogates (high low : Nat) : Char :=
  Char.ofNat (0x10000 + (high - 0xD800) * 0x400 + (low - 0xDC00))

/-- The characters that the written form of a string stands for. -/
def decodeBody : List Char → Option (List Char)
  | [] => some []
  | '\\' :: 'u' :: a :: b :: c :: d :: '\\' :: 'u' :: e :: f :: g :: h :: rest => do
      let n ← hexQuad? a b c d
      if isHighSurrogate n then
        let m ← hexQuad? e f g h
        if isLowSurrogate m then
          let tail ← decodeBody rest
          return ofSurrogates n m :: tail
        else none
      else if isLowSurrogate n then none
      else
        let tail ← decodeBody ('\\' :: 'u' :: e :: f :: g :: h :: rest)
        return Char.ofNat n :: tail
  | '\\' :: 'u' :: a :: b :: c :: d :: rest => do
      let n ← hexQuad? a b c d
      if isHighSurrogate n || isLowSurrogate n then none
      else
        let tail ← decodeBody rest
        return Char.ofNat n :: tail
  | '\\' :: e :: rest => do
      let c ← shortEscape? e
      let tail ← decodeBody rest
      return c :: tail
  | c :: rest => do
      let tail ← decodeBody rest
      return c :: tail

/-- The string a value is. -/
def string? : Json → Option String
  | .string body => String.ofList <$> decodeBody body
  | _ => none

/-- The number below a bound that a sequence of characters writes in decimal, without sign and
superfluous zeros. -/
def decodeNat (bound : Nat) (digits : List Char) : Option Nat :=
  if digits = [] ∨ !digits.all Char.isDigit ∨ (digits.length ≠ 1 ∧ digits.head? = some '0') then none
  else
    let n := digits.foldl (fun n c => 10 * n + (c.toNat - 48)) 0
    if n < bound then some n else none

/-- The natural number below a bound that a value is. -/
def nat? (bound : Nat) : Json → Option Nat
  | .number numeral => decodeNat bound numeral
  | _ => none

/-- The truth value a value is. -/
def bool? : Json → Option Bool
  | .bool b => some b
  | _ => none

/-- The items of an array. -/
def array? : Json → Option (List Json)
  | .array items => some items
  | _ => none

/-- The entries of an object whose keys are numbers below a bound; of two entries with one
number both are listed. -/
def numbered? (bound : Nat) : Json → Option (List (Nat × Json))
  | .object members => members.mapM (fun m => (fun n => (n, m.2)) <$> decodeNat bound m.1)
  | _ => none

/-! ### Records -/

/-- The values of the named fields of an object. A field may be absent, must not be repeated,
and other fields are skipped. -/
def objectFields (names : List String) (members : List (List Char × Json)) :
    Option (List (Option Json)) := do
  let keys ← members.mapM (fun m => decodeBody m.1)
  let entries := keys.zip (members.map Prod.snd)
  names.mapM (fun name =>
    match entries.filter (fun e => decide (e.1 = name.toList)) with
    | [] => some none
    | [e] => some (some e.2)
    | _ => none)

/-- The values of the named fields of a record. A record is an object, or an array of its fields
in order, of which all but the least number may be left off the end. -/
def fields? (names : List String) (least : Nat) : Json → Option (List (Option Json))
  | .object members => objectFields names members
  | .array items =>
      if least ≤ items.length ∧ items.length ≤ names.length then
        some (items.map some ++ List.replicate (names.length - items.length) none)
      else none
  | _ => none

/-- A field that may be absent or null. -/
def optional? {α : Type} (read : Json → Option α) : Option Json → Option (Option α)
  | none => some none
  | some .null => some none
  | some j => some <$> read j

end Json

end CaptureLR

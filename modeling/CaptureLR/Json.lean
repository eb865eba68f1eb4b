/-!
# JSON texts

A JSON text is kept as it was written: a number is its numeral, and a string is what stands
between its quotes, escapes included. So a text that is skipped need not mean anything, and
printing gives back what was read but for white space.
-/

namespace CaptureLR

/-- A JSON value in its written form. -/
inductive Json where
  | null
  | bool (b : Bool)
  /-- A number as it is written. -/
  | number (numeral : List Char)
  /-- A string as it is written, without its quotes. -/
  | string (body : List Char)
  | array (items : List Json)
  /-- Keys as they are written, without their quotes, with their values. -/
  | object (members : List (List Char × Json))
deriving Inhabited

namespace Json

/-! ### Printing -/

/-- A sequence of texts with commas between them. -/
def commaSeparated : List (List Char) → List Char
  | [] => []
  | [x] => x
  | x :: xs => x ++ ',' :: commaSeparated xs

mutual

/-- The text of a value, without white space. -/
def print : Json → List Char
  | null => "null".toList
  | bool true => "true".toList
  | bool false => "false".toList
  | number numeral => numeral
  | string body => '"' :: (body ++ ['"'])
  | array items => '[' :: (commaSeparated (printItems items) ++ [']'])
  | object members => '\x7b' :: (commaSeparated (printMembers members) ++ ['\x7d'])

/-- The texts of the items of an array. -/
def printItems : List Json → List (List Char)
  | [] => []
  | j :: js => j.print :: printItems js

/-- The texts of the members of an object. -/
def printMembers : List (List Char × Json) → List (List Char)
  | [] => []
  | (key, j) :: ms => ('"' :: (key ++ '"' :: ':' :: j.print)) :: printMembers ms

end

end Json

end CaptureLR

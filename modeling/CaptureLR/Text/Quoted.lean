import CaptureLR.Text.Printable

/-!
# Texts between quotes

Two ways to write a text between double quotes. `quoted` escapes double quotes alone and is
how terminals are shown. `shown` escapes whatever could be misread: quotes, backslashes and
every character that cannot be shown as it is.
-/

namespace CaptureLR

/-- A backslash before every double quote. -/
def escapeQuotes : List Char → List Char
  | [] => []
  | c :: cs => if c = '"' then '\\' :: '"' :: escapeQuotes cs else c :: escapeQuotes cs

/-- A text between double quotes, its own double quotes escaped. -/
def quoted (s : String) : String :=
  String.ofList ('"' :: (escapeQuotes s.toList ++ ['"']))

/-- The escape by number: `\u` and the code point in hexadecimal between braces. -/
def codePointEscape (c : Char) : List Char :=
  '\\' :: 'u' :: '\x7b' :: (Nat.toDigits 16 c.toNat ++ ['\x7d'])

/-- A character as it stands in a shown text. -/
def showChar (c : Char) : List Char :=
  if c = '\x00' then ['\\', '0']
  else if c = '\t' then ['\\', 't']
  else if c = '\r' then ['\\', 'r']
  else if c = '\n' then ['\\', 'n']
  else if c = '\\' then ['\\', '\\']
  else if c = '"' then ['\\', '"']
  else if isPrintable c then [c]
  else codePointEscape c

/-- A text between double quotes, with escapes for all that cannot be shown as it is. -/
def shown (s : String) : String :=
  String.ofList ('"' :: (s.toList.flatMap showChar ++ ['"']))

/-- A list of texts between brackets, each of them shown. -/
def shownList (l : List String) : String :=
  "[" ++ ", ".intercalate (l.map shown) ++ "]"

/-- Without double quotes inside, quoting adds the outer quotes alone. -/
theorem escapeQuotes_of_not_mem {cs : List Char} (h : '"' ∉ cs) :
  escapeQuotes cs = cs
  := by
  induction cs with
  | nil => rfl
  | cons c cs ih =>
      rw [List.mem_cons, not_or] at h
      rw [escapeQuotes, if_neg (fun hc => h.1 hc.symm), ih h.2]

end CaptureLR

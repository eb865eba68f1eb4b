/-!
# Texts as literals

A text is written as a literal between double quotes. Inside, a backslash stands before a
double quote and before a backslash, and a line break is written as a backslash and `n`.
-/

namespace CaptureLR

/-- A character as it stands in a literal. -/
def escapeChar (c : Char) : List Char :=
  if c = '\n' then ['\\', 'n']
  else if c = '\\' then ['\\', '\\']
  else if c = '"' then ['\\', '"']
  else [c]

/-- The characters of a text as they stand in a literal. -/
def escapeText (cs : List Char) : List Char := cs.flatMap escapeChar

/-- The literal of a text. -/
def textLiteral (cs : List Char) : List Char := '"' :: (escapeText cs ++ ['"'])

/-- The text of the characters between the quotes of a literal. Nothing if a quote stands there
without a backslash before it, or a backslash before anything but `n`, a backslash or a
quote. -/
def unescapeText : List Char → Option (List Char)
  | [] => some []
  | '"' :: _ => none
  | '\\' :: 'n' :: cs => (unescapeText cs).map ('\n' :: ·)
  | '\\' :: '\\' :: cs => (unescapeText cs).map ('\\' :: ·)
  | '\\' :: '"' :: cs => (unescapeText cs).map ('"' :: ·)
  | '\\' :: _ => none
  | c :: cs => (unescapeText cs).map (c :: ·)

/-- Undoing the escapes of a text gives the text back. -/
theorem unescapeText_escapeText (cs : List Char) :
  unescapeText (escapeText cs) = some cs
  := by
  induction cs with
  | nil => rfl
  | cons c cs ih =>
      have hs : escapeText (c :: cs) = escapeChar c ++ escapeText cs := List.flatMap_cons
      rw [hs, escapeChar]
      split
      · next h => simp [unescapeText, ih, h]
      · split
        · next h => simp [unescapeText, ih, h]
        · split
          · next h => simp [unescapeText, ih, h]
          · next hb _ =>
            simp [unescapeText, ih, hb]

end CaptureLR

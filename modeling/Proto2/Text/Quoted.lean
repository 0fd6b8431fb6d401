import Proto2.Text.Printable

/-!
Text shown between quotes, as diagnostics show the words of a schema.

Single quotes enclose the text unless it holds a single quote and no double quote.  The
enclosing quote and the backslash are escaped, the usual controls have their short escapes,
and every other hidden character is shown by its code point in hexadecimal.
-/

namespace Proto2.Text

/-- Lower-case hexadecimal digits, with zeros in front up to the width. -/
def hexPadded (width n : Nat) : List Char :=
  let digits := Nat.toDigits 16 n
  List.replicate (width - digits.length) '0' ++ digits

/-- The escape that shows a hidden character by its code point. -/
def codePointEscape (c : Char) : List Char :=
  let n := c.toNat
  if n < 0x100 then '\\' :: 'x' :: hexPadded 2 n
  else if n < 0x10000 then '\\' :: 'u' :: hexPadded 4 n
  else '\\' :: 'U' :: hexPadded 8 n

/-- One character as it is shown between the given quotes. -/
def quotedChar (quote c : Char) : List Char :=
  if c = quote ∨ c = '\\' then ['\\', c]
  else if c = '\t' then ['\\', 't']
  else if c = '\n' then ['\\', 'n']
  else if c = '\r' then ['\\', 'r']
  else if isPrintable c then [c]
  else codePointEscape c

/-- The quote that encloses a text. -/
def enclosingQuote (cs : List Char) : Char :=
  if cs.contains '\'' && !cs.contains '"' then '"' else '\''

/-- A text between quotes. -/
def quoted (cs : List Char) : List Char :=
  let quote := enclosingQuote cs
  quote :: cs.flatMap (quotedChar quote) ++ [quote]

/-- A string between quotes. -/
def quotedString (s : String) : String :=
  String.ofList (quoted s.toList)

end Proto2.Text

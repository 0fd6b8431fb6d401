import Proto2.Corpus.Draw
import Proto2.Text.Lines

/-!
The words of random schemas: identifiers, tags, string literals, option values and options.

Texts are lists of characters.  The order of the draws is part of what a seed means, so it is
kept wherever the parts of a text are drawn in another order than they are written.
-/

namespace Proto2.Corpus

/-- A text without line breaks. -/
abbrev Line := List Char

variable {σ : Type}

/-- The words with a meaning in schemas; no identifier is one of them. -/
def keywords : List Line :=
  ["syntax", "import", "package", "option", "message", "enum", "service", "rpc", "returns",
    "extend", "extensions", "required", "optional", "repeated", "to", "max", "public", "true",
    "false"].map String.toList

/-- The letters of the alphabet, small ones first. -/
def letters : List Char :=
  "abcdefghijklmnopqrstuvwxyzABCDEFGHIJKLMNOPQRSTUVWXYZ".toList

/-- The decimal digits. -/
def digits : List Char :=
  "0123456789".toList

/-- A number in decimal. -/
def number (n : Nat) : Line :=
  Nat.toDigits 10 n

/-- A number in hexadecimal. -/
def hexNumber (n : Nat) : Line :=
  '0' :: 'x' :: Nat.toDigits 16 n

/-- A text in capital letters. -/
def capitals (cs : Line) : Line :=
  cs.map Char.toUpper

/-- One of some characters. -/
def pick (cs : List Char) : Generator σ Char :=
  Generator.oneOf (cs.headD '_') cs.tail

/-- An identifier. -/
def identifier : Generator σ Line := do
  let head ← pick (letters ++ ['_'])
  let tail ← Generator.times (← Generator.between 0 10) (pick (letters ++ digits ++ ['_']))
  let word := head :: tail
  return if keywords.contains word then word ++ ['_'] else word

/-- Identifiers, at least one and at most so many, with dots between them. -/
def dottedName (most : Nat) : Generator σ Line := do
  let parts ← Generator.times (← Generator.between 1 most) identifier
  return Text.joined ['.'] parts

/-- A string literal, sometimes with escapes at its end. -/
def stringLiteral : Generator σ Line := do
  let alphabet := letters ++ digits ++ "_-/ ".toList
  let plain ← Generator.times (← Generator.between 0 24) (pick alphabet)
  let escapes := if ← Generator.chance 10 then "\\n\\t\\101\\x41".toList else []
  return '"' :: plain ++ escapes ++ ['"']

/-- An integer from -1000 to 100000. -/
def integer : Generator σ Line := do
  let n ← Generator.below 101001
  return if n < 1000 then '-' :: number (1000 - n) else number (n - 1000)

/-- A value that has no parts, by the fraction that decides which; a fraction that is too
great for those gives a name. -/
def simpleValue (k : Nat) : Generator σ Line := do
  if Generator.isBelow 30 k then
    stringLiteral
  else if Generator.isBelow 45 k then
    integer
  else if Generator.isBelow 55 k then
    Generator.oneOf "true".toList ["false".toList]
  else if Generator.isBelow 65 k then
    let whole ← Generator.between 0 1000
    let hundredths ← Generator.between 0 99
    return number whole ++ '.' :: number hundredths
  else
    return capitals (← identifier)

/-- A list with the given items. -/
def listText (items : List Line) : Line :=
  '[' :: Text.joined ", ".toList items ++ [']']

/-- An aggregate with the given entries. -/
def aggregateText (entries : List Line) : Line :=
  "\x7b ".toList ++ Text.joined [' '] entries ++ " \x7d".toList

/-- The keys of an aggregate; they end in their places, so they differ. -/
def keys : Generator σ (List Line) := do
  Generator.places (← Generator.between 0 3) fun i => do
    return (← identifier) ++ '_' :: number i

/-- The entries of an aggregate with the given keys. -/
def entries (value : Generator σ Line) : List Line → Generator σ (List Line)
  | [] => return []
  | key :: keys => do
    let first := key ++ ": ".toList ++ (← value)
    let rest ← entries value keys
    return first :: rest

/-- A value, in which lists and aggregates nest to the given depth at most. -/
def value : Nat → Generator σ Line
  | 0 => do simpleValue (← Generator.fraction)
  | depth + 1 => do
    let k ← Generator.fraction
    if Generator.isBelow 80 k then
      simpleValue k
    else if Generator.isBelow 90 k then
      let items ← Generator.times (← Generator.between 0 3) (value depth)
      return listText items
    else
      return aggregateText (← entries (value depth) (← keys))

/-- An option setting: a plain name, a custom one, or a part of a custom one. -/
def option : Generator σ Line := do
  let k ← Generator.fraction
  if Generator.isBelow 50 k then
    let name ← identifier
    return name ++ " = ".toList ++ (← value 2)
  else if Generator.isBelow 80 k then
    let first ← identifier
    let second ← identifier
    return '(' :: first ++ '.' :: second ++ ") = ".toList ++ (← value 2)
  else
    let outer ← identifier
    let inner ← identifier
    return '(' :: outer ++ ").".toList ++ inner ++ " = ".toList ++ (← value 2)

/-- So many spaces. -/
def spaces (indent : Nat) : Line :=
  List.replicate indent ' '

/-- Documentation in one of three styles, or mostly none, as lines with the given
indentation. -/
def documentation (indent : Nat) : Generator σ (List Line) := do
  let pad := spaces indent
  let k ← Generator.fraction
  if Generator.isBelow 70 k then
    return []
  else
    let words ← Generator.times (← Generator.between 1 4) identifier
    if Generator.isBelow 85 k then
      return words.map fun w => pad ++ "// ".toList ++ w
    else if Generator.isBelow 95 k then
      return [pad ++ "/**".toList] ++ words.map (fun w => pad ++ " * ".toList ++ w) ++
        [pad ++ " */".toList]
    else
      return [pad ++ "/* ".toList ++ Text.joined [' '] words ++ " */".toList]

end Proto2.Corpus

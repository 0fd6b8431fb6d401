import Proto2.Json.Basic
import Proto2.Number.Shortest
import Proto2.Text.Quoted

/-!
The text of JSON values, indented by two spaces a level.

The text has ASCII characters only: the others are escaped, those beyond the first 65536 code
points as a surrogate pair.  A NaN and the infinities have the names that other readers of
JSON know for them.
-/

namespace Proto2.Json

mutual

/-- The value with the members of its objects in the order of their names, at any depth. -/
def sorted : Json → Json
  | .array items => .array (sortedItems items)
  | .object members =>
    .object ((sortedMembers members).mergeSort fun a b => decide (a.1 ≤ b.1))
  | .null => .null
  | .bool b => .bool b
  | .int n => .int n
  | .float x => .float x
  | .string s => .string s

/-- The items, each sorted. -/
def sortedItems : List Json → List Json
  | [] => []
  | item :: rest => item.sorted :: sortedItems rest

/-- The members, the value of each sorted. -/
def sortedMembers : List (String × Json) → List (String × Json)
  | [] => []
  | (key, value) :: rest => (key, value.sorted) :: sortedMembers rest

end

/-- A code unit of a character as an escape. -/
def unitEscape (unit : Nat) : List Char :=
  '\\' :: 'u' :: Text.hexPadded 4 unit

/-- A character as it is written in a string. -/
def charText (c : Char) : List Char :=
  if c = '"' then ['\\', '"']
  else if c = '\\' then ['\\', '\\']
  else if c = '\n' then ['\\', 'n']
  else if c = '\r' then ['\\', 'r']
  else if c = '\t' then ['\\', 't']
  else if c = '\x08' then ['\\', 'b']
  else if c = '\x0c' then ['\\', 'f']
  else if ' ' ≤ c ∧ c ≤ '~' then [c]
  else if c.toNat < 0x10000 then unitEscape c.toNat
  else
    let n := c.toNat - 0x10000
    unitEscape (0xD800 + n / 0x400) ++ unitEscape (0xDC00 + n % 0x400)

/-- A string between quotes. -/
def stringText (s : String) : List Char :=
  '"' :: s.toList.flatMap charText ++ ['"']

/-- A number. -/
def floatText : Binary64 → List Char
  | .infinite false => "Infinity".toList
  | .infinite true => "-Infinity".toList
  | .nan => "NaN".toList
  | x => x.text

/-- The start of a line at a level. -/
def lineStart (level : Nat) : List Char :=
  '\n' :: List.replicate (2 * level) ' '

mutual

/-- The text of a value that starts at a level. -/
def textAt (level : Nat) : Json → List Char
  | .null => "null".toList
  | .bool b => if b then "true".toList else "false".toList
  | .int n => Numeral.text n
  | .float x => floatText x
  | .string s => stringText s
  | .array [] => ['[', ']']
  | .array (item :: rest) =>
    '[' :: lineStart (level + 1) ++ item.textAt (level + 1) ++ itemsText (level + 1) rest ++
      lineStart level ++ [']']
  | .object [] => ['\x7b', '\x7d']
  | .object ((key, value) :: rest) =>
    '\x7b' :: lineStart (level + 1) ++ stringText key ++ ':' :: ' ' ::
      value.textAt (level + 1) ++ membersText (level + 1) rest ++ lineStart level ++ ['\x7d']

/-- The text of the items behind the first one, each behind a comma. -/
def itemsText (level : Nat) : List Json → List Char
  | [] => []
  | item :: rest => ',' :: lineStart level ++ item.textAt level ++ itemsText level rest

/-- The text of the members behind the first one, each behind a comma. -/
def membersText (level : Nat) : List (String × Json) → List Char
  | [] => []
  | (key, value) :: rest =>
    ',' :: lineStart level ++ stringText key ++ ':' :: ' ' :: value.textAt level ++
      membersText level rest

end

/-- The text of a value with the members of its objects sorted. -/
def text (j : Json) : List Char :=
  j.sorted.textAt 0

end Proto2.Json

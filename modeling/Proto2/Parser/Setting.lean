import Proto2.Model.Entries
import Proto2.Parser.Literal

/-!
Reading options.

    setting   := part ('.' part)* '=' value
    part      := IDENT | '(' name ')'
    value     := STRING+ | 'true' | 'false' | INT | FLOAT | name | list | aggregate
    list      := '[' (item ','?)* ']'          item := setting | STRING | value
    aggregate := '{' (entry (',' | ';')?)* '}'
    entry     := key ':' value | key aggregate | key list
    key       := IDENT | '[' name ']'

Values nest, and the depth to which they may is bounded by the number of tokens, because each
level takes one.  In a list, adjacent strings are separate items.  An aggregate in which a key
is repeated has the values of that key in a list.
-/

namespace Proto2

/-- A part of a dotted option name; a custom part stands in parentheses. -/
structure NamePart where
  name : String
  custom : Bool
deriving DecidableEq, Repr

/-- The setting of an option with the given name parts: each part but the last has the
setting of the rest as its value. -/
def Setting.ofParts (first : NamePart) : List NamePart → Value → Setting
  | [], value => ⟨first.name, value, first.custom⟩
  | second :: rest, value =>
    ⟨first.name, .setting (Setting.ofParts second rest value), first.custom⟩

/-- The items that a value contributes where the values of a repeated key are collected. -/
def Value.items : Value → List Value
  | .list items => items
  | value => [value]

/-- Entries with one more: the value of a key that is there already is joined to it. -/
def Value.collect (entries : List (String × Value)) (key : String) (value : Value) :
    List (String × Value) :=
  match Entries.get? key entries with
  | none => Entries.put key value entries
  | some earlier => Entries.put key (.list (earlier.items ++ value.items)) entries

/-- The aggregate of entries in which keys may be repeated. -/
def Value.ofEntries (entries : List (String × Value)) : Value :=
  .aggregate (entries.foldl (fun dict e => collect dict e.1 e.2) [])

namespace Parser

/-- Consumes a part of an option name. -/
def namePart : Parser NamePart := do
  if ← accepts .openParen then
    let name ← qualifiedName .option "an option name"
    let _ ← expect .option .closeParen "')' after extension name"
    return ⟨name, true⟩
  else
    return ⟨← identifier .option "an option name", false⟩

/-- Consumes the parts behind the first one of an option name, each behind a dot. -/
def moreNameParts : Nat → Parser (List NamePart)
  | 0 => throw .outOfBudget
  | n + 1 => do
    if ← accepts .dot then
      let first ← namePart
      let rest ← moreNameParts n
      return first :: rest
    else
      return []

/-- Consumes a setting, given how its value is read. -/
def settingWith (value : Parser Value) : Parser Setting := do
  let first ← namePart
  let rest ← moreNameParts (← budget)
  let _ ← expect .option .equals "'=' after option name"
  return Setting.ofParts first rest (← value)

/-- Fails at the end of the input, where the given bracket is still open. -/
def checkOpen (opened : Token) : Parser Unit := do
  let t ← peek 0
  if t.isEnd then
    fail .option t (.unbalanced opened.lexeme opened.span)

/-- Whether identifiers and dots from the given place on lead to an equals sign, or to a part
in parentheses. -/
def leadsToSetting : Nat → Nat → Parser Bool
  | 0, _ => throw .outOfBudget
  | n + 1, i => do
    if (← peek i).kind = .identifier then
      let after := (← peek (i + 1)).kind
      if after = .equals then
        return true
      else if after = .dot then
        if (← peek (i + 2)).kind = .openParen then
          return true
        else
          leadsToSetting n (i + 2)
      else
        return false
    else
      return false

/-- Whether a setting starts here, rather than a name that is a value. -/
def isAtSetting : Parser Bool := do
  if ← isAt .openParen then
    return true
  else
    leadsToSetting (← budget) 0

/-- Consumes an item of a list. -/
def listItem (value : Parser Value) : Parser Value := do
  if ← isAtSetting then
    return .setting (← settingWith value)
  else if ← isAt .string then
    return .string (← stringLiteral)
  else
    value

/-- Consumes a list. -/
def list (value : Parser Value) : Parser Value := do
  let opened ← next
  let items ← itemsUntil .closeBracket do
    checkOpen opened
    let item ← listItem value
    let _ ← accept? .comma
    return item
  return .list items

/-- Consumes the key of an entry. -/
def key : Parser String := do
  if ← accepts .openBracket then
    let name ← qualifiedName .option "an extension name"
    let _ ← expect .option .closeBracket "']' after extension name"
    return "[" ++ name ++ "]"
  else
    identifier .option "a field name"

/-- Consumes the colon behind a key, which may be missing before a bracket. -/
def colon (key : String) : Parser Unit := do
  if ← accepts .colon then
    return
  let t ← peek 0
  if t.kind = .openBrace ∨ t.kind = .openBracket then
    return
  fail .option t (.missingColon key)

/-- Consumes an entry of an aggregate. -/
def entry (value : Parser Value) : Parser (String × Value) := do
  let k ← key
  colon k
  return (k, ← value)

/-- Consumes a comma or a semicolon, if there is one. -/
def entrySeparator : Parser Unit := do
  if ← accepts .comma then
    return
  let _ ← accept? .semicolon

/-- Consumes an aggregate. -/
def aggregate (value : Parser Value) : Parser Value := do
  let opened ← next
  let entries ← itemsUntil .closeBrace do
    checkOpen opened
    let e ← entry value
    entrySeparator
    return e
  return Value.ofEntries entries

/-- Consumes a value, given how the values in it are read. -/
def valueWith (inner : Parser Value) : Parser Value := do
  let t ← peek 0
  match t.kind with
  | .string => return .string (← adjacentStrings)
  | .integer => return .int (← integerLiteral)
  | .float => return .float (← floatLiteral)
  | .identifier =>
    if t.isWord "true" ∨ t.isWord "false" then
      return .bool ((← next).lexeme = "true")
    else
      return .constant (← qualifiedName .option "a name")
  | .dot => return .constant (← qualifiedName .option "a name")
  | .openBracket => list inner
  | .openBrace => aggregate inner
  | _ => fail .option t .notAValue

/-- Consumes a value that nests no deeper than the given depth. -/
def valueWithin : Nat → Parser Value
  | 0 => throw .outOfBudget
  | depth + 1 => valueWith (valueWithin depth)

/-- Consumes a value. -/
def value : Parser Value := do
  valueWithin (← budget)

/-- Consumes a setting. -/
def setting : Parser Setting :=
  settingWith value

/-- Consumes settings between brackets; the commas between them are optional. -/
def bracketedSettings : Parser (List Setting) := do
  let opened ← expect .option .openBracket ""
  itemsUntil .closeBracket do
    checkOpen opened
    let s ← setting
    let _ ← accept? .comma
    return s

end Parser

end Proto2

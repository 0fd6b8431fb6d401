import Proto2.Documentation
import Proto2.Model.Validation
import Proto2.Parser.Setting

/-!
Reading declarations.

    message    := 'message' IDENT '{' (';' | field | message | enum | extensions | option
                | extend)* '}'
    field      := LABEL name IDENT '=' INT settings? ';'
    extensions := 'extensions' range (',' range)* ';'      range := INT ('to' (INT | 'max'))?
    enum       := 'enum' IDENT '{' (';' | option | IDENT '=' INT settings? ';')* '}'
    service    := 'service' IDENT '{' (';' | option | rpc)* '}'
    rpc        := 'rpc' IDENT type 'returns' type (';' | '{' (';' | option)* '}' ';'?)
    extend     := 'extend' name '{' (';' | field)* '}'
    option     := 'option' setting ';'

A body is read as the list of its items in source order, and the declaration is built from
the items of each kind.  A declaration is built, and so checked against the rules of the
model, as soon as it ends.  The documentation of a declaration is that of its first token.
-/

namespace Proto2.Parser

/-- The documentation that stands above the next token. -/
def documentation : Parser String := do
  return Documentation.ofComments (← peek 0).comments

/-- Consumes a semicolon. -/
def semicolon : Parser Unit := do
  let _ ← expect .schema .semicolon "';'"

/-- Consumes a tag number. -/
def tagNumber : Parser Int := do
  decodeInteger (← expect .schema .integer "a tag number")

/-- Consumes an option statement. -/
def optionStatement : Parser Setting := do
  let _ ← expectWord .schema "option"
  let s ← setting
  semicolon
  return s

/-- Consumes the bracketed settings of a field or enum value, if there are any. -/
def trailingSettings : Parser (List Setting) := do
  if ← isAt .openBracket then
    bracketedSettings
  else
    return []

/-- Consumes items up to the brace that closes a body; `item` is given the token at which an
item starts. -/
def bodyItems {α : Type} (opened : Token) (item : Token → Parser α) : Parser (List α) :=
  itemsUntil .closeBrace do
    let t ← peek 0
    if t.isEnd then
      fail .schema t (.unclosedBody opened.span)
    else
      item t

/-- Consumes a field. -/
def field : Parser Field := do
  let doc ← documentation
  let label ← next
  let type ← qualifiedName .schema "a field type"
  let name ← identifier .schema "a field name"
  let _ ← expect .schema .equals "'=' after field name"
  let tag ← tagNumber
  let options ← trailingSettings
  semicolon
  ofBuild (Field.build label.lexeme type name tag doc options)

/-- Whether a field starts at a token. -/
def startsField (t : Token) : Bool :=
  t.kind = .identifier && (Label.ofText? t.lexeme).isSome

/-- Consumes an extension range; all ranges of a statement have its documentation. -/
def extensionRange (doc : String) : Parser ExtensionRange := do
  let start ← tagNumber
  if ← acceptsWord "to" then
    if ← acceptsWord "max" then
      ofBuild (ExtensionRange.build doc start Tag.greatest)
    else
      ofBuild (ExtensionRange.build doc start (← tagNumber))
  else
    ofBuild (ExtensionRange.build doc start start)

/-- Consumes a statement of extension ranges. -/
def extensionRanges : Parser (List ExtensionRange) := do
  let doc ← documentation
  let _ ← expectWord .schema "extensions"
  let ranges ← separated (extensionRange doc)
  semicolon
  return ranges

/-- An item in the body of an enum. -/
inductive EnumItem where
  | empty
  | option (s : Setting)
  | value (v : EnumValue)

namespace EnumItem

/-- The option that an item sets. -/
def setting? : EnumItem → Option Setting
  | option s => some s
  | _ => none

/-- The value that an item declares. -/
def value? : EnumItem → Option EnumValue
  | value v => some v
  | _ => none

end EnumItem

/-- Consumes a value of an enum. -/
def enumValue : Parser EnumValue := do
  let doc ← documentation
  let name ← identifier .schema "an enum value name"
  let _ ← expect .schema .equals "'=' after enum value name"
  let tag ← tagNumber
  let options ← trailingSettings
  semicolon
  ofBuild (EnumValue.build name tag doc options)

/-- Whether an option statement starts at a token of an enum body.  A value may be called
`option`, so the token behind the word decides. -/
def startsEnumOption (t : Token) : Parser Bool := do
  if t.isWord "option" then
    return (← peek 1).kind ≠ .equals
  else
    return false

/-- Consumes an item of the body of the enum with the given name. -/
def enumItem (name : String) (t : Token) : Parser EnumItem := do
  if t.kind = .semicolon then
    let _ ← next
    return .empty
  else if ← startsEnumOption t then
    return .option (← optionStatement)
  else if t.kind = .identifier then
    return .value (← enumValue)
  else
    fail .schema t (.misplaced .enumeration name)

/-- Consumes an enum. -/
def enumeration (scope : Scope) : Parser Enumeration := do
  let doc ← documentation
  let _ ← expectWord .schema "enum"
  let name ← identifier .schema "an enum name"
  let opened ← expect .schema .openBrace "'\x7b' after enum name"
  let items ← bodyItems opened (enumItem name)
  ofBuild (Enumeration.build name (scope.qualify name) doc (items.filterMap (·.setting?))
    (items.filterMap (·.value?)))

/-- Consumes the type of the argument or the result of a procedure. -/
def rpcType : Parser String := do
  let _ ← expect .schema .openParen "'('"
  let name ← qualifiedName .schema "a message type"
  let _ ← expect .schema .closeParen "')'"
  return name

/-- Consumes an item of the body of the procedure with the given name. -/
def rpcItem (name : String) (t : Token) : Parser (Option Setting) := do
  if t.kind = .semicolon then
    let _ ← next
    return none
  else if t.isWord "option" then
    return some (← optionStatement)
  else
    fail .schema t (.misplaced .rpc name)

/-- Consumes what follows the types of a procedure: a semicolon, or a body with options and
perhaps a semicolon behind it. -/
def rpcBody (name : String) : Parser (List Setting) := do
  match ← accept? .openBrace with
  | none =>
    semicolon
    return []
  | some opened =>
    let items ← bodyItems opened (rpcItem name)
    let _ ← accept? .semicolon
    return items.filterMap id

/-- Consumes a procedure. -/
def rpc : Parser Rpc := do
  let documentation ← documentation
  let _ ← expectWord .schema "rpc"
  let name ← identifier .schema "an rpc name"
  let requestType ← rpcType
  let _ ← expectWord .schema "returns"
  let responseType ← rpcType
  let options ← rpcBody name
  return { name, requestType, responseType, documentation, options }

/-- An item in the body of a service. -/
inductive ServiceItem where
  | empty
  | option (s : Setting)
  | rpc (r : Rpc)

namespace ServiceItem

/-- The option that an item sets. -/
def setting? : ServiceItem → Option Setting
  | option s => some s
  | _ => none

/-- The procedure that an item declares. -/
def rpc? : ServiceItem → Option Rpc
  | rpc r => some r
  | _ => none

end ServiceItem

/-- Consumes an item of the body of the service with the given name. -/
def serviceItem (name : String) (t : Token) : Parser ServiceItem := do
  if t.kind = .semicolon then
    let _ ← next
    return .empty
  else if t.isWord "option" then
    return .option (← optionStatement)
  else if t.isWord "rpc" then
    return .rpc (← rpc)
  else
    fail .schema t (.misplaced .service name)

/-- Consumes a service. -/
def service (scope : Scope) : Parser Service := do
  let documentation ← documentation
  let _ ← expectWord .schema "service"
  let name ← identifier .schema "a service name"
  let opened ← expect .schema .openBrace "'\x7b' after service name"
  let items ← bodyItems opened (serviceItem name)
  return {
    name, fullName := scope.qualify name, documentation
    options := items.filterMap (·.setting?), rpcs := items.filterMap (·.rpc?) }

/-- Consumes an item of the body of the extension of the message with the given name. -/
def extendItem (name : String) (t : Token) : Parser (Option Field) := do
  if t.kind = .semicolon then
    let _ ← next
    return none
  else if startsField t then
    return some (← field)
  else
    fail .schema t (.misplaced .extension name)

/-- Consumes an extension. -/
def extension (scope : Scope) : Parser Extend := do
  let doc ← documentation
  let _ ← expectWord .schema "extend"
  let name ← qualifiedName .schema "a message name"
  let opened ← expect .schema .openBrace "'\x7b' after extended type"
  let items ← bodyItems opened (extendItem name)
  ofBuild (Extend.build name (scope.qualifyExtended name) doc (items.filterMap id))

/-- A message together with the extensions declared anywhere in its body, in source order. -/
structure MessageWithExtensions where
  message : Message
  extensions : List Extend

/-- An item in the body of a message. -/
inductive MessageItem where
  | empty
  | field (f : Field)
  | message (m : MessageWithExtensions)
  | enumeration (e : Enumeration)
  | extensionRanges (rs : List ExtensionRange)
  | option (s : Setting)
  | extension (e : Extend)

namespace MessageItem

/-- The field that an item declares. -/
def field? : MessageItem → Option Field
  | field f => some f
  | _ => none

/-- The type that an item declares. -/
def type? : MessageItem → Option TypeDecl
  | message m => some (.message m.message)
  | enumeration e => some (.enumeration e)
  | _ => none

/-- The extension ranges that an item declares. -/
def ranges : MessageItem → List ExtensionRange
  | extensionRanges rs => rs
  | _ => []

/-- The option that an item sets. -/
def setting? : MessageItem → Option Setting
  | option s => some s
  | _ => none

/-- The extensions declared in an item, at any depth. -/
def extensions : MessageItem → List Extend
  | message m => m.extensions
  | extension e => [e]
  | _ => []

end MessageItem

/-- Consumes an item of the body of the message with the given name, given the scope of the
body and how messages in it are read. -/
def messageItem (inner : Scope → Parser MessageWithExtensions) (scope : Scope) (name : String)
    (t : Token) : Parser MessageItem := do
  if t.kind = .semicolon then
    let _ ← next
    return .empty
  else if startsField t then
    return .field (← field)
  else if t.isWord "message" then
    return .message (← inner scope)
  else if t.isWord "enum" then
    return .enumeration (← enumeration scope)
  else if t.isWord "extensions" then
    return .extensionRanges (← extensionRanges)
  else if t.isWord "option" then
    return .option (← optionStatement)
  else if t.isWord "extend" then
    return .extension (← extension scope)
  else
    fail .schema t (.misplaced .message name)

/-- Consumes a message, given how the messages in it are read. -/
def messageWith (inner : Scope → Parser MessageWithExtensions) (scope : Scope) :
    Parser MessageWithExtensions := do
  let doc ← documentation
  let _ ← expectWord .schema "message"
  let name ← identifier .schema "a message name"
  let opened ← expect .schema .openBrace "'\x7b' after message name"
  let items ← bodyItems opened (messageItem inner (scope.nested name) name)
  let message ← ofBuild (Message.build name (scope.qualify name) doc
    (items.filterMap (·.field?)) (items.filterMap (·.type?)) (items.flatMap (·.ranges))
    (items.filterMap (·.setting?)))
  return { message, extensions := items.flatMap (·.extensions) }

/-- Consumes a message that nests no deeper than the given depth. -/
def messageWithin : Nat → Scope → Parser MessageWithExtensions
  | 0, _ => throw .outOfBudget
  | depth + 1, scope => messageWith (messageWithin depth) scope

/-- Consumes a message. -/
def message (scope : Scope) : Parser MessageWithExtensions := do
  messageWithin (← budget) scope

end Proto2.Parser

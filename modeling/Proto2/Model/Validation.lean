import Proto2.Model.Declaration
import Proto2.Model.Options

/-!
The rules of the model, and declarations built by them.

Tags are positive and below `2 ^ 29`, and a band of them is reserved.  Within a message, or
within one extension, no two fields share a tag; within an enum no two values do, unless the
enum allows aliases.  The values of all enums declared directly in one message have different
names.
-/

namespace Proto2

namespace Tag

/-- The least tag. -/
def least : Int := 1

/-- The greatest tag. -/
def greatest : Int := 536870911

/-- Where the reserved band starts. -/
def reservedStart : Int := 19000

/-- Where the reserved band stops, inclusive. -/
def reservedStop : Int := 19999

/-- Whether a number is a legal tag. -/
def isValid (n : Int) : Bool :=
  (least ≤ n && n < reservedStart) || (reservedStop < n && n ≤ greatest)

end Tag

namespace Validation

/-- The first element that occurs earlier in the list as well. -/
def firstRepeated? {α : Type} [BEq α] (xs : List α) : Option α :=
  go [] xs
where
  /-- Looks for an element that was seen, given those seen so far. -/
  go (seen : List α) : List α → Option α
    | [] => none
    | x :: xs => if seen.contains x then some x else go (x :: seen) xs

/-- Refuses a declaration because it violates a rule. -/
def refuse {α : Type} (e : ModelError) : Except BuildError α :=
  .error (.ofModelError e)

/-- Checks the tag of a field or enum value. -/
def checkTag (owner : String) (tag : Int) : Except BuildError Unit :=
  if Tag.isValid tag then .ok () else refuse (.illegalTag owner tag)

/-- Checks that no two tags in a scope are the same. -/
def checkDistinctTags (scope : String) (tags : List Int) : Except BuildError Unit :=
  match firstRepeated? tags with
  | none => .ok ()
  | some tag => refuse (.duplicateTag scope tag)

/-- The names of the values of the enums among some types. -/
def enumValueNames (types : List TypeDecl) : List String :=
  types.flatMap fun
    | .message _ => []
    | .enumeration e => e.values.map (·.name)

/-- Checks that the values of the enums declared directly in a message differ in name. -/
def checkDistinctValueNames (scope : String) (types : List TypeDecl) :
    Except BuildError Unit :=
  match firstRepeated? (enumValueNames types) with
  | none => .ok ()
  | some name => refuse (.duplicateValueName scope name)

end Validation

/-- The label that a text names, or an error. -/
def Label.read (text : String) : Except BuildError Label :=
  match Label.ofText? text with
  | some label => .ok label
  | none => .error (.unknownLabel text)

/-- A field that follows the rules, given the text of its label. -/
def Field.build (label type name : String) (tag : Int) (documentation : String)
    (options : List Setting) : Except BuildError Field := do
  Validation.checkTag name tag
  return { label := ← Label.read label, type, name, tag, documentation, options }

/-- An extension range that follows the rules. -/
def ExtensionRange.build (documentation : String) (start stop : Int) :
    Except BuildError ExtensionRange :=
  if Tag.least ≤ start ∧ start ≤ stop ∧ stop ≤ Tag.greatest then
    .ok { documentation, start, stop }
  else Validation.refuse (.illegalRange start stop)

/-- An enum value that follows the rules. -/
def EnumValue.build (name : String) (tag : Int) (documentation : String)
    (options : List Setting) : Except BuildError EnumValue := do
  Validation.checkTag name tag
  return { name, tag, documentation, options }

/-- Whether the values of an enum with the given options may share tags: its option
`allow_alias` is the boolean true. -/
def Enumeration.aliasing (options : List Setting) : Except ModelError Bool :=
  (Options.find? options "allow_alias").map fun found => found.any (Options.isTrue ·.value)

/-- Whether the values of an enum may share tags. -/
def Enumeration.allowsAlias (e : Enumeration) : Bool :=
  match aliasing e.options with
  | .ok b => b
  | .error _ => false

/-- An enum that follows the rules. -/
def Enumeration.build (name fullName documentation : String) (options : List Setting)
    (values : List EnumValue) : Except BuildError Enumeration :=
  match aliasing options with
  | .error e => Validation.refuse e
  | .ok true => .ok { name, fullName, documentation, options, values }
  | .ok false => do
    Validation.checkDistinctTags fullName (values.map (·.tag))
    return { name, fullName, documentation, options, values }

/-- A message that follows the rules. -/
def Message.build (name fullName documentation : String) (fields : List Field)
    (nestedTypes : List TypeDecl) (extensionRanges : List ExtensionRange)
    (options : List Setting) : Except BuildError Message := do
  Validation.checkDistinctTags fullName (fields.map (·.tag))
  Validation.checkDistinctValueNames fullName nestedTypes
  return { name, fullName, documentation, fields, nestedTypes, extensionRanges, options }

/-- An extension that follows the rules. -/
def Extend.build (name fullName documentation : String) (fields : List Field) :
    Except BuildError Extend := do
  Validation.checkDistinctTags fullName (fields.map (·.tag))
  return { name, fullName, documentation, fields }

namespace Field

/-- Whether a field is marked as deprecated. -/
def isDeprecated (f : Field) : Except ModelError Bool :=
  Options.isSet f.options "deprecated"

/-- Whether a field is packed. -/
def isPacked (f : Field) : Except ModelError Bool :=
  Options.isSet f.options "packed"

/-- The default value of a field. -/
def default? (f : Field) : Except ModelError (Option Value) :=
  (Options.find? f.options "default").map fun found => found.map (·.value)

end Field

end Proto2

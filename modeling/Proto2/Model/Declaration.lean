import Proto2.Model.Value

/-!
The declarations of a schema file.

A declaration is plain data.  Which declarations are legal is the subject of
`Proto2.Model.Validation`; a parser builds only those.  Names of types are kept as written and
are not resolved.  Every declaration that can be named from elsewhere has its fully qualified
name beside its own.
-/

namespace Proto2

/-- How often a field may occur. -/
inductive Label where
  | required
  | optional
  | repeated
deriving DecidableEq, Repr

namespace Label

/-- A label as it is written. -/
def text : Label → String
  | required => "required"
  | optional => "optional"
  | repeated => "repeated"

/-- The label that a word is. -/
def ofText? (s : String) : Option Label :=
  [required, optional, repeated].find? (·.text == s)

@[simp] theorem ofText?_text (l : Label) : ofText? l.text = some l := by
  cases l <;> decide

end Label

/-- A field of a message or of an extension. -/
structure Field where
  label : Label
  type : String
  name : String
  tag : Int
  documentation : String
  options : List Setting

/-- A range of tags, both ends included, that is reserved for extensions. -/
structure ExtensionRange where
  documentation : String
  start : Int
  stop : Int
deriving DecidableEq, Repr

/-- A value of an enum. -/
structure EnumValue where
  name : String
  tag : Int
  documentation : String
  options : List Setting

/-- An enum. -/
structure Enumeration where
  name : String
  fullName : String
  documentation : String
  options : List Setting
  values : List EnumValue

mutual

/-- A message with its fields and the types declared in it. -/
structure Message where
  name : String
  fullName : String
  documentation : String
  fields : List Field
  nestedTypes : List TypeDecl
  extensionRanges : List ExtensionRange
  options : List Setting

/-- A declaration of a type. -/
inductive TypeDecl where
  | message (m : Message)
  | enumeration (e : Enumeration)

end

/-- Fields added to a message declared elsewhere. -/
structure Extend where
  name : String
  fullName : String
  documentation : String
  fields : List Field

/-- A procedure of a service. -/
structure Rpc where
  name : String
  requestType : String
  responseType : String
  documentation : String
  options : List Setting

/-- A service. -/
structure Service where
  name : String
  fullName : String
  documentation : String
  options : List Setting
  rpcs : List Rpc

/-- A schema file.  Extensions count as the file's own wherever they were declared. -/
structure SchemaFile where
  fileName : String
  package : Option String
  imports : List String
  publicImports : List String
  types : List TypeDecl
  services : List Service
  options : List Setting
  extensions : List Extend

/-- Any piece of a schema that can stand on its own. -/
inductive Node where
  | file (f : SchemaFile)
  | message (m : Message)
  | enumeration (e : Enumeration)
  | enumValue (v : EnumValue)
  | field (f : Field)
  | extensionRange (r : ExtensionRange)
  | extension (e : Extend)
  | service (s : Service)
  | rpc (r : Rpc)
  | setting (s : Setting)

/-- The types declared in a declared type; an enum has none. -/
def TypeDecl.nestedTypes : TypeDecl → List TypeDecl
  | .message m => m.nestedTypes
  | .enumeration _ => []

end Proto2

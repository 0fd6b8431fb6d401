import Proto2.Json.Basic
import Proto2.Model.Validation

/-!
Schema files as JSON values.

A declaration is an object with a member for each of its parts.  Of option values, a bare name
is an object with the member `enum`, an option within an option is an object like any option,
and an aggregate is an object with its keys as names.
-/

namespace Proto2

/-- A list as a JSON array. -/
def Json.ofList {α : Type} (encode : α → Json) (xs : List α) : Json :=
  .array (xs.map encode)

mutual

/-- A setting as a JSON value. -/
def Setting.toJson : Setting → Json
  | ⟨name, value, custom⟩ =>
    .object [("name", .string name), ("value", value.toJson), ("custom", .bool custom)]

/-- An option value as a JSON value. -/
def Value.toJson : Value → Json
  | .string s => .string s
  | .bool b => .bool b
  | .int n => .int n
  | .float x => .float x
  | .constant name => .object [("enum", .string name)]
  | .list items => .array (Value.itemsToJson items)
  | .aggregate entries => .object (Value.entriesToJson entries)
  | .setting s => s.toJson

/-- Option values as JSON values. -/
def Value.itemsToJson : List Value → List Json
  | [] => []
  | value :: rest => value.toJson :: Value.itemsToJson rest

/-- The entries of an aggregate as members. -/
def Value.entriesToJson : List (String × Value) → List (String × Json)
  | [] => []
  | (key, value) :: rest => (key, value.toJson) :: Value.entriesToJson rest

end

/-- A field as a JSON value. -/
def Field.toJson (f : Field) : Json :=
  .object [
    ("label", .string f.label.text), ("type", .string f.type), ("name", .string f.name),
    ("tag", .int f.tag), ("documentation", .string f.documentation),
    ("options", .ofList Setting.toJson f.options)]

/-- An extension range as a JSON value. -/
def ExtensionRange.toJson (r : ExtensionRange) : Json :=
  .object [
    ("documentation", .string r.documentation), ("start", .int r.start), ("end", .int r.stop)]

/-- An enum value as a JSON value. -/
def EnumValue.toJson (v : EnumValue) : Json :=
  .object [
    ("name", .string v.name), ("tag", .int v.tag), ("documentation", .string v.documentation),
    ("options", .ofList Setting.toJson v.options)]

/-- An enum as a JSON value. -/
def Enumeration.toJson (e : Enumeration) : Json :=
  .object [
    ("name", .string e.name), ("fqname", .string e.fullName),
    ("documentation", .string e.documentation), ("options", .ofList Setting.toJson e.options),
    ("values", .ofList EnumValue.toJson e.values), ("allow_alias", .bool e.allowsAlias)]

mutual

/-- A message as a JSON value. -/
def Message.toJson : Message → Json
  | ⟨name, fullName, documentation, fields, nestedTypes, extensionRanges, options⟩ =>
    .object [
      ("name", .string name), ("fqname", .string fullName),
      ("documentation", .string documentation), ("fields", .ofList Field.toJson fields),
      ("nested_types", .array (TypeDecl.toJsonItems nestedTypes)),
      ("extensions", .ofList ExtensionRange.toJson extensionRanges),
      ("options", .ofList Setting.toJson options)]

/-- A declared type as a JSON value. -/
def TypeDecl.toJson : TypeDecl → Json
  | .message m => m.toJson
  | .enumeration e => e.toJson

/-- Declared types as JSON values. -/
def TypeDecl.toJsonItems : List TypeDecl → List Json
  | [] => []
  | t :: ts => t.toJson :: TypeDecl.toJsonItems ts

end

/-- An extension as a JSON value. -/
def Extend.toJson (e : Extend) : Json :=
  .object [
    ("name", .string e.name), ("fqname", .string e.fullName),
    ("documentation", .string e.documentation), ("fields", .ofList Field.toJson e.fields)]

/-- A procedure as a JSON value. -/
def Rpc.toJson (r : Rpc) : Json :=
  .object [
    ("name", .string r.name), ("request_type", .string r.requestType),
    ("response_type", .string r.responseType), ("documentation", .string r.documentation),
    ("options", .ofList Setting.toJson r.options)]

/-- A service as a JSON value. -/
def Service.toJson (s : Service) : Json :=
  .object [
    ("name", .string s.name), ("fqname", .string s.fullName),
    ("documentation", .string s.documentation), ("options", .ofList Setting.toJson s.options),
    ("rpcs", .ofList Rpc.toJson s.rpcs)]

/-- A file as a JSON value. -/
def SchemaFile.toJson (f : SchemaFile) : Json :=
  .object [
    ("file_name", .string f.fileName),
    ("package_name", match f.package with
      | some package => .string package
      | none => .null),
    ("dependencies", .ofList .string f.imports),
    ("public_dependencies", .ofList .string f.publicImports),
    ("types", .array (TypeDecl.toJsonItems f.types)),
    ("services", .ofList Service.toJson f.services),
    ("options", .ofList Setting.toJson f.options),
    ("extend_declarations", .ofList Extend.toJson f.extensions)]

end Proto2

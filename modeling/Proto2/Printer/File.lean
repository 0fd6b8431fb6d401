import Proto2.Printer.Declaration

/-!
The canonical text of schema files, and of any piece of a schema.

A file starts with a comment that names it and with its package.  Its sections follow, each
behind an empty line: imports, options, types, extensions, services.
-/

namespace Proto2

open Layout

namespace SchemaFile

/-- The comment that names the file; it shows the name up to the end of its first line. -/
def headerText (fileName : String) : List Char :=
  if fileName = "" then []
  else '/' :: '/' :: ' ' :: fileName.toList.takeWhile (· != '\n') ++ ['\n']

/-- The package statement. -/
def packageText : Option String → List Char
  | none => []
  | some package => "package ".toList ++ package.toList ++ ";\n".toList

/-- An import statement, given the words before the path. -/
def importText (words path : String) : List Char :=
  words.toList ++ '"' :: StringBody.encode path.toList ++ "\";\n".toList

/-- The sections of a file. -/
def sections (f : SchemaFile) : List (List Char) :=
  sectionOf (f.imports.map (importText "import ") ++
      f.publicImports.map (importText "import public ")) ++
    sectionOf (f.options.map optionStatement) ++ sectionOf (TypeDecl.texts f.types) ++
    sectionOf (f.extensions.map Extend.text) ++ sectionOf (f.services.map Service.text)

/-- The text of a file. -/
def text (f : SchemaFile) : List Char :=
  headerText f.fileName ++ packageText f.package ++ f.sections.flatMap ('\n' :: ·)

end SchemaFile

namespace Enumeration

/-- The settings in an enum. -/
def settings (e : Enumeration) : List Setting :=
  e.options ++ e.values.flatMap (·.options)

end Enumeration

mutual

/-- The settings in a message, at any depth. -/
def Message.settings : Message → List Setting
  | ⟨_, _, _, fields, nestedTypes, _, options⟩ =>
    options ++ fields.flatMap (·.options) ++ TypeDecl.settingsOf nestedTypes

/-- The settings in a declared type, at any depth. -/
def TypeDecl.settings : TypeDecl → List Setting
  | .message m => m.settings
  | .enumeration e => e.settings

/-- The settings in declared types, at any depth. -/
def TypeDecl.settingsOf : List TypeDecl → List Setting
  | [] => []
  | t :: ts => t.settings ++ TypeDecl.settingsOf ts

end

theorem TypeDecl.settingsOf_eq (types : List TypeDecl) :
    TypeDecl.settingsOf types = types.flatMap TypeDecl.settings := by
  induction types with
  | nil => rfl
  | cons t types ih => rw [TypeDecl.settingsOf, ih, List.flatMap_cons]

theorem Message.settings_eq (m : Message) :
    m.settings = m.options ++ m.fields.flatMap (·.options) ++
      m.nestedTypes.flatMap TypeDecl.settings := by
  cases m
  rw [Message.settings, TypeDecl.settingsOf_eq]

namespace Extend

/-- The settings in an extension. -/
def settings (e : Extend) : List Setting :=
  e.fields.flatMap (·.options)

end Extend

namespace Service

/-- The settings in a service. -/
def settings (s : Service) : List Setting :=
  s.options ++ s.rpcs.flatMap (·.options)

end Service

namespace SchemaFile

/-- The settings in a file, at any depth. -/
def settings (f : SchemaFile) : List Setting :=
  f.options ++ TypeDecl.settingsOf f.types ++ f.extensions.flatMap (·.settings) ++
    f.services.flatMap (·.settings)

/-- Whether every number in a file may be written. -/
def isWritable (f : SchemaFile) : Bool :=
  f.settings.all (·.isWritable)

/-- The text of a file, if its numbers may be written. -/
def print (f : SchemaFile) : Except Numeral.Unwritable String :=
  if f.isWritable then .ok (String.ofList f.text) else .error {}

end SchemaFile

namespace Node

/-- The canonical text of a piece of a schema. -/
def text : Node → List Char
  | file f => f.text
  | message m => m.text
  | enumeration e => e.text
  | enumValue v => v.text
  | field f => f.text
  | extensionRange r => r.text
  | extension e => e.text
  | service s => s.text
  | rpc r => r.text
  | setting s => s.text

/-- The settings in a piece of a schema, at any depth. -/
def settings : Node → List Setting
  | file f => f.settings
  | message m => m.settings
  | enumeration e => e.settings
  | enumValue v => v.options
  | field f => f.options
  | extensionRange _ => []
  | extension e => e.settings
  | service s => s.settings
  | rpc r => r.options
  | setting s => [s]

/-- The text of a piece of a schema, if its numbers may be written. -/
def print (n : Node) : Except Numeral.Unwritable String :=
  if n.settings.all (·.isWritable) then .ok (String.ofList n.text) else .error {}

end Node

end Proto2

import Proto2.Model.Declaration

/-!
Walking through the declarations of a file.
-/

namespace Proto2

mutual

/-- The fields in a message with the full name of the message that declares each: its own
ones first, then those of the messages in it. -/
def Message.ownedFields : Message → List (String × Field)
  | ⟨_, fullName, _, fields, nestedTypes, _, _⟩ =>
    fields.map (fullName, ·) ++ TypeDecl.ownedFieldsOf nestedTypes

/-- The fields in a declared type, each with its owner. -/
def TypeDecl.ownedFields : TypeDecl → List (String × Field)
  | .message m => m.ownedFields
  | .enumeration _ => []

/-- The fields in declared types, each with its owner. -/
def TypeDecl.ownedFieldsOf : List TypeDecl → List (String × Field)
  | [] => []
  | t :: ts => t.ownedFields ++ TypeDecl.ownedFieldsOf ts

end

/-- The fields in a file, each with its owner: those of messages, then those of extensions. -/
def SchemaFile.ownedFields (f : SchemaFile) : List (String × Field) :=
  TypeDecl.ownedFieldsOf f.types ++ f.extensions.flatMap fun e => e.fields.map (e.fullName, ·)

end Proto2

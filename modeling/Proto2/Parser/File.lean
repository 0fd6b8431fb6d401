import Proto2.Parser.Declaration

/-!
Reading schema files.

    file := (';' | 'syntax' '=' STRING ';' | 'package' name ';' | 'import' 'public'? STRING ';'
          | option | message | enum | service | extend)*

A declaration is named within the package that has been declared before it.  A second package
declaration is an error.
-/

namespace Proto2

namespace Parser

/-- An item at the top level of a file. -/
inductive FileItem where
  | empty
  | dialect
  | package (name : String)
  | imported (isPublic : Bool) (path : String)
  | option (s : Setting)
  | message (m : MessageWithExtensions)
  | enumeration (e : Enumeration)
  | service (s : Service)
  | extension (e : Extend)

namespace FileItem

/-- The package that an item declares. -/
def package? : FileItem → Option String
  | package name => some name
  | _ => none

/-- The path that an item imports, privately or publicly as asked for. -/
def imported? (publicly : Bool) : FileItem → Option String
  | imported isPublic path => if isPublic = publicly then some path else none
  | _ => none

/-- The option that an item sets. -/
def setting? : FileItem → Option Setting
  | option s => some s
  | _ => none

/-- The type that an item declares. -/
def type? : FileItem → Option TypeDecl
  | message m => some (.message m.message)
  | enumeration e => some (.enumeration e)
  | _ => none

/-- The service that an item declares. -/
def service? : FileItem → Option Service
  | service s => some s
  | _ => none

/-- The extensions declared in an item, at any depth. -/
def extensions : FileItem → List Extend
  | message m => m.extensions
  | extension e => [e]
  | _ => []

end FileItem

/-- Consumes a statement that names the dialect of the schema.  There is one dialect, so the
name is not looked at. -/
def dialectStatement : Parser Unit := do
  let _ ← expectWord .schema "syntax"
  let _ ← expect .schema .equals "'=' after syntax"
  let _ ← expect .schema .string "a syntax string"
  semicolon

/-- Consumes a package statement, given the package declared before. -/
def packageStatement (declared : Option String) (t : Token) : Parser String := do
  match declared with
  | some package => fail .schema t (.duplicatePackage package)
  | none =>
    let _ ← next
    let name ← qualifiedName .schema "a package name"
    semicolon
    return name

/-- Consumes an import statement. -/
def importStatement : Parser FileItem := do
  let _ ← next
  let isPublic ← acceptsWord "public"
  let path ← decodeString (← expect .schema .string "an import path")
  semicolon
  return .imported isPublic path

/-- Consumes an item at the top level, given the package declared before and the token at
which the item starts. -/
def fileItem (package : Option String) (t : Token) : Parser FileItem := do
  let scope := Scope.top package
  if t.kind = .semicolon then
    let _ ← next
    return .empty
  else if t.isWord "syntax" then
    dialectStatement
    return .dialect
  else if t.isWord "package" then
    return .package (← packageStatement package t)
  else if t.isWord "import" then
    importStatement
  else if t.isWord "option" then
    return .option (← optionStatement)
  else if t.isWord "message" then
    return .message (← message scope)
  else if t.isWord "enum" then
    return .enumeration (← enumeration scope)
  else if t.isWord "service" then
    return .service (← service scope)
  else if t.isWord "extend" then
    return .extension (← extension scope)
  else
    fail .schema t .notADeclaration

/-- Consumes items up to the end of the input, in at most the given number of rounds. -/
def fileItemsWithin : Nat → Option String → Parser (List FileItem)
  | 0, _ => throw .outOfBudget
  | n + 1, package => do
    let t ← peek 0
    if t.isEnd then
      return []
    else
      let item ← fileItem package t
      let rest ← fileItemsWithin n (item.package?.or package)
      return item :: rest

/-- The file with the given items. -/
def fileOfItems (fileName : String) (items : List FileItem) : SchemaFile where
  fileName := fileName
  package := items.findSome? (·.package?)
  imports := items.filterMap (·.imported? false)
  publicImports := items.filterMap (·.imported? true)
  types := items.filterMap (·.type?)
  services := items.filterMap (·.service?)
  options := items.filterMap (·.setting?)
  extensions := items.flatMap (·.extensions)

/-- Consumes a file up to the end of the input. -/
def file (fileName : String) : Parser SchemaFile := do
  return fileOfItems fileName (← fileItemsWithin (← budget) none)

end Parser

/-- Reads a schema file, given its name and its text. -/
def SchemaFile.parse (fileName : String) (source : String) : Except Failure SchemaFile :=
  match (Parser.file fileName).run (TokenStream.ofText fileName source.toList) with
  | .ok file _ => .ok file
  | .error failure _ => .error failure

end Proto2

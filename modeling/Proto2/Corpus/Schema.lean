import Proto2.Corpus.Words

/-!
Random schema files.

Every file is legal by construction.  Tags increase and skip the reserved band, the names of
enum values end in their places and, in a message, in the place of their enum, and the ranges
for extensions lie among the legal tags.  A file may import only the files it is given.
-/

namespace Proto2.Corpus

variable {σ : Type}

/-- The types of fields that need no declaration. -/
def scalarTypes : List Line :=
  ["int64", "uint32", "uint64", "sint32", "fixed64", "bool", "string", "bytes", "double"].map
    String.toList

/-- The next legal tag that is at least the given number. -/
def legalTag (n : Nat) : Nat :=
  if 19000 ≤ n ∧ n ≤ 19999 then 20000 else n

/-- A tag from the given number on, sometimes with a small gap. -/
def tag (least : Nat) : Generator σ Nat := do
  return legalTag (least + (← Generator.between 0 3))

/-- The type of a field. -/
def fieldType : Generator σ Line := do
  if ← Generator.chance 70 then
    Generator.oneOf "int32".toList scalarTypes
  else
    dottedName 3

/-- The bracketed options of a field, if it has any. -/
def fieldOptions : Generator σ Line := do
  if ← Generator.chance 30 then
    let chosen ← Generator.times (← Generator.between 1 2) option
    let marks := if ← Generator.chance 50 then ["deprecated = true".toList] else []
    return " [".toList ++ Text.joined ", ".toList (chosen ++ marks) ++ [']']
  else
    return []

/-- A field whose tag is at least the given number: its tag, and its lines. -/
def field (least indent : Nat) : Generator σ (Nat × List Line) := do
  let label ← Generator.oneOf "required".toList ["optional".toList, "repeated".toList]
  let type ← fieldType
  let tag ← tag least
  let tagText := if ← Generator.chance 10 then hexNumber tag else number tag
  let options ← fieldOptions
  let doc ← documentation indent
  let name ← identifier
  let line := spaces indent ++ label ++ ' ' :: type ++ ' ' :: name ++ " = ".toList ++ tagText ++
    options ++ [';']
  return (tag, doc ++ [line])

/-- So many fields with increasing tags, the first of them at least the given number. -/
def fields (indent : Nat) : Nat → Nat → Generator σ (List Line)
  | 0, _ => return []
  | count + 1, least => do
    let (tag, first) ← field least indent
    let rest ← fields indent count (tag + 1)
    return first ++ rest

/-- The bracketed option of an enum value, if it has one. -/
def valueOptions : Generator σ Line := do
  if ← Generator.chance 10 then
    let custom ← identifier
    return " [(".toList ++ custom ++ ") = ".toList ++ (← value 2) ++ [']']
  else
    return []

/-- How far the tag of the next enum value is from that of the one before, given whether tags
may be shared. -/
def tagGap : Bool → Generator σ Nat
  | false => Generator.between 1 3
  | true => do
    if ← Generator.chance 30 then
      return 0
    else
      Generator.between 1 3

/-- The values of an enum from a place on, given how many there are, whether tags may be
shared, and the tag of the first one. -/
def enumValues (ending : Line) (aliased : Bool) (indent : Nat) :
    Nat → Nat → Nat → Generator σ (List Line)
  | 0, _, _ => return []
  | count + 1, place, tag => do
    let name := capitals (← identifier) ++ '_' :: number place ++ ending
    let options ← valueOptions
    let doc ← documentation indent
    let line := spaces indent ++ name ++ " = ".toList ++ number tag ++ options ++ [';']
    let gap ← tagGap aliased
    let rest ← enumValues ending aliased indent count (place + 1) (tag + gap)
    return doc ++ line :: rest

/-- An enum, given what the names of its values end in. -/
def enumeration (ending : Line) (indent : Nat) : Generator σ (List Line) := do
  let pad := spaces indent
  let name ← identifier
  let doc ← documentation indent
  let aliased ← Generator.chance 20
  let count ← Generator.between 1 8
  let values ← enumValues ending aliased (indent + 2) count 0 1
  return doc ++ [pad ++ "enum ".toList ++ name ++ " \x7b".toList] ++
    (if aliased then [pad ++ "  option allow_alias = true;".toList] else []) ++ values ++
    [pad ++ "\x7d".toList]

/-- An extension. -/
def extension (indent : Nat) : Generator σ (List Line) := do
  let pad := spaces indent
  let target ← dottedName 3
  let doc ← documentation indent
  let body ← fields (indent + 2) (← Generator.between 1 3) 100
  return doc ++ [pad ++ "extend ".toList ++ target ++ " \x7b".toList] ++ body ++
    [pad ++ "\x7d".toList]

/-- What is made with so many hundredths of a chance, or nothing. -/
def sometimes (percent : Nat) (make : Generator σ (List Line)) : Generator σ (List Line) := do
  if ← Generator.chance percent then
    make
  else
    return []

/-- An option statement as a line. -/
def optionLine (pad : Line) : Generator σ (List Line) := do
  return [pad ++ "option ".toList ++ (← option) ++ [';']]

/-- A statement with one range of tags for extensions. -/
def extensionsLine (pad : Line) : Generator σ (List Line) := do
  let start := 1000 + (← Generator.between 0 100)
  let stop := start + (← Generator.between 0 50)
  let stopText ← Generator.oneOf (number stop) ["max".toList]
  return [pad ++ "extensions ".toList ++ number start ++ " to ".toList ++ stopText ++ [';']]

/-- The enums in a message, usually none. -/
def nestedEnums (indent : Nat) : Generator σ (List Line) := do
  let count ← if ← Generator.chance 30 then Generator.between 0 2 else pure 0
  let enums ← Generator.places count fun i => enumeration ("_E".toList ++ number i) indent
  return enums.flatten

/-- What stands in a message before the messages in it. -/
def messageHead (indent : Nat) : Generator σ (List Line) := do
  let pad := spaces indent
  let options ← sometimes 20 (optionLine pad)
  let body ← fields indent (← Generator.between 0 8) 1
  let range ← sometimes 25 (extensionsLine pad)
  let more ← sometimes 10 (return [pad ++ "extensions 500, 600 to 700;".toList])
  let enums ← nestedEnums indent
  return options ++ body ++ range ++ more ++ enums

/-- A message with its documentation, given what is made of the messages in it. -/
def messageWith (inner : Generator σ (List Line)) (indent : Nat) :
    Generator σ (List Line) := do
  let pad := spaces indent
  let name ← identifier
  let doc ← documentation indent
  let head ← messageHead (indent + 2)
  let nested ← inner
  let extensions ← sometimes 10 (extension (indent + 2))
  return doc ++ [pad ++ "message ".toList ++ name ++ " \x7b".toList] ++ head ++ nested ++
    extensions ++ [pad ++ "\x7d".toList]

/-- A message in which messages nest to the given depth at most. -/
def message : Nat → Nat → Generator σ (List Line)
  | 0, indent => messageWith (return []) indent
  | depth + 1, indent => messageWith (sometimes 20 (message depth (indent + 2))) indent

/-- The type of an argument: a well-known one, a plain name or a name in a package. -/
def requestType : Generator σ Line := do
  let plain ← identifier
  let package ← identifier
  let name ← identifier
  Generator.oneOf "google.protobuf.Empty".toList [plain, package ++ '.' :: name]

/-- The type of a result: a well-known one or a plain name. -/
def responseType : Generator σ Line := do
  let plain ← identifier
  Generator.oneOf "google.protobuf.Empty".toList [plain]

/-- A procedure, sometimes with an option. -/
def rpc : Generator σ (List Line) := do
  let name ← identifier
  let request ← requestType
  let response ← responseType
  let doc ← documentation 2
  let head := "  rpc ".toList ++ name ++ " (".toList ++ request ++ ") returns (".toList ++
    response ++ [')']
  if ← Generator.chance 20 then
    let options ← optionLine (spaces 4)
    return doc ++ [head ++ " \x7b".toList] ++ options ++ ["  \x7d".toList]
  else
    return doc ++ [head ++ [';']]

/-- A service. -/
def service : Generator σ (List Line) := do
  let name ← identifier
  let doc ← documentation 0
  let options ← sometimes 20 (optionLine (spaces 2))
  let rpcs ← Generator.times (← Generator.between 1 5) rpc
  return doc ++ ["service ".toList ++ name ++ " \x7b".toList] ++ options ++ rpcs.flatten ++
    ["\x7d".toList]

/-- A declaration at top level, with an empty line behind it. -/
def declaration : Generator σ (List Line) := do
  let k ← Generator.fraction
  let lines ←
    if Generator.isBelow 55 k then message 2 0
    else if Generator.isBelow 75 k then enumeration [] 0
    else if Generator.isBelow 90 k then service
    else extension 0
  return lines ++ [[]]

/-- Lines as a section, with an empty line behind them unless there are none. -/
def sectionLines (lines : List Line) : List Line :=
  if lines.isEmpty then [] else lines ++ [[]]

/-- An import statement for a file, sometimes a public one. -/
def importLine (target : Line) : Generator σ Line := do
  let visibility := if ← Generator.chance 20 then "public ".toList else []
  return "import ".toList ++ visibility ++ '"' :: target ++ "\";".toList

/-- An import statement for each of some files. -/
def importLines : List Line → Generator σ (List Line)
  | [] => return []
  | target :: targets => do
    let first ← importLine target
    let rest ← importLines targets
    return first :: rest

/-- Imports of some of the files that may be imported. -/
def imports (importable : List Line) : Generator σ (List Line) := do
  if importable.isEmpty then
    return []
  else
    let count ← Generator.between 0 3
    importLines (← Generator.sample importable (min importable.length count))

/-- A schema file, given the files that it may import. -/
def schema (importable : List Line) : Generator σ Line := do
  let dialect ← sometimes 50 (return ["syntax = \"proto2\";".toList])
  let package ← sometimes 60 do
    return ["package ".toList ++ (← dottedName 4) ++ [';']]
  let imports ← imports importable
  let options ← Generator.times (← Generator.between 0 2) (optionLine [])
  let declarations ← Generator.times (← Generator.between 1 4) declaration
  return Text.unlines (sectionLines dialect ++ sectionLines package ++ sectionLines imports ++
    sectionLines options.flatten ++ declarations.flatten)

/-- The name of the file at a place, with six digits. -/
def fileName (place : Nat) : Line :=
  let digits := number place
  "case_".toList ++ List.replicate (6 - digits.length) '0' ++ digits ++ ".proto".toList

/-- So many schema files that import nothing. -/
def sources (count : Nat) : Generator σ (List Line) :=
  Generator.times count (schema [])

/-- So many schema files with their names; each may import those before it. -/
def namedFiles (count : Nat) : Generator σ (List (Line × Line)) :=
  Generator.places count fun i => do
    return (fileName i, ← schema ((List.range i).map fileName))

/-- What a generator makes from a seed. -/
def fromSeed {α : Type} (seed : Int) (make : Generator Twister α) : α :=
  (make.run Twister.source (Twister.ofSeed seed)).1

end Proto2.Corpus

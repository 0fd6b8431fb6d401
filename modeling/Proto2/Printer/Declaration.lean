import Proto2.Model.Declaration
import Proto2.Model.Validation
import Proto2.Printer.Setting

/-!
The canonical text of declarations.

A body is a sequence of sections, one for each kind of item, with an empty line between each
two; a body without sections is written `{}`.  Documentation is written as line comments
above the declaration.
-/

namespace Proto2

namespace Layout

/-- The comment line for a line of documentation. -/
def commentLine (line : List Char) : List Char :=
  if line.isEmpty then ['/', '/', '\n'] else '/' :: '/' :: ' ' :: line ++ ['\n']

/-- Documentation as comment lines; none for empty documentation. -/
def commentLines (doc : String) : List Char :=
  if doc = "" then [] else (Text.lines doc.toList).flatMap commentLine

/-- The section with the given items, or none if there are no items. -/
def sectionOf (items : List (List Char)) : List (List Char) :=
  if items.isEmpty then [] else [items.flatten]

/-- The sections of a body, behind its opening brace and before the closing one. -/
def body (sections : List (List Char)) : List Char :=
  if sections.isEmpty then [] else '\n' :: Text.indent (Text.joined ['\n'] sections)

/-- A declaration with a body, given what stands before the opening brace. -/
def block (head : List Char) (sections : List (List Char)) : List Char :=
  head ++ " \x7b".toList ++ body sections ++ "\x7d\n".toList

/-- An option statement. -/
def optionStatement (s : Setting) : List Char :=
  "option ".toList ++ s.text ++ ";\n".toList

/-- The bracketed settings behind a field or enum value; nothing if there are none. -/
def trailingSettings (options : List Setting) : List Char :=
  if options.isEmpty then []
  else ' ' :: bracketedText '[' ']' (options.map Setting.text)

end Layout

open Layout

/-- The text of a field. -/
def Field.text (f : Field) : List Char :=
  commentLines f.documentation ++ f.label.text.toList ++ ' ' :: f.type.toList ++
    ' ' :: f.name.toList ++ " = ".toList ++ Numeral.text f.tag ++
    trailingSettings f.options ++ ";\n".toList

/-- The text of an extension range. -/
def ExtensionRange.text (r : ExtensionRange) : List Char :=
  let stop :=
    if r.start = r.stop then []
    else if r.stop = Tag.greatest then " to max".toList
    else " to ".toList ++ Numeral.text r.stop
  commentLines r.documentation ++ "extensions ".toList ++ Numeral.text r.start ++ stop ++
    ";\n".toList

/-- The text of an enum value. -/
def EnumValue.text (v : EnumValue) : List Char :=
  commentLines v.documentation ++ v.name.toList ++ " = ".toList ++ Numeral.text v.tag ++
    trailingSettings v.options ++ ";\n".toList

/-- The text of an enum. -/
def Enumeration.text (e : Enumeration) : List Char :=
  block (commentLines e.documentation ++ "enum ".toList ++ e.name.toList)
    (sectionOf (e.options.map optionStatement) ++ sectionOf (e.values.map EnumValue.text))

mutual

/-- The text of a message. -/
def Message.text : Message → List Char
  | ⟨name, _, doc, fields, nestedTypes, extensionRanges, options⟩ =>
    block (commentLines doc ++ "message ".toList ++ name.toList)
      (sectionOf (options.map optionStatement) ++ sectionOf (fields.map Field.text) ++
        sectionOf (extensionRanges.map ExtensionRange.text) ++
        sectionOf (TypeDecl.texts nestedTypes))

/-- The text of a declared type. -/
def TypeDecl.text : TypeDecl → List Char
  | .message m => m.text
  | .enumeration e => e.text

/-- The texts of declared types. -/
def TypeDecl.texts : List TypeDecl → List (List Char)
  | [] => []
  | t :: ts => t.text :: TypeDecl.texts ts

end

/-- The text of an extension. -/
def Extend.text (e : Extend) : List Char :=
  block (commentLines e.documentation ++ "extend ".toList ++ e.name.toList)
    (sectionOf (e.fields.map Field.text))

/-- The text of a procedure. -/
def Rpc.text (r : Rpc) : List Char :=
  let head :=
    commentLines r.documentation ++ "rpc ".toList ++ r.name.toList ++ " (".toList ++
      r.requestType.toList ++ ") returns (".toList ++ r.responseType.toList ++ ")".toList
  if r.options.isEmpty then head ++ ";\n".toList
  else
    head ++ " \x7b\n".toList ++ Text.indent (r.options.map optionStatement).flatten ++
      "\x7d;\n".toList

/-- The text of a service. -/
def Service.text (s : Service) : List Char :=
  block (commentLines s.documentation ++ "service ".toList ++ s.name.toList)
    (sectionOf (s.options.map optionStatement) ++ sectionOf (s.rpcs.map Rpc.text))

end Proto2

import Proto2.Cli.Arguments
import Proto2.Cli.Files
import Proto2.Json.Printer
import Proto2.Json.Schema
import Proto2.Parser.File
import Proto2.Printer.File
import Proto2.Text.Utf8

/-!
The command: it reads schema files and prints them, canonically or as JSON.

Nothing is printed unless every file can be read.  The first file that cannot be read or is
no legal schema ends the run with a diagnostic.  An argument that is no path, a file that is
no text, or a number that is too long to be converted, breaks the run off; there is no
diagnostic for those.
-/

namespace Proto2.Cli

/-- What a run leaves behind: the exit code and the texts printed. -/
structure Outcome where
  exit : Nat
  output : String
  errors : String
deriving DecidableEq, Repr

/-- Why a run breaks off without a diagnostic. -/
inductive Abort where
  | path (e : PathError)
  | encoding (e : Text.Utf8Error)
  | failure (f : Failure)
  | unwritable (e : Numeral.Unwritable)
deriving DecidableEq, Repr

/-- The reason in words. -/
def Abort.message : Abort → String
  | path e => e.message
  | encoding e => e.message
  | failure f => f.text
  | unwritable e => e.message

/-- Why a file yields no schema: a diagnostic for the user, or a reason to break off. -/
inductive Refusal where
  | diagnostic (text : String)
  | abort (a : Abort)
deriving DecidableEq, Repr

/-- The refusal of the file with the given path because of a failure. -/
def Refusal.ofFailure (path : String) : Failure → Refusal
  | .parse e => .diagnostic e.text
  | .build (.invalid e) => .diagnostic (path ++ ": " ++ e.message)
  | f => .abort (.failure f)

/-- The text of a file. -/
def decodeFile (bytes : List UInt8) : Except Abort String :=
  match Text.decodeUtf8 bytes with
  | .ok cs => .ok (String.ofList (Text.normalizeNewlines cs))
  | .error e => .error (.encoding e)

/-- A line of the log. -/
def logLine (text : String) : String :=
  "DEBUG protoschema.api: " ++ text ++ "\n"

/-- The line of the log before a file is parsed. -/
def logBefore (path source : String) : String :=
  logLine ("parsing " ++ Span.shownFile path ++ " (" ++ toString source.length ++ " chars)")

/-- The line of the log after a file is parsed. -/
def logAfter (path : String) (f : SchemaFile) : String :=
  logLine ("parsed " ++ Span.shownFile path ++ ": " ++ toString f.types.length ++ " types, " ++
    toString f.services.length ++ " services, " ++ toString f.extensions.length ++ " extends")

/-- The text of the file with the given path. -/
def readText (read : Path → Except FileError (List UInt8)) (path : String) :
    Except Refusal String :=
  match Path.ofText path with
  | .error e => .error (.abort (.path e))
  | .ok p =>
    match read p with
    | .error e => .error (.diagnostic (path ++ ": " ++ e.message))
    | .ok bytes => (decodeFile bytes).mapError .abort

/-- The schema in the file with the given path, with the log of reading it. -/
def readSchema (read : Path → Except FileError (List UInt8)) (path : String) :
    String × Except Refusal SchemaFile :=
  match readText read path with
  | .error r => ("", .error r)
  | .ok source =>
    match SchemaFile.parse path source with
    | .error f => (logBefore path source, .error (.ofFailure path f))
    | .ok file => (logBefore path source ++ logAfter path file, .ok file)

/-- The schemas in files, with the log of reading them, up to the first one refused.  A file
that is named twice is read twice and counts once. -/
def readSchemas (read : Path → Except FileError (List UInt8)) :
    List (String × SchemaFile) → List String →
      String × Except Refusal (List (String × SchemaFile))
  | schemas, [] => ("", .ok schemas)
  | schemas, path :: paths =>
    match readSchema read path with
    | (log, .error r) => (log, .error r)
    | (log, .ok file) =>
      let (more, result) := readSchemas read (Entries.put path file schemas) paths
      (log ++ more, result)

/-- Schemas as one JSON object, by their paths. -/
def jsonOutput (schemas : List (String × SchemaFile)) : String :=
  String.ofList (Json.object (schemas.map fun (path, file) => (path, file.toJson))).text ++ "\n"

/-- Schemas in canonical form, one after the other. -/
def canonicalOutput (schemas : List (String × SchemaFile)) : String :=
  String.ofList (schemas.flatMap (·.2.text))

/-- What is printed for schemas. -/
def output (json : Bool) (schemas : List (String × SchemaFile)) : Except Abort String :=
  if schemas.all (·.2.isWritable) then
    .ok (if json then jsonOutput schemas else canonicalOutput schemas)
  else .error (.unwritable {})

/-- Reads files and prints them. -/
def readAndPrint (read : Path → Except FileError (List UInt8)) (files : List String)
    (json verbose : Bool) : Except Abort Outcome :=
  let (log, result) := readSchemas read [] files
  let shownLog := if verbose then log else ""
  match result with
  | .error (.abort a) => .error a
  | .error (.diagnostic text) => .ok ⟨1, "", shownLog ++ text ++ "\n"⟩
  | .ok schemas => (output json schemas).map fun text => ⟨0, text, shownLog⟩

/-- Runs the command with the given arguments, given how files are read. -/
def run (read : Path → Except FileError (List UInt8)) (arguments : List String) :
    Except Abort Outcome :=
  match Command.ofArguments arguments with
  | .help => .ok ⟨0, helpText, ""⟩
  | .refuse e => .ok ⟨2, "", usage ++ "protoschema: error: " ++ e.message ++ "\n"⟩
  | .read files json verbose => readAndPrint read files json verbose

end Proto2.Cli

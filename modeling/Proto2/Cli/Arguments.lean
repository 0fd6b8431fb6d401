import Proto2.Text.DecimalDigit
import Proto2.Text.Quoted

/-!
The arguments of the command line.

Options may stand anywhere before the argument `--`.  Long ones may be shortened as long as
they stay unambiguous, and short ones may be run together.  No option takes a value.  The
files are the first unbroken run of other arguments; what stands elsewhere is not recognised.
Arguments take effect from left to right, so a request for help before a mistake is heard.
-/

namespace Proto2.Cli

/-- An option of the command line. -/
inductive Flag where
  | help
  | json
  | verbose
deriving DecidableEq, Repr

namespace Flag

/-- The option of a letter. -/
def ofLetter? : Char → Option Flag
  | 'h' => some .help
  | 'v' => some .verbose
  | _ => none

/-- The long name of an option. -/
def longName : Flag → String
  | help => "--help"
  | json => "--json"
  | verbose => "--verbose"

/-- An option with all its names. -/
def shown : Flag → String
  | help => "-h/--help"
  | json => "--json"
  | verbose => "-v/--verbose"

/-- The options whose long name starts with a text. -/
def startingWith (text : List Char) : List Flag :=
  [help, json, verbose].filter fun flag => text.isPrefixOf flag.longName.toList

end Flag

/-- A mistake on the command line. -/
inductive UsageError where
  | ambiguous (argument : String) (flags : List Flag)
  | ignoredValue (flag : Flag) (value : String)
  | noFiles
  | unrecognized (arguments : List String)
deriving DecidableEq, Repr

/-- A mistake in words. -/
def UsageError.message : UsageError → String
  | ambiguous argument flags =>
    "ambiguous option: " ++ argument ++ " could match " ++
      String.intercalate ", " (flags.map Flag.longName)
  | ignoredValue flag value =>
    "argument " ++ flag.shown ++ ": ignored explicit argument " ++ Text.quotedString value
  | noFiles => "the following arguments are required: files"
  | unrecognized arguments => "unrecognized arguments: " ++ String.intercalate " " arguments

/-- What an argument is. -/
inductive Argument where
  | operand
  /-- An option, perhaps with a value behind an equals sign. -/
  | option (flag : Flag) (value : Option String)
  /-- Short options run together: the first one, and the letters behind it. -/
  | cluster (flag : Flag) (letters : List Char)
  | unknown
deriving DecidableEq, Repr

/-- A text up to its first equals sign, and what follows that. -/
def splitValue (cs : List Char) : List Char × Option String :=
  let name := cs.takeWhile (· != '=')
  match cs.drop name.length with
  | _ :: value => (name, some (String.ofList value))
  | [] => (name, none)

/-- Whether a text is a negative number, which is no option. -/
def isNegativeNumber (cs : List Char) : Bool :=
  let isDigit := fun c => (Text.decimalDigit? c).isSome
  match cs with
  | '-' :: body =>
    let body := if body.getLast? = some '\n' then body.dropLast else body
    match body.dropWhile isDigit with
    | [] => !body.isEmpty
    | '.' :: fraction => !fraction.isEmpty && fraction.all isDigit
    | _ => false
  | _ => false

/-- What an argument is that starts like an option and is none. -/
def unmatched (cs : List Char) : Argument :=
  if isNegativeNumber cs || cs.contains ' ' then .operand else .unknown

/-- What a short option is with the given text behind its letter.  An equals sign in front of
further letters is passed over; with nothing behind it, it gives the option an empty value. -/
def lettered (flag : Flag) : List Char → Argument
  | [] => .option flag none
  | ['='] => .option flag (some "")
  | '=' :: letters => .cluster flag letters
  | letters => .cluster flag letters

/-- What an argument before `--` is. -/
def classify (argument : String) : Except UsageError Argument :=
  match argument.toList with
  | '-' :: '-' :: _ =>
    let (name, value) := splitValue argument.toList
    match Flag.startingWith name with
    | [] => .ok (unmatched argument.toList)
    | [flag] => .ok (.option flag value)
    | flags => .error (.ambiguous argument flags)
  | '-' :: c :: rest =>
    match Flag.ofLetter? c with
    | some flag => .ok (lettered flag rest)
    | none => .ok (unmatched argument.toList)
  | _ => .ok .operand

/-- The arguments, each with what it is. -/
def classifyAll : List String → Except UsageError (List (String × Argument))
  | [] => .ok []
  | argument :: rest =>
    if argument = "--" then .ok ((argument, .operand) :: rest.map (·, .operand))
    else
      match classify argument with
      | .error e => .error e
      | .ok a => (classifyAll rest).map ((argument, a) :: ·)

/-- What the arguments ask for. -/
inductive Command where
  | help
  | refuse (e : UsageError)
  | read (files : List String) (json verbose : Bool)
deriving DecidableEq, Repr

/-- What has been gathered from the arguments so far. -/
structure Gathered where
  files : Option (List String)
  extra : List String
  json : Bool
  verbose : Bool
deriving DecidableEq, Repr

namespace Gathered

/-- Nothing has been gathered yet. -/
def empty : Gathered := ⟨none, [], false, false⟩

/-- Takes up a run of operands.  The first run with an operand other than the leading `--` is
the files. -/
def addOperands (g : Gathered) (run : List String) : Gathered :=
  if g.files.isNone ∧ run ≠ [] ∧ run ≠ ["--"] then { g with files := some (run.erase "--") }
  else { g with extra := g.extra ++ run }

/-- Takes up an option; a request for help ends the reading of the arguments. -/
def addFlag (g : Gathered) : Flag → Except Command Gathered
  | .help => .error .help
  | .json => .ok { g with json := true }
  | .verbose => .ok { g with verbose := true }

/-- Takes up an argument that was not recognised. -/
def addExtra (g : Gathered) (argument : String) : Gathered :=
  { g with extra := g.extra ++ [argument] }

/-- What is asked for when all arguments are read. -/
def command (g : Gathered) : Command :=
  match g.files with
  | none => .refuse .noFiles
  | some files =>
    if g.extra.isEmpty then .read files g.json g.verbose else .refuse (.unrecognized g.extra)

end Gathered

/-- The options in a cluster: an option, and one for each letter behind it.  From a letter on
that is no option, the text counts as a value of the option before it. -/
def clusterFlags (flag : Flag) : List Char → Except UsageError (List Flag)
  | [] => .ok [flag]
  | c :: rest =>
    match Flag.ofLetter? c with
    | some next => (clusterFlags next rest).map (flag :: ·)
    | none => .error (.ignoredValue flag (String.ofList (c :: rest)))

/-- Takes up an argument that is an option. -/
def addOption (g : Gathered) (argument : String) : Argument → Except Command Gathered
  | .operand => .ok g
  | .unknown => .ok (g.addExtra argument)
  | .option flag none => g.addFlag flag
  | .option flag (some value) => .error (.refuse (.ignoredValue flag value))
  | .cluster flag letters =>
    match clusterFlags flag letters with
    | .error e => .error (.refuse e)
    | .ok flags => flags.foldlM Gathered.addFlag g

/-- Takes up the arguments, given the operands of the current run. -/
def gather (g : Gathered) (run : List String) : List (String × Argument) → Except Command Gathered
  | [] => .ok (g.addOperands run)
  | (argument, .operand) :: rest => gather g (run ++ [argument]) rest
  | (argument, a) :: rest => do
    let g ← addOption (g.addOperands run) argument a
    gather g [] rest

/-- What the arguments ask for. -/
def Command.ofArguments (arguments : List String) : Command :=
  match classifyAll arguments with
  | .error e => .refuse e
  | .ok classified =>
    match gather .empty [] classified with
    | .error command => command
    | .ok g => g.command

/-- How the command is used. -/
def usage : String :=
  "usage: protoschema [-h] [--json] [-v] files [files ...]\n"

/-- The answer to a request for help. -/
def helpText : String :=
  usage ++ "\nParse proto2 .proto schema files\n\npositional arguments:\n" ++
    "  files          .proto files to parse\n\noptions:\n" ++
    "  -h, --help     show this help message and exit\n" ++
    "  --json         Print parsed AST as JSON\n" ++
    "  -v, --verbose  Enable debug logging\n"

end Proto2.Cli

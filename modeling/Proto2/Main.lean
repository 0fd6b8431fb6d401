import Proto2.Cli.Run

/-!
The program: reads the files named on the command line and runs the command on them.
-/

namespace Proto2.Cli

/-- The code of the operating system for a directory that is read as a file. -/
def isDirectoryCode : UInt32 := 21

/-- The code of the operating system for a path that is too long. -/
def nameTooLongCode : UInt32 := 36

/-- The error of the library for an error of the file system. -/
def FileError.ofSystem : IO.Error → FileError
  | .noFileOrDirectory .. => .missing
  | .permissionDenied .. => .permissionDenied
  | .inappropriateType _ code _ =>
    if code = isDirectoryCode then .isDirectory else .notDirectory
  | .invalidArgument file code details =>
    if code = nameTooLongCode then .nameTooLong
    else .other (toString (IO.Error.invalidArgument file code details))
  | e => .other (toString e)

/-- The home directory. -/
def homeDirectory : IO String := do
  return (← IO.getEnv "HOME").getD "/"

/-- Reads a file as bytes. -/
def readFile (path : Path) : IO (Except FileError (List UInt8)) := do
  let home ← homeDirectory
  try
    let bytes ← IO.FS.readBinFile (path.text home)
    return .ok bytes.toList
  catch e =>
    return .error (FileError.ofSystem e)

/-- The paths of the files that arguments name. -/
def pathsOf (arguments : List String) : List Path :=
  match Command.ofArguments arguments with
  | .read files _ _ => files.filterMap fun file => (Path.ofText file).toOption
  | _ => []

/-- The files at the given paths, with their contents. -/
def readFiles (paths : List Path) : IO (List (Path × Except FileError (List UInt8))) :=
  paths.mapM fun path => return (path, ← readFile path)

end Proto2.Cli

open Proto2.Cli in
/-- Runs the command on the arguments of the program. -/
def main (arguments : List String) : IO UInt32 := do
  let files ← readFiles (pathsOf arguments)
  let read := fun path => (files.lookup path).getD (.error .missing)
  match run read arguments with
  | .ok outcome =>
    (← IO.getStdout).putStr outcome.output
    (← IO.getStderr).putStr outcome.errors
    return UInt32.ofNat outcome.exit
  | .error abort =>
    (← IO.getStderr).putStrLn abort.message
    return 1

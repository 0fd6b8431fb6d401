/-!
Files by their paths.

A path starts in the current directory, at the root of the file system or in the home
directory, and names the way from there.  A tree of files stands for the current directory and
what is below it; what lies outside of the tree is not known, so nothing is found there.
-/

namespace Proto2.Cli

/-- Why a file cannot be read. -/
inductive FileError where
  | missing
  | isDirectory
  | notDirectory
  | nameTooLong
  | permissionDenied
  | other (text : String)
deriving DecidableEq, Repr

/-- The error in words. -/
def FileError.message : FileError → String
  | missing => "No such file or directory"
  | isDirectory => "Is a directory"
  | notDirectory => "Not a directory"
  | nameTooLong => "File name too long"
  | permissionDenied => "Permission denied"
  | other text => text

/-- Why a text is no path. -/
inductive PathError where
  /-- The path starts in the home directory of a user who is not known. -/
  | unknownHome
  | containsNul
deriving DecidableEq, Repr

/-- The error in words. -/
def PathError.message : PathError → String
  | unknownHome => "Could not determine home directory."
  | containsNul => "embedded null byte"

/-- Where a path starts. -/
inductive PathStart where
  | root
  | home
  | current
deriving DecidableEq, Repr

/-- A path: where it starts, and the names on its way. -/
structure Path where
  start : PathStart
  names : List String
deriving DecidableEq, Repr

namespace Path

/-- The names in a text; empty names and the name of the directory itself do not count. -/
def namesIn (text : String) : List String :=
  ((text.toList.splitOn '/').map String.ofList).filter fun name => name ≠ "" ∧ name ≠ "."

/-- Whether a text has a NUL in it. -/
def hasNul (text : String) : Bool :=
  text.toList.contains '\x00'

/-- Whether a name stands for the home directory of some user. -/
def isHomeName (name : String) : Bool :=
  name.toList.head? == some '~'

/-- Whether a text starts at the root of the file system. -/
def isAbsolute (text : String) : Bool :=
  text.toList.head? == some '/'

/-- The path of the given names from the current directory, unless the first name stands for
a home directory.  A tilde alone is one's own; those of other users are not known. -/
def relative : List String → Except PathError Path
  | [] => .ok ⟨.current, []⟩
  | name :: names =>
    if name = "~" then .ok ⟨.home, names⟩
    else if isHomeName name ∧ ¬hasNul name then .error .unknownHome
    else .ok ⟨.current, name :: names⟩

/-- The path that a text is. -/
def ofText (text : String) : Except PathError Path :=
  match if isAbsolute text then .ok ⟨.root, namesIn text⟩ else relative (namesIn text) with
  | .error e => .error e
  | .ok path => if hasNul text then .error .containsNul else .ok path

/-- The text of a path, with nothing in it but its names, given the home directory. -/
def text (home : String) : Path → String
  | ⟨.root, names⟩ => "/" ++ String.intercalate "/" names
  | ⟨.home, names⟩ => String.intercalate "/" (home :: names)
  | ⟨.current, []⟩ => "."
  | ⟨.current, names⟩ => String.intercalate "/" names

/-- The longest text of a path that the file system takes, in bytes. -/
def longestText : Nat := 4095

end Path

/-- Files, each with the names of its path, below a directory. -/
structure FileTree where
  files : List (List String × List UInt8)

namespace FileTree

/-- The tree of files with the given paths. -/
def ofList (files : List (String × List UInt8)) : FileTree :=
  ⟨files.map fun (path, bytes) => (Path.namesIn path, bytes)⟩

/-- The contents of the file with the given names. -/
def file? (t : FileTree) (names : List String) : Option (List UInt8) :=
  t.files.lookup names

/-- Whether there is a file below the given names. -/
def isDirectory (t : FileTree) (names : List String) : Bool :=
  t.files.any fun (path, _) => names.isPrefixOf path && names.length < path.length

/-- The longest name of a file, in bytes. -/
def longestName : Nat := 255

/-- Reads the file at the end of a path, from a directory of the tree (none when outside of
it). -/
def walk (t : FileTree) : Option (List String) → List String → Except FileError (List UInt8)
  | _, [] => .error .isDirectory
  | directory, ".." :: rest =>
    match directory with
    | none => t.walk none rest
    | some [] => t.walk none rest
    | some names => t.walk (some names.dropLast) rest
  | directory, name :: rest =>
    if longestName < name.utf8ByteSize then .error .nameTooLong
    else
      match directory with
      | none => .error .missing
      | some names =>
        match t.file? (names ++ [name]) with
        | some bytes => if rest.isEmpty then .ok bytes else .error .notDirectory
        | none =>
          if t.isDirectory (names ++ [name]) then t.walk (some (names ++ [name])) rest
          else .error .missing

/-- The directory of the tree where a path starts (none when outside of it). -/
def directoryOf : PathStart → Option (List String)
  | .current => some []
  | .root => none
  | .home => none

/-- Reads the file with the given path. -/
def read (t : FileTree) (path : Path) : Except FileError (List UInt8) :=
  if Path.longestText < (path.text "").utf8ByteSize then .error .nameTooLong
  else t.walk (directoryOf path.start) path.names

end FileTree

end Proto2.Cli

/-!
Where a declaration stands, for its fully qualified name: the package and the messages around
it, from the outside in.
-/

namespace Proto2

/-- Names with a dot between each two. -/
def dotted (parts : List String) : String :=
  String.ofList (['.'].intercalate (parts.map String.toList))

/-- The surroundings of a declaration. -/
structure Scope where
  package : String
  path : List String
deriving DecidableEq, Repr

namespace Scope

/-- The surroundings of a declaration at top level; a missing package counts as an empty
name. -/
def top (package : Option String) : Scope :=
  ⟨package.getD "", []⟩

/-- The fully qualified name of a name; empty parts are left out. -/
def qualify (s : Scope) (name : String) : String :=
  dotted ((s.package :: s.path ++ [name]).filter (· ≠ ""))

/-- The surroundings of a declaration in the message of the given name. -/
def nested (s : Scope) (name : String) : Scope :=
  ⟨s.package, s.path ++ [name]⟩

/-- The fully qualified name of an extended message.  A name with a dot is taken as it is; any
other is relative to the package alone, not to the messages around the extension. -/
def qualifyExtended (s : Scope) (name : String) : String :=
  if '.' ∈ name.toList then name else qualify ⟨s.package, []⟩ name

end Scope

end Proto2

import Proto2.Model.Entries
import Proto2.Model.Error

/-!
Looking options up in a list of settings.

A built-in option must be set at most once where it is looked up.  As a map, settings of one
outer name with different inner names come together under the outer name.
-/

namespace Proto2.Options

/-- The setting of the given name; setting it more than once is an error. -/
def find? (settings : List Setting) (name : String) : Except ModelError (Option Setting) :=
  match settings.filter (·.name == name) with
  | [] => .ok none
  | [s] => .ok (some s)
  | _ :: _ :: _ => .error (.multipleOptions name)

/-- Whether a value is the boolean true. -/
def isTrue : Value → Bool
  | .bool true => true
  | _ => false

/-- Whether a value is the boolean true or spells it as a string. -/
def readsTrue : Value → Bool
  | .bool true => true
  | .string "true" => true
  | _ => false

/-- Whether the option of the given name is set to a value that reads as true. -/
def isSet (settings : List Setting) (name : String) : Except ModelError Bool :=
  (find? settings name).map fun found => found.any (readsTrue ·.value)

/-- The map with one more setting: an option within an option is an entry of the outer one's
aggregate, anything else is the value under its name. -/
def mapStep (map : List (String × Value)) (s : Setting) : List (String × Value) :=
  match s.value with
  | .setting inner =>
    let merged :=
      match Entries.get? s.name map with
      | some (.aggregate entries) => entries
      | _ => []
    Entries.put s.name (.aggregate (Entries.put inner.name inner.value merged)) map
  | value => Entries.put s.name value map

/-- Settings as a map from names to values. -/
def asMap (settings : List Setting) : List (String × Value) :=
  settings.foldl mapStep []

end Proto2.Options

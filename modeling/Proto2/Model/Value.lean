import Proto2.Number.Binary64

/-!
Options and their values.

An option is set by a name and a value.  The value may be a list or an aggregate of further
values, and where the name is dotted, the option named by the first part has the option named
by the rest as its value.  An aggregate keeps its entries in order.
-/

namespace Proto2

mutual

/-- One option setting, `name = value`; a custom option has its name in parentheses. -/
structure Setting where
  name : String
  value : Value
  custom : Bool

/-- The value of an option. -/
inductive Value where
  | string (text : String)
  | bool (b : Bool)
  | int (n : Int)
  | float (x : Binary64)
  /-- A bare name, for instance the name of an enum value. -/
  | constant (name : String)
  | list (items : List Value)
  | aggregate (entries : List (String × Value))
  | setting (s : Setting)

end

instance : Inhabited Value := ⟨.bool false⟩

instance : Inhabited Setting := ⟨⟨"", default, false⟩⟩

end Proto2

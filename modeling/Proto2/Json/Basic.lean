import Proto2.Number.Binary64

/-!
JSON values.  The members of an object are in order, and numbers are exact.
-/

namespace Proto2

/-- A JSON value. -/
inductive Json where
  | null
  | bool (b : Bool)
  | int (n : Int)
  | float (x : Binary64)
  | string (s : String)
  | array (items : List Json)
  | object (members : List (String × Json))

instance : Inhabited Json := ⟨.null⟩

end Proto2

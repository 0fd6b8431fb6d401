import Proto2.Model.Value
import Proto2.Number.Numeral
import Proto2.Text.Quoted

/-!
Errors of the model: why a declaration is refused although its text is well formed.
-/

namespace Proto2

/-- A rule of the model that a declaration violates. -/
inductive ModelError where
  /-- The tag of the named field or enum value is out of range or reserved. -/
  | illegalTag (owner : String) (tag : Int)
  | duplicateTag (scope : String) (tag : Int)
  | duplicateValueName (scope : String) (name : String)
  | illegalRange (start stop : Int)
  | multipleOptions (name : String)
deriving DecidableEq, Repr

namespace ModelError

private def shownInt (n : Int) : String :=
  String.ofList (Numeral.text n)

/-- What is wrong, in words. -/
def message : ModelError → String
  | illegalTag _ tag => "Illegal tag value: " ++ shownInt tag
  | duplicateTag scope tag => "Duplicate tag " ++ shownInt tag ++ " in " ++ scope
  | duplicateValueName scope name => "Duplicate enum name " ++ name ++ " in scope " ++ scope
  | illegalRange start stop =>
    "Illegal extensions range: " ++ shownInt start ++ " to " ++ shownInt stop
  | multipleOptions name => "Multiple options match name: " ++ name

/-- The name of the declaration the error belongs to, when it has one. -/
def scope? : ModelError → Option String
  | illegalTag owner _ => some owner
  | duplicateTag scope _ => some scope
  | duplicateValueName scope _ => some scope
  | illegalRange _ _ => none
  | multipleOptions _ => none

/-- The offending tag, range or name. -/
def value : ModelError → Value
  | illegalTag _ tag => .int tag
  | duplicateTag _ tag => .int tag
  | duplicateValueName _ name => .string name
  | illegalRange start stop => .list [.int start, .int stop]
  | multipleOptions name => .string name

/-- The numbers that the words of an error contain. -/
def numbers : ModelError → List Int
  | illegalTag _ tag => [tag]
  | duplicateTag _ tag => [tag]
  | duplicateValueName _ _ => []
  | illegalRange start stop => [start, stop]
  | multipleOptions _ => []

end ModelError

/-- Why a declaration cannot be built. -/
inductive BuildError where
  | invalid (e : ModelError)
  /-- The declaration is refused, and the words for it would contain a number that is too
  long to be written. -/
  | unwritable (e : Numeral.Unwritable)
  | unknownLabel (text : String)
deriving DecidableEq, Repr

namespace BuildError

/-- The error of a declaration that violates a rule. -/
def ofModelError (e : ModelError) : BuildError :=
  if e.numbers.all Numeral.isWritable then .invalid e else .unwritable {}

/-- What is wrong, in words. -/
def message : BuildError → String
  | invalid e => e.message
  | unwritable e => e.message
  | unknownLabel text => Text.quotedString text ++ " is not a valid Label"

end BuildError

end Proto2

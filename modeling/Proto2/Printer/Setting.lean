import Proto2.Literal.StringBody
import Proto2.Model.Value
import Proto2.Number.Shortest
import Proto2.Text.Lines

/-!
The canonical text of options and their values.

Lists and aggregates that are not empty have one item or entry on a line, one level deeper
than the brackets around them.  Texts are lists of characters here, as the lexer reads them.
-/

namespace Proto2

/-- Items on lines of their own between brackets, with commas between them. -/
def bracketedText (opening closing : Char) (items : List (List Char)) : List Char :=
  if items.isEmpty then [opening, closing]
  else opening :: '\n' :: Text.indent (Text.joined [',', '\n'] items ++ ['\n']) ++ [closing]

/-- The name of an option as it is written. -/
def optionNameText (name : String) (custom : Bool) : List Char :=
  if custom then '(' :: name.toList ++ [')'] else name.toList

mutual

/-- The text of a setting. -/
def Setting.text : Setting → List Char
  | ⟨name, .setting inner, custom⟩ => optionNameText name custom ++ '.' :: inner.text
  | ⟨name, value, custom⟩ => optionNameText name custom ++ " = ".toList ++ value.text

/-- The text of a value. -/
def Value.text : Value → List Char
  | .string s => '"' :: StringBody.encode s.toList ++ ['"']
  | .bool b => if b then "true".toList else "false".toList
  | .int n => Numeral.text n
  | .float x => x.text
  | .constant name => name.toList
  | .list items => bracketedText '[' ']' (Value.texts items)
  | .aggregate entries => bracketedText '\x7b' '\x7d' (Value.entryTexts entries)
  | .setting s => s.text

/-- The texts of values. -/
def Value.texts : List Value → List (List Char)
  | [] => []
  | value :: rest => value.text :: Value.texts rest

/-- The texts of entries, each a key and a value. -/
def Value.entryTexts : List (String × Value) → List (List Char)
  | [] => []
  | (key, value) :: rest =>
    (key.toList ++ ": ".toList ++ value.text) :: Value.entryTexts rest

end

mutual

/-- Whether every number in a setting may be written. -/
def Setting.isWritable : Setting → Bool
  | ⟨_, value, _⟩ => value.isWritable

/-- Whether every number in a value may be written. -/
def Value.isWritable : Value → Bool
  | .int n => Numeral.isWritable n
  | .list items => Value.allWritable items
  | .aggregate entries => Value.entriesWritable entries
  | .setting s => s.isWritable
  | .string _ | .bool _ | .float _ | .constant _ => true

/-- Whether every number in some values may be written. -/
def Value.allWritable : List Value → Bool
  | [] => true
  | value :: rest => value.isWritable && Value.allWritable rest

/-- Whether every number in some entries may be written. -/
def Value.entriesWritable : List (String × Value) → Bool
  | [] => true
  | (_, value) :: rest => value.isWritable && Value.entriesWritable rest

end

/-- The text of a value, if its numbers may be written. -/
def Value.print (v : Value) : Except Numeral.Unwritable String :=
  if v.isWritable then .ok (String.ofList v.text) else .error {}

end Proto2

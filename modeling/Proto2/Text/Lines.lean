/-!
Text as lines.

A text is the list of its lines with a newline between each two, so it has one line more
than newlines and the empty text is one empty line.  Cutting and joining are inverse to one
another.
-/

namespace Proto2.Text

/-- The lines of a text. -/
def lines (cs : List Char) : List (List Char) :=
  cs.splitOn '\n'

/-- Lines with a newline between each two. -/
def unlines (ls : List (List Char)) : List Char :=
  ['\n'].intercalate ls

/-- One level of indentation is two spaces before a line that is not empty. -/
def indentLine : List Char → List Char
  | [] => []
  | c :: cs => ' ' :: ' ' :: c :: cs

/-- Every line one level deeper. -/
def indent (cs : List Char) : List Char :=
  unlines ((lines cs).map indentLine)

/-- Texts one after the other, each two with the separator between them. -/
def joined (separator : List Char) (parts : List (List Char)) : List Char :=
  separator.intercalate parts

theorem unlines_lines (cs : List Char) : unlines (lines cs) = cs :=
  List.intercalate_splitOn '\n'

theorem lines_unlines {ls : List (List Char)} (free : ∀ l ∈ ls, '\n' ∉ l) (some : ls ≠ []) :
    lines (unlines ls) = ls :=
  List.splitOn_intercalate '\n' free some

end Proto2.Text

import Proto2.Text.Blank
import Proto2.Text.Lines
import Proto2.Token.Basic

/-!
Documentation: the text of the comments above a declaration.

Only the last group of comments counts, which is the last block comment on its own or the
last run of line comments.  Delimiters go, and so does the margin: one space behind the
slashes of a line comment, and in a block comment whose lines all start with a star, the star
with the blanks before it and one space behind it.  What is left has no blanks at the ends of
lines and no empty lines at its ends.
-/

namespace Proto2.Documentation

/-- The text of a line comment behind its slashes, less one space. -/
def lineBody (text : List Char) : List Char :=
  match text.drop 2 with
  | ' ' :: cs => cs
  | cs => cs

/-- The blanks that may stand before the star of a margin. -/
def isMarginBlank (c : Char) : Bool :=
  c == ' ' || c == '\t'

/-- What stands behind the star of a line's margin. -/
def behindStar? (line : List Char) : Option (List Char) :=
  match line.dropWhile isMarginBlank with
  | '*' :: cs => some cs
  | _ => none

/-- A line without its margin of a star and one space, if it has one. -/
def dropMargin (line : List Char) : List Char :=
  match behindStar? line with
  | some (' ' :: cs) => cs
  | some cs => cs
  | none => line

/-- Whether a line fits a block with a margin of stars. -/
def fitsMargin (line : List Char) : Bool :=
  (behindStar? line).isSome || Text.isAllBlank line

/-- The text of a block comment between its delimiters, less the second star of the opening
one. -/
def blockBody (text : List Char) : List Char :=
  match (text.drop 2).take (text.length - 4) with
  | '*' :: cs => cs
  | cs => cs

/-- The lines of a block comment without delimiters and margin. -/
def blockLines (text : List Char) : List (List Char) :=
  match Text.lines (blockBody text) with
  | [] => []
  | first :: rest =>
    Text.trim first :: if rest.all fitsMargin then rest.map dropMargin else rest.map Text.trim

/-- The last run of line comments, in source order. -/
def lastRun (comments : List Comment) : List Comment :=
  (comments.reverse.takeWhile (!·.block)).reverse

/-- The lines of the last group of comments, in source order. -/
def groupLines (comments : List Comment) : List (List Char) :=
  match comments.getLast? with
  | none => []
  | some last =>
    if last.block then blockLines last.text.toList
    else (lastRun comments).map (lineBody ·.text.toList)

/-- Lines without the empty ones at either end. -/
def trimEmptyEdges (ls : List (List Char)) : List (List Char) :=
  ((ls.dropWhile List.isEmpty).reverse.dropWhile List.isEmpty).reverse

/-- The documentation that comments give. -/
def ofComments (comments : List Comment) : String :=
  String.ofList (Text.unlines (trimEmptyEdges ((groupLines comments).map Text.trimEnd)))

end Proto2.Documentation

/-!
Blank characters, and text with the blanks at its ends removed.

The class is wider than the white space between tokens: it also has the separators of
typeset text, such as the no-break space and the ideographic space.  Comments are prose, so
their lines are trimmed by this class.
-/

namespace Proto2.Text

/-- The blank characters: the controls from tab to carriage return, the four information
separators, the space, the next-line control, and the separators of Unicode. -/
def isBlank (c : Char) : Bool :=
  let n := c.toNat
  (0x09 ≤ n && n ≤ 0x0D) || (0x1C ≤ n && n ≤ 0x20) || n == 0x85 || n == 0xA0 || n == 0x1680 ||
    (0x2000 ≤ n && n ≤ 0x200A) || n == 0x2028 || n == 0x2029 || n == 0x202F || n == 0x205F ||
    n == 0x3000

/-- Text without the blanks it starts with. -/
def trimStart (cs : List Char) : List Char :=
  cs.dropWhile isBlank

/-- Text without the blanks it ends with. -/
def trimEnd (cs : List Char) : List Char :=
  (cs.reverse.dropWhile isBlank).reverse

/-- Text without the blanks at either end. -/
def trim (cs : List Char) : List Char :=
  trimEnd (trimStart cs)

/-- Whether text has no character that is not blank. -/
def isAllBlank (cs : List Char) : Bool :=
  cs.all isBlank

end Proto2.Text

import Proto2.Token.Basic
import Proto2.Token.Error

/-!
The forms of tokens, each by the length of the longest text of that form at the start of a
given text; a length of zero says that no text of the form starts there.

At a place where a token starts, the forms are tried in a fixed order.  Hexadecimal and
floating-point numerals come before decimal integers, which begin alike.
-/

namespace Proto2.Lexeme

/-- White space between tokens. -/
def isSpace (c : Char) : Bool :=
  c == ' ' || c == '\t' || c == '\r' || c == '\n' || c == '\x0c' || c == '\x0b'

/-- The characters an identifier starts with. -/
def isIdentifierStart (c : Char) : Bool :=
  c.isAlpha || c == '_'

/-- The characters an identifier goes on with. -/
def isIdentifierPart (c : Char) : Bool :=
  c.isAlphanum || c == '_'

/-- The digits of hexadecimal numerals, in either case. -/
def isHexDigit (c : Char) : Bool :=
  c.isDigit || ('a' ≤ c && c ≤ 'f') || ('A' ≤ c && c ≤ 'F')

/-- The length of the run of characters of a class. -/
def runLength (p : Char → Bool) (cs : List Char) : Nat :=
  (cs.takeWhile p).length

/-- The length of the sign, if there is one. -/
def signLength : List Char → Nat
  | '+' :: _ => 1
  | '-' :: _ => 1
  | _ => 0

/-- Hexadecimal digits after an optional sign and `0x`. -/
def hexadecimalLength (cs : List Char) : Nat :=
  let sign := signLength cs
  match cs.drop sign with
  | '0' :: x :: digits =>
    if x = 'x' ∨ x = 'X' then
      let run := runLength isHexDigit digits
      if run = 0 then 0 else sign + 2 + run
    else 0
  | _ => 0

/-- Digits after `e` and an optional sign. -/
def exponentLength : List Char → Nat
  | [] => 0
  | e :: cs =>
    if e = 'e' ∨ e = 'E' then
      let sign := signLength cs
      let run := runLength Char.isDigit (cs.drop sign)
      if run = 0 then 0 else 1 + sign + run
    else 0

/-- Digits with a point, an exponent or both; at least one digit stands beside the point. -/
def floatLength (cs : List Char) : Nat :=
  let sign := signLength cs
  let body := cs.drop sign
  let whole := runLength Char.isDigit body
  match body.drop whole with
  | '.' :: after =>
    let fraction := runLength Char.isDigit after
    if whole = 0 ∧ fraction = 0 then 0
    else sign + whole + 1 + fraction + exponentLength (after.drop fraction)
  | after =>
    let exponent := exponentLength after
    if whole = 0 ∨ exponent = 0 then 0 else sign + whole + exponent

/-- Digits after an optional sign. -/
def integerLength (cs : List Char) : Nat :=
  let sign := signLength cs
  let run := runLength Char.isDigit (cs.drop sign)
  if run = 0 then 0 else sign + run

/-- A letter or underscore, and more of those and digits. -/
def identifierLength : List Char → Nat
  | [] => 0
  | c :: cs => if isIdentifierStart c then 1 + runLength isIdentifierPart cs else 0

/-- The kind and length of the number, identifier or punctuation at the start of a text. -/
def plain? (cs : List Char) : Option (TokenKind × Nat) :=
  if 0 < hexadecimalLength cs then some (.integer, hexadecimalLength cs)
  else if 0 < floatLength cs then some (.float, floatLength cs)
  else if 0 < integerLength cs then some (.integer, integerLength cs)
  else if 0 < identifierLength cs then some (.identifier, identifierLength cs)
  else (cs.head?.bind TokenKind.ofSymbol?).map (·, 1)

/-- What follows an opening quote. -/
inductive Quotation where
  /-- The body is followed by the closing quote. -/
  | closed (body : List Char)
  /-- The line or the text ends first, after the given characters. -/
  | unclosed (read : List Char)
deriving DecidableEq, Repr

/-- The quotation with a stretch of text in front. -/
def Quotation.push (cs : List Char) : Quotation → Quotation
  | .closed body => .closed (cs ++ body)
  | .unclosed read => .unclosed (cs ++ read)

/-- Reads from behind an opening quote to the closing one.  A backslash takes the next
character with it, whatever that is, but no backslash reaches across the end of a line. -/
def quotation (quote : Char) : List Char → Quotation
  | [] => .unclosed []
  | '\\' :: [] => .unclosed ['\\']
  | '\\' :: c :: cs =>
    if c = '\n' then .unclosed ['\\'] else (quotation quote cs).push ['\\', c]
  | c :: cs =>
    if c = quote then .closed []
    else if c = '\n' then .unclosed []
    else (quotation quote cs).push [c]

/-- A token as read: its kind, its lexeme, and how many characters it takes. -/
structure Scanned where
  kind : TokenKind
  lexeme : List Char
  length : Nat
deriving DecidableEq, Repr

/-- A token that cannot be read: why, and how many characters were looked at. -/
structure Unscanned where
  cause : LexicalCause
  length : Nat
deriving DecidableEq, Repr

/-- Reads the token at the start of a text that starts with the given character. -/
def scan (c : Char) (cs : List Char) : Except Unscanned Scanned :=
  if c = '"' ∨ c = '\'' then
    match quotation c cs with
    | .closed body => .ok ⟨.string, body, body.length + 2⟩
    | .unclosed read => .error ⟨.unterminatedString, read.length + 1⟩
  else
    match plain? (c :: cs) with
    | some (kind, length) => .ok ⟨kind, (c :: cs).take length, length⟩
    | none => .error ⟨.unexpectedCharacter c, 1⟩

theorem plain?_pos {cs : List Char} {kind : TokenKind} {length : Nat}
    (h : plain? cs = some (kind, length)) : 0 < length := by
  unfold plain? at h
  split at h
  · cases h; assumption
  split at h
  · cases h; assumption
  split at h
  · cases h; assumption
  split at h
  · cases h; assumption
  obtain ⟨_, _, h⟩ := Option.map_eq_some_iff.1 h
  cases h
  exact Nat.one_pos

/-- A token takes at least one character. -/
theorem scan_length_pos {c : Char} {cs : List Char} {s : Scanned} (h : scan c cs = .ok s) :
    0 < s.length := by
  unfold scan at h
  split at h
  · split at h
    · cases h; exact Nat.succ_pos _
    · cases h
  · split at h
    · rename_i found
      cases h
      exact plain?_pos found
    · cases h

end Proto2.Lexeme

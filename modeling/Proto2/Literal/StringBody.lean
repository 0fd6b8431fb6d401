import Proto2.Token.Error
import Proto2.Token.Lexeme
import Proto2.Number.Numeral

/-!
The bodies of string literals, between text and its escaped form.

Every backslash in a body begins an escape: a letter for a control, an escaped quote or
backslash, one to three octal digits, or `x` with one or two hexadecimal digits.  Digits are
taken greedily.  Writing escapes only what a body cannot hold or what would be hard to see:
backslash, double quote, tab, carriage return and newline.
-/

namespace Proto2.StringBody

/-- The character that a one-letter escape denotes. -/
def simpleEscape? : Char → Option Char
  | 'a' => some '\x07'
  | 'b' => some '\x08'
  | 'f' => some '\x0c'
  | 'n' => some '\n'
  | 'r' => some '\r'
  | 't' => some '\t'
  | 'v' => some '\x0b'
  | '\\' => some '\\'
  | '\'' => some '\''
  | '"' => some '"'
  | _ => none

/-- The octal digits. -/
def isOctalDigit (c : Char) : Bool :=
  '0' ≤ c && c ≤ '7'

/-- The value of a hexadecimal digit of either case; other characters have none. -/
def hexValue (c : Char) : Nat :=
  if 'a' ≤ c ∧ c ≤ 'f' then c.toNat - 'a'.toNat + 10
  else if 'A' ≤ c ∧ c ≤ 'F' then c.toNat - 'A'.toNat + 10
  else c.toNat - '0'.toNat

/-- The character whose code point some digits denote in a base. -/
def ofCodePoint (base : Nat) (digits : List Char) : Char :=
  Char.ofNat (Numeral.ofDigits base (digits.map hexValue))

/-- The character denoted by the escape whose backslash stands before the given text, and the
number of characters behind the backslash that belong to it. -/
def escape : List Char → Except LexicalCause (Char × Nat)
  | [] => .error .unterminatedEscape
  | c :: cs =>
    match simpleEscape? c with
    | some d => .ok (d, 1)
    | none =>
      if isOctalDigit c then
        let digits := ((c :: cs).take 3).takeWhile isOctalDigit
        .ok (ofCodePoint 8 digits, digits.length)
      else if c = 'x' ∨ c = 'X' then
        let digits := (cs.take 2).takeWhile Lexeme.isHexDigit
        if digits.isEmpty then .error .missingHexDigit
        else .ok (ofCodePoint 16 digits, digits.length + 1)
      else .error (.invalidEscape c)

/-- The text that a body denotes. -/
def decode : List Char → Except LexicalCause (List Char)
  | [] => .ok []
  | c :: cs =>
    if c = '\\' then
      match escape cs with
      | .error e => .error e
      | .ok (d, n) => (decode (cs.drop n)).map (d :: ·)
    else (decode cs).map (c :: ·)
termination_by cs => cs.length
decreasing_by
  · simp only [List.length_drop, List.length_cons]
    omega
  · simp

/-- One character of a text as it is written in a body. -/
def encodeChar (c : Char) : List Char :=
  if c = '\\' then ['\\', '\\']
  else if c = '"' then ['\\', '"']
  else if c = '\t' then ['\\', 't']
  else if c = '\r' then ['\\', 'r']
  else if c = '\n' then ['\\', 'n']
  else [c]

/-- A text as it is written in a body between double quotes. -/
def encode (cs : List Char) : List Char :=
  cs.flatMap encodeChar

@[simp] theorem decode_nil : decode [] = .ok [] := by
  rw [decode]

@[simp] theorem encode_nil : encode [] = [] := rfl

@[simp] theorem encode_cons (c : Char) (cs : List Char) :
    encode (c :: cs) = encodeChar c ++ encode cs := rfl

end Proto2.StringBody

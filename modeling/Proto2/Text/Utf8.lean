import Proto2.Text.Quoted

/-!
Files are read as UTF-8, strictly.

A lead byte says how many bytes follow and in which range the first of them lies; the narrow
ranges after some leads exclude overlong forms, surrogates and code points beyond the last
one.  Decoding stops at the first byte that cannot continue the text, and the error covers
the bytes of the character that was begun.
-/

namespace Proto2.Text

/-- Why bytes are no text. -/
inductive Utf8Error.Reason where
  | invalidStart
  | invalidContinuation
  | unexpectedEnd
deriving DecidableEq, Repr

/-- Bytes that are no text: where the bad sequence starts, where it stops (exclusive), its
first byte, and what is wrong. -/
structure Utf8Error where
  start : Nat
  stop : Nat
  byte : UInt8
  reason : Utf8Error.Reason
deriving DecidableEq, Repr

/-- What is wrong, in words. -/
def Utf8Error.Reason.message : Utf8Error.Reason → String
  | invalidStart => "invalid start byte"
  | invalidContinuation => "invalid continuation byte"
  | unexpectedEnd => "unexpected end of data"

/-- The error in words: the byte if it is one, and else the places of the first and the
last. -/
def Utf8Error.message (e : Utf8Error) : String :=
  let place :=
    if e.stop = e.start + 1 then
      "byte 0x" ++ String.ofList (hexPadded 2 e.byte.toNat) ++ " in position " ++
        toString e.start
    else "bytes in position " ++ toString e.start ++ "-" ++ toString (e.stop - 1)
  "'utf-8' codec can't decode " ++ place ++ ": " ++ e.reason.message

/-- A character of which some bytes have been read: where it started, its first byte, how
many bytes it has so far, their value, how many more it needs, and the range of the next. -/
structure Utf8Pending where
  start : Nat
  byte : UInt8
  taken : Nat
  value : Nat
  needed : Nat
  low : Nat
  high : Nat
deriving DecidableEq, Repr

/-- What a byte begins at the given position, unless it cannot begin a character. -/
def utf8Lead? (position : Nat) (byte : UInt8) : Option Utf8Pending :=
  let b := byte.toNat
  if b < 0x80 then some ⟨position, byte, 1, b, 0, 0x80, 0xBF⟩
  else if b < 0xC2 then none
  else if b < 0xE0 then some ⟨position, byte, 1, b - 0xC0, 1, 0x80, 0xBF⟩
  else if b < 0xF0 then
    some ⟨position, byte, 1, b - 0xE0, 2, if b = 0xE0 then 0xA0 else 0x80,
      if b = 0xED then 0x9F else 0xBF⟩
  else if b < 0xF5 then
    some ⟨position, byte, 1, b - 0xF0, 3, if b = 0xF0 then 0x90 else 0x80,
      if b = 0xF4 then 0x8F else 0xBF⟩
  else none

/-- The character begun, with one more byte. -/
def Utf8Pending.extend (p : Utf8Pending) (byte : UInt8) : Utf8Pending :=
  { p with
    taken := p.taken + 1
    value := p.value * 64 + (byte.toNat - 0x80)
    needed := p.needed - 1
    low := 0x80
    high := 0xBF }

/-- Decodes what follows, given the position of the next byte and the character begun. -/
def decodeUtf8From (position : Nat) :
    Option Utf8Pending → List UInt8 → Except Utf8Error (List Char)
  | none, [] => .ok []
  | some p, [] => .error ⟨p.start, position, p.byte, .unexpectedEnd⟩
  | none, byte :: bytes =>
    match utf8Lead? position byte with
    | none => .error ⟨position, position + 1, byte, .invalidStart⟩
    | some p =>
      if p.needed = 0 then
        (decodeUtf8From (position + 1) none bytes).map (Char.ofNat p.value :: ·)
      else decodeUtf8From (position + 1) (some p) bytes
  | some p, byte :: bytes =>
    if p.low ≤ byte.toNat ∧ byte.toNat ≤ p.high then
      let q := p.extend byte
      if q.needed = 0 then
        (decodeUtf8From (position + 1) none bytes).map (Char.ofNat q.value :: ·)
      else decodeUtf8From (position + 1) (some q) bytes
    else .error ⟨p.start, p.start + p.taken, p.byte, .invalidContinuation⟩

/-- The text that bytes encode. -/
def decodeUtf8 (bytes : List UInt8) : Except Utf8Error (List Char) :=
  decodeUtf8From 0 none bytes

/-- A carriage return, alone or before a newline, ends a line as a newline does. -/
def normalizeNewlines : List Char → List Char
  | [] => []
  | '\r' :: '\n' :: cs => '\n' :: normalizeNewlines cs
  | c :: cs => (if c = '\r' then '\n' else c) :: normalizeNewlines cs

end Proto2.Text

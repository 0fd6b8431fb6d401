import Proto2.Literal.StringBody

/-!
The bodies of string literals that denote a text.
-/

namespace Proto2.StringBody

/-- Every backslash of the body begins an escape. -/
inductive Valid : List Char → Prop
  | nil : Valid []
  | plain {c : Char} {cs : List Char} (other : c ≠ '\\') (rest : Valid cs) : Valid (c :: cs)
  | simple {c : Char} {cs : List Char} (known : (simpleEscape? c).isSome) (rest : Valid cs) :
      Valid ('\\' :: c :: cs)
  | octal {d : Char} {cs : List Char} (digit : isOctalDigit d) (rest : Valid cs) :
      Valid ('\\' :: d :: cs)
  | hexadecimal {x d : Char} {cs : List Char} (mark : x = 'x' ∨ x = 'X')
      (digit : Lexeme.isHexDigit d) (rest : Valid cs) : Valid ('\\' :: x :: d :: cs)

theorem valid_cons {c : Char} {cs : List Char} (other : c ≠ '\\') :
    Valid (c :: cs) ↔ Valid cs := by
  constructor
  · intro h
    cases h with
    | plain other rest => exact rest
    | simple | octal | hexadecimal => exact absurd rfl other
  · exact .plain other

/-- Characters that are no backslash have no part in validity. -/
theorem valid_drop_takeWhile {p : Char → Bool} (other : p '\\' = false) (n : Nat)
    (cs : List Char) : Valid (cs.drop ((cs.take n).takeWhile p).length) ↔ Valid cs := by
  induction n generalizing cs with
  | zero => simp
  | succ n ih =>
      cases cs with
      | nil => simp
      | cons c cs =>
          by_cases hp : p c = true
          · have hne : c ≠ '\\' := by
              rintro rfl
              simp [hp] at other
            simp only [List.take_succ_cons, List.takeWhile_cons, hp, if_true, List.length_cons,
              List.drop_succ_cons, ih, valid_cons hne]
          · simp [hp]

theorem ne_backslash_of_isHexDigit {c : Char} (h : Lexeme.isHexDigit c = true) : c ≠ '\\' := by
  rintro rfl
  revert h
  decide

/-- Escapes that start with a letter or a quote, by that character. -/
theorem valid_simple_iff {c : Char} {cs : List Char} (known : (simpleEscape? c).isSome) :
    Valid ('\\' :: c :: cs) ↔ Valid cs := by
  constructor
  · intro h
    cases h with
    | plain other => exact absurd rfl other
    | simple _ rest => exact rest
    | octal _ rest => exact rest
    | hexadecimal mark => rcases mark with rfl | rfl <;> simp [simpleEscape?] at known
  · exact .simple known

theorem valid_octal_iff {c : Char} {cs : List Char} (digit : isOctalDigit c) :
    Valid ('\\' :: c :: cs) ↔ Valid cs := by
  constructor
  · intro h
    cases h with
    | plain other => exact absurd rfl other
    | simple _ rest => exact rest
    | octal _ rest => exact rest
    | hexadecimal mark => rcases mark with rfl | rfl <;> simp [isOctalDigit] at digit
  · exact .octal digit

theorem valid_hexadecimal_iff {x : Char} {cs : List Char} (mark : x = 'x' ∨ x = 'X') :
    Valid ('\\' :: x :: cs) ↔ ∃ d ds, cs = d :: ds ∧ Lexeme.isHexDigit d ∧ Valid ds := by
  constructor
  · intro h
    cases h with
    | plain other => exact absurd rfl other
    | simple known => rcases mark with rfl | rfl <;> simp [simpleEscape?] at known
    | octal digit => rcases mark with rfl | rfl <;> simp [isOctalDigit] at digit
    | hexadecimal _ digit rest => exact ⟨_, _, rfl, digit, rest⟩
  · rintro ⟨d, ds, rfl, digit, rest⟩
    exact .hexadecimal mark digit rest

/-- Where a backslash begins an escape, the characters behind the escape decide. -/
theorem valid_escape {cs : List Char} {d : Char} {n : Nat} (h : escape cs = .ok (d, n)) :
    Valid ('\\' :: cs) ↔ Valid (cs.drop n) := by
  unfold escape at h
  split at h
  · cases h
  · rename_i c cs
    split at h
    case h_1 known =>
      cases h
      simpa using valid_simple_iff (by simp [known])
    case h_2 unknown =>
      split at h
      case isTrue digit =>
        cases h
        rw [valid_octal_iff digit, List.take_succ_cons, List.takeWhile_cons, if_pos digit,
          List.length_cons, List.drop_succ_cons, valid_drop_takeWhile (by decide)]
      case isFalse =>
        split at h
        case isFalse => cases h
        case isTrue mark =>
          dsimp only at h
          split at h
          case isTrue => cases h
          case isFalse hsome =>
            -- The digits of the escape may be one or two; the first one is there.
            cases h
            rw [List.drop_succ_cons, valid_drop_takeWhile (by decide), valid_hexadecimal_iff mark]
            cases cs with
            | nil => simp at hsome
            | cons d ds =>
                have digit : Lexeme.isHexDigit d = true := by
                  cases hd : Lexeme.isHexDigit d with
                  | true => rfl
                  | false => simp [hd] at hsome
                rw [valid_cons (ne_backslash_of_isHexDigit digit)]
                constructor
                · rintro ⟨_, _, ⟨⟩, -, rest⟩
                  exact rest
                · exact fun rest => ⟨d, ds, rfl, digit, rest⟩

theorem not_valid_of_escape_error {cs : List Char} {e : LexicalCause}
    (h : escape cs = .error e) : ¬ Valid ('\\' :: cs) := by
  intro valid
  unfold escape at h
  cases valid with
  | plain other => exact absurd rfl other
  | simple known =>
      obtain ⟨d, hd⟩ := Option.isSome_iff_exists.mp known
      simp [hd] at h
  | @octal c cs digit rest =>
      cases hs : simpleEscape? c <;> simp [hs, digit] at h
  | @hexadecimal x d cs mark digit rest =>
      have hs : simpleEscape? x = none := by
        rcases mark with rfl | rfl <;> rfl
      by_cases ho : isOctalDigit x = true <;> simp [hs, ho, mark, digit] at h

/-- A body denotes a text if and only if every backslash begins an escape. -/
theorem decode_ok_iff {cs : List Char} : (∃ ds, decode cs = .ok ds) ↔ Valid cs := by
  fun_induction decode cs with
  | case1 => exact iff_of_true ⟨[], rfl⟩ .nil
  | case2 cs e he => exact iff_of_false (by simp) (not_valid_of_escape_error he)
  | case3 cs d n he ih =>
      rw [valid_escape he, ← ih]
      cases decode (cs.drop n) <;> simp [Except.map]
  | case4 c cs hc ih =>
      rw [valid_cons hc, ← ih]
      cases decode cs <;> simp [Except.map]

end Proto2.StringBody

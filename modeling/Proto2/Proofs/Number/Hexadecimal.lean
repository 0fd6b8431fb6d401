import Proto2.Proofs.Number.Text

/-!
Numbers in hexadecimal as literals.

The hexadecimal digits of a number, behind `0x`, are written as one integer token that denotes the
number.
-/

namespace Proto2

namespace Numeral

theorem digitValue?_digitChar {d : Nat} (h : d < 16) : digitValue? 16 d.digitChar = some d := by
  revert d
  decide

theorem isHexDigit_digitChar {d : Nat} (h : d < 16) : Lexeme.isHexDigit d.digitChar = true := by
  revert d
  decide

theorem isHexDigit_of_mem_toDigits {n : Nat} {c : Char} (h : c ∈ Nat.toDigits 16 n) :
    Lexeme.isHexDigit c = true := by
  induction n using Nat.strongRecOn with
  | ind n ih =>
      rw [Nat.toDigits_eq_if (by decide)] at h
      split at h
      case isTrue hn =>
        rw [List.mem_singleton.mp h]
        exact isHexDigit_digitChar hn
      case isFalse hn =>
        rcases List.mem_append.mp h with h | h
        · exact ih (n / 16) (Nat.div_lt_self (by omega) (by decide)) h
        · rw [List.mem_singleton.mp h]
          exact isHexDigit_digitChar (Nat.mod_lt n (by decide))

/-- The digits of a number denote it: the last one by itself, and those before it what they denote
sixteen times over. -/
theorem ofDigits_toDigits (n : Nat) :
    ofDigits 16 ((Nat.toDigits 16 n).filterMap (digitValue? 16)) = n := by
  induction n using Nat.strongRecOn with
  | ind n ih =>
      rw [Nat.toDigits_eq_if (by decide)]
      split
      case isTrue hn =>
        rw [List.filterMap_cons_some (digitValue?_digitChar hn)]
        simp [ofDigits]
      case isFalse hn =>
        have hrest := ih (n / 16) (Nat.div_lt_self (by omega) (by decide))
        have hlast := digitValue?_digitChar (Nat.mod_lt n (by decide : 0 < 16))
        rw [List.filterMap_append, List.filterMap_cons_some hlast, List.filterMap_nil]
        rw [ofDigits] at hrest ⊢
        rw [List.foldl_append, hrest]
        exact Nat.div_add_mod n 16

theorem read_hexadecimal (n : Nat) : read 16 (Nat.toDigits 16 n) = .ok n := by
  rw [read_of_isPlainDigit Nat.toDigits_ne_nil fun c hc =>
    isPlainDigit_sixteen (isHexDigit_of_mem_toDigits hc), if_neg (by omega), ofDigits_toDigits]

end Numeral

theorem IntegerLiteral.read_hexadecimal (n : Nat) :
    read ('0' :: 'x' :: Nat.toDigits 16 n) = .ok n := by
  have hdrop : ('0' :: 'x' :: Nat.toDigits 16 n).dropWhile isSign =
      '0' :: 'x' :: Nat.toDigits 16 n := rfl
  rw [read, hdrop, readMagnitude, if_pos (.inl rfl), Numeral.read_hexadecimal]
  rfl

namespace Lexeme

theorem isIdentifierPart_of_isHexDigit {c : Char} (h : isHexDigit c = true) :
    isIdentifierPart c = true :=
  Char.forall_isHexDigit (by decide) (by decide) (by decide) h

section

variable {sign digits : List Char} {x : Char} (isSign : IsSign sign) (mark : x = 'x' ∨ x = 'X')
  (nonempty : digits ≠ []) (all : ∀ c ∈ digits, isHexDigit c = true)

include isSign mark nonempty all

theorem hexadecimalLength_append {rest : List Char}
    (stop : ∀ c ∈ rest.head?, isHexDigit c = false) :
    hexadecimalLength (sign ++ '0' :: x :: digits ++ rest) =
      (sign ++ '0' :: x :: digits).length := by
  have hsign : signLength (sign ++ '0' :: x :: (digits ++ rest)) = sign.length := by
    rcases isSign with rfl | rfl | rfl <;> rfl
  have hpos : 0 < digits.length := List.length_pos_iff.mpr nonempty
  simp only [hexadecimalLength, List.append_assoc, List.cons_append, hsign, List.drop_left,
    if_pos mark, runLength_append all stop]
  rw [if_neg (by omega), List.length_append, List.length_cons, List.length_cons]
  omega

/-- Hexadecimal digits behind their mark are read as far as they go. -/
theorem spells_hexadecimal :
    Spells (sign ++ '0' :: x :: digits) .integer (sign ++ '0' :: x :: digits) := by
  have hline : '\n' ∉ '0' :: x :: digits := by
    simp only [List.mem_cons, Char.reduceEq, false_or, not_or]
    refine ⟨?_, fun hmem => ?_⟩
    · rcases mark with rfl | rfl <;> decide
    · exact ne_newline_of_isIdentifierPart (isIdentifierPart_of_isHexDigit (all _ hmem)) rfl
  have hplain (rest : List Char) (hrest : ∀ c ∈ rest.head?, TokenKind.integer.mayPrecede c = true) :
      plain? (sign ++ '0' :: x :: digits ++ rest) =
        some (.integer, (sign ++ '0' :: x :: digits).length) := by
    have hstop : ∀ c ∈ rest.head?, isHexDigit c = false := by
      intro c hc
      have hpart := hrest c hc
      simp only [TokenKind.mayPrecede, Bool.and_eq_true, Bool.not_eq_true'] at hpart
      refine Bool.eq_false_iff.mpr fun hhex => ?_
      rw [isIdentifierPart_of_isHexDigit hhex] at hpart
      exact absurd hpart.1 (by decide)
    have hpos : 0 < (sign ++ '0' :: x :: digits).length := List.length_pos_iff.mpr (by simp)
    rw [plain?, hexadecimalLength_append isSign mark nonempty all hstop, if_pos hpos]
  rcases isSign with rfl | rfl | rfl
  · exact spells_of_plain? (by decide) hline hplain
  · exact spells_of_plain? (by decide) (by simpa using hline) hplain
  · exact spells_of_plain? (by decide) (by simpa using hline) hplain

end

end Lexeme

end Proto2

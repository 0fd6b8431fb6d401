import Proto2.Literal.Integer
import Proto2.Proofs.Number.Numeral
import Proto2.Proofs.Token.Lexeme

/-!
Integer literals that denote a number.
-/

namespace Proto2.IntegerLiteral

/-- The literal is hexadecimal. -/
def IsHexadecimal (lexeme : List Char) : Prop :=
  ∃ x digits, lexeme.dropWhile isSign = '0' :: x :: digits ∧ (x = 'x' ∨ x = 'X')

/-- The literal is hexadecimal, or has no more digits than are converted. -/
def Bounded (lexeme : List Char) : Prop :=
  IsHexadecimal lexeme ∨ (lexeme.dropWhile isSign).length ≤ Numeral.digitLimit

theorem dropWhile_isSign {sign body : List Char} (isSign : Lexeme.IsSign sign)
    (noSign : ∀ c ∈ body.head?, IntegerLiteral.isSign c = false) :
    (sign ++ body).dropWhile IntegerLiteral.isSign = body := by
  have hbody : body.dropWhile IntegerLiteral.isSign = body := by
    cases body with
    | nil => rfl
    | cons c cs => simp [noSign c (by simp)]
  rcases isSign with rfl | rfl | rfl
  · exact hbody
  · simpa [IntegerLiteral.isSign] using hbody
  · simpa [IntegerLiteral.isSign] using hbody

theorem isSign_of_isDigit {c : Char} (h : c.isDigit = true) : isSign c = false := by
  simpa using Char.forall_isDigit (p := fun c => !isSign c) (by decide) h

theorem dropWhile_digits {sign digits : List Char} (isSign : Lexeme.IsSign sign)
    (all : ∀ c ∈ digits, c.isDigit = true) :
    (sign ++ digits).dropWhile IntegerLiteral.isSign = digits :=
  dropWhile_isSign isSign fun c hc => isSign_of_isDigit (all c (List.mem_of_mem_head? hc))

theorem readMagnitude_of_digits {digits : List Char} (hsome : digits ≠ [])
    (all : ∀ c ∈ digits, c.isDigit = true) :
    readMagnitude digits = Numeral.read 10 digits := by
  unfold readMagnitude
  split
  · rename_i x cs
    have hx : ¬ (x = 'x' ∨ x = 'X') := by
      rintro (rfl | rfl)
      · exact absurd (all 'x' (by simp)) (by decide)
      · exact absurd (all 'X' (by simp)) (by decide)
    rw [if_neg hx]
  · rfl

theorem not_isHexadecimal_of_digits {sign digits : List Char} (isSign : Lexeme.IsSign sign)
    (all : ∀ c ∈ digits, c.isDigit = true) : ¬ IsHexadecimal (sign ++ digits) := by
  rintro ⟨x, ds, heq, hx⟩
  rw [dropWhile_digits isSign all] at heq
  subst heq
  rcases hx with rfl | rfl
  · exact absurd (all 'x' (by simp)) (by decide)
  · exact absurd (all 'X' (by simp)) (by decide)

/-- The limit is on the digits of a decimal literal. -/
theorem bounded_decimal_iff {sign digits : List Char} (isSign : Lexeme.IsSign sign)
    (all : ∀ c ∈ digits, c.isDigit = true) :
    Bounded (sign ++ digits) ↔ digits.length ≤ Numeral.digitLimit := by
  rw [Bounded, dropWhile_digits isSign all, or_iff_right (not_isHexadecimal_of_digits isSign all)]

/-- The magnitude of an integer token is read, or it is decimal and has too many digits. -/
theorem readMagnitude_cases {lexeme : List Char} (form : Lexeme.IntegerForm lexeme) :
    (Bounded lexeme ∧ ∃ n, readMagnitude (lexeme.dropWhile isSign) = .ok n) ∨
      (¬ Bounded lexeme ∧ readMagnitude (lexeme.dropWhile isSign) =
        .error (.tooManyDigits (lexeme.dropWhile isSign).length)) := by
  cases form with
  | @decimal sign digits hsign hsome all =>
      simp only [List.all_eq_true] at all
      rw [bounded_decimal_iff hsign all, dropWhile_digits hsign all,
        readMagnitude_of_digits hsome all,
        Numeral.read_of_isPlainDigit hsome fun c hc => Numeral.isPlainDigit_ten (all c hc)]
      by_cases hlen : Numeral.digitLimit < digits.length
      · exact .inr ⟨Nat.not_le.mpr hlen, if_pos ⟨rfl, hlen⟩⟩
      · exact .inl ⟨Nat.not_lt.mp hlen, _, if_neg (by simp [hlen])⟩
  | @hexadecimal sign digits x hsign mark hsome all =>
      simp only [List.all_eq_true] at all
      have hdrop : (sign ++ '0' :: x :: digits).dropWhile isSign = '0' :: x :: digits :=
        dropWhile_isSign hsign (by simp [isSign])
      rw [hdrop, readMagnitude, if_pos mark,
        Numeral.read_of_isPlainDigit hsome fun c hc => Numeral.isPlainDigit_sixteen (all c hc)]
      exact .inl ⟨.inl ⟨x, digits, hdrop, mark⟩, _, if_neg (by simp)⟩

/-- An integer token denotes a number, or it is decimal and has too many digits. -/
theorem read_cases {lexeme : List Char} (form : Lexeme.IntegerForm lexeme) :
    (Bounded lexeme ∧ ∃ n, read lexeme = .ok n) ∨
      (¬ Bounded lexeme ∧
        read lexeme = .error (.tooManyDigits (lexeme.dropWhile isSign).length)) := by
  rcases readMagnitude_cases form with ⟨hbounded, n, hn⟩ | ⟨hnot, hread⟩
  · exact .inl ⟨hbounded, _, by rw [read, hn]; rfl⟩
  · exact .inr ⟨hnot, by rw [read, hread]; rfl⟩

/-- Digits beyond the limit are not read. -/
theorem read_overlong {digits : List Char} (all : ∀ c ∈ digits, c.isDigit = true)
    (long : Numeral.digitLimit < digits.length) :
    read digits = .error (.tooManyDigits digits.length) := by
  have hform : Lexeme.IntegerForm ([] ++ digits) :=
    .decimal (.inl rfl) (List.ne_nil_of_length_pos (Nat.zero_lt_of_lt long))
      (List.all_eq_true.mpr all)
  have hlong : ¬ Bounded ([] ++ digits) := by
    rw [bounded_decimal_iff (.inl rfl) all]
    exact Nat.not_le.mpr long
  have hread := ((read_cases hform).resolve_left fun h => hlong h.1).2
  rwa [dropWhile_digits (.inl rfl) all] at hread

/-- An integer token denotes a number if and only if it is hexadecimal or short enough. -/
theorem read_ok_iff {lexeme : List Char} (form : Lexeme.IntegerForm lexeme) :
    (∃ n, read lexeme = .ok n) ↔ Bounded lexeme := by
  rcases read_cases form with ⟨hbounded, hok⟩ | ⟨hnot, hread⟩
  · exact iff_of_true hok hbounded
  · exact iff_of_false (by simp [hread]) hnot

end Proto2.IntegerLiteral

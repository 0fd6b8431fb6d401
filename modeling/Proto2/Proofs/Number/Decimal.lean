import Proto2.Number.Decimal

/-!
Decimals and the binary numbers nearest to them.

The magnitude nearest to a decimal depends on the value of the decimal alone: a factor of ten
may move between the coefficient and the exponent.  A magnitude is the one nearest to itself,
however many digits it is written with.
-/

namespace Proto2

-- Powers of natural numbers are those of the core library, whatever else is in scope.
attribute [local instance (2000)] instPowNat

namespace Magnitude

/-! ### Rounding a quotient -/

theorem roundHalfEven_mul {k : Nat} (hk : 0 < k) (num den : Nat) :
    roundHalfEven (k * num) (k * den) = roundHalfEven num den := by
  have hlt : 2 * (k * (num % den)) < k * den ↔ 2 * (num % den) < den := by
    rw [Nat.mul_left_comm, Nat.mul_lt_mul_left hk]
  have hgt : k * den < 2 * (k * (num % den)) ↔ den < 2 * (num % den) := by
    rw [Nat.mul_left_comm, Nat.mul_lt_mul_left hk]
  simp only [roundHalfEven, Nat.mul_div_mul_left _ _ hk, Nat.mul_mod_mul_left, hlt, hgt]

theorem roundHalfEven_exact {den : Nat} (hden : 0 < den) (n : Nat) :
    roundHalfEven (n * den) den = n := by
  rw [roundHalfEven, Nat.mul_mod_left, Nat.mul_div_cancel n hden]
  simp [hden]

theorem nearest?_mul {k : Nat} (hk : 0 < k) (num den : Nat) :
    nearest? (k * num) (k * den) = nearest? num den := by
  simp only [nearest?, Nat.mul_div_mul_left _ _ hk, Nat.mul_assoc, roundHalfEven_mul hk]

/-- Equal quotients have the same nearest magnitude. -/
theorem nearest?_congr {num den num' den' : Nat} (hden : 0 < den) (hden' : 0 < den')
    (h : num * den' = num' * den) : nearest? num den = nearest? num' den' := by
  rw [← nearest?_mul hden' num den, ← nearest?_mul hden num' den', Nat.mul_comm den' num, h,
    Nat.mul_comm num' den, Nat.mul_comm den' den]

theorem log2_units (m : Magnitude) : Nat.log2 m.units - 52 = m.scale := by
  rcases m.normal with hscale | hnormal
  · have hlt : m.units < 2 ^ (53 : Nat) := by
      rw [units, hscale]
      simpa using m.mantissa_lt
    by_cases hzero : m.units = 0
    · rw [hzero, hscale]
      rfl
    · have := (Nat.log2_lt hzero).mpr hlt
      omega
  · have hpos : 0 < 2 ^ m.scale := Nat.pow_pos (by decide)
    have hne : m.units ≠ 0 := by
      have : 0 < m.mantissa := Nat.lt_of_lt_of_le (by decide) hnormal
      exact Nat.ne_of_gt (Nat.mul_pos this hpos)
    have hlog : Nat.log2 m.units = 52 + m.scale := by
      rw [Nat.log2_eq_iff hne]
      constructor
      · rw [Nat.pow_add]
        exact Nat.mul_le_mul_right _ hnormal
      · rw [show 52 + m.scale + 1 = 53 + m.scale by omega, Nat.pow_add]
        exact Nat.mul_lt_mul_of_pos_right m.mantissa_lt hpos
    omega

/-- A magnitude is the one nearest to itself. -/
theorem nearest?_units (m : Magnitude) {den : Nat} (hden : 0 < den) :
    nearest? (m.units * den) den = some m := by
  have hround : roundHalfEven (m.units * den) (den * 2 ^ m.scale) = m.mantissa := by
    rw [units, Nat.mul_assoc, Nat.mul_comm (2 ^ m.scale) den]
    exact roundHalfEven_exact (Nat.mul_pos hden (Nat.pow_pos (by decide))) _
  have hlt := m.mantissa_lt
  simp only [nearest?, Nat.mul_div_cancel m.units hden, log2_units, hround]
  rw [if_neg (by omega), ofParts?, dif_pos ⟨m.mantissa_lt, m.scale_le, m.normal⟩]

end Magnitude

namespace Decimal

/-! ### Powers of ten between coefficient and exponent -/

theorem digitCount_le_iff {n k : Nat} (hk : 0 < k) : digitCount n ≤ k ↔ n < 10 ^ k :=
  Nat.length_toDigits_le_iff (by decide) hk

theorem digitCount_pos (n : Nat) : 0 < digitCount n :=
  Nat.length_toDigits_pos

theorem digitCount_mul_pow {n : Nat} (hn : 0 < n) (k : Nat) :
    digitCount (n * 10 ^ k) = digitCount n + k := by
  have hpow : 0 < 10 ^ k := Nat.pow_pos (by decide)
  have hpos := digitCount_pos n
  apply Nat.le_antisymm
  · rw [digitCount_le_iff (by omega), Nat.pow_add]
    exact Nat.mul_lt_mul_of_pos_right ((digitCount_le_iff hpos).mp (Nat.le_refl _)) hpow
  · -- A bound on the product with fewer digits would bound the factor with fewer digits.
    apply Nat.le_of_not_lt
    intro hlt
    have hcount := digitCount_pos (n * 10 ^ k)
    by_cases hone : digitCount n = 1
    · have hle : digitCount (n * 10 ^ k) ≤ k := by omega
      have hlt := (digitCount_le_iff (by omega)).mp hle
      have : 10 ^ k ≤ n * 10 ^ k := Nat.le_mul_of_pos_left _ hn
      omega
    · have hle : digitCount (n * 10 ^ k) ≤ (digitCount n - 1) + k := by omega
      have hlt := (digitCount_le_iff (by omega)).mp hle
      rw [Nat.pow_add] at hlt
      have hsmall := (digitCount_le_iff (by omega)).mpr (Nat.lt_of_mul_lt_mul_right hlt)
      omega

/-- The nearest magnitude does not depend on how many zeros the coefficient ends with. -/
theorem magnitude?_scale (negative negative' : Bool) (coefficient k : Nat) (exponent : Int) :
    magnitude? ⟨negative, coefficient * 10 ^ k, exponent - k⟩ =
      magnitude? ⟨negative', coefficient, exponent⟩ := by
  have hpow : 0 < 10 ^ k := Nat.pow_pos (by decide)
  by_cases hzero : coefficient = 0
  · simp [magnitude?, hzero]
  · have hne : coefficient * 10 ^ k ≠ 0 := by
      rw [Nat.mul_ne_zero_iff]
      exact ⟨hzero, Nat.ne_of_gt hpow⟩
    have hsize : (digitCount (coefficient * 10 ^ k) : Int) + (exponent - k) =
        digitCount coefficient + exponent := by
      rw [digitCount_mul_pow (by omega)]
      omega
    have hnearest : Magnitude.nearest?
        (numerator ⟨negative, coefficient * 10 ^ k, exponent - k⟩)
        (denominator ⟨negative, coefficient * 10 ^ k, exponent - k⟩) =
        Magnitude.nearest? (numerator ⟨negative', coefficient, exponent⟩)
          (denominator ⟨negative', coefficient, exponent⟩) := by
      apply Magnitude.nearest?_congr
      · exact Nat.pow_pos (by decide)
      · exact Nat.pow_pos (by decide)
      · -- Both sides are the coefficient and the unit times a power of ten, and the exponents
        -- of ten agree.
        have hexp : k + (exponent - k).toNat + (-exponent).toNat =
            exponent.toNat + (-(exponent - k)).toNat := by
          omega
        have hten : 10 ^ k * 10 ^ (exponent - k).toNat * 10 ^ (-exponent).toNat =
            10 ^ exponent.toNat * 10 ^ (-(exponent - k)).toNat := by
          rw [← Nat.pow_add, ← Nat.pow_add, ← Nat.pow_add, hexp]
        show coefficient * 10 ^ k * 10 ^ (exponent - k).toNat * Magnitude.unitsPerOne *
            10 ^ (-exponent).toNat =
          coefficient * 10 ^ exponent.toNat * Magnitude.unitsPerOne *
            10 ^ (-(exponent - k)).toNat
        rw [Nat.mul_right_comm _ Magnitude.unitsPerOne, Nat.mul_right_comm _ Magnitude.unitsPerOne,
          Nat.mul_assoc coefficient, Nat.mul_assoc coefficient, hten, ← Nat.mul_assoc coefficient]
    simp only [magnitude?, hzero, hne, hsize, hnearest]

theorem toBinary64_of_magnitude? {d : Decimal} {m : Magnitude} (h : d.magnitude? = some m) :
    d.toBinary64 = .finite d.negative m := by
  rw [toBinary64, h]

/-! ### Reading a numeral -/

theorem takeWhile_append_of_stop {p : Char → Bool} {run rest : List Char} (hrun : ∀ c ∈ run, p c)
    (hrest : ∀ c ∈ rest.head?, p c = false) : (run ++ rest).takeWhile p = run := by
  rw [List.takeWhile_append_of_pos hrun]
  cases rest with
  | nil => simp
  | cons c cs =>
      have := hrest c rfl
      simp [this]

theorem splitSign_of_isDigit {c : Char} {cs : List Char} (h : c.isDigit) :
    Numeral.splitSign (c :: cs) = (false, c :: cs) := by
  rw [Numeral.splitSign]
  · rintro _ ⟨⟩
    exact absurd h (by decide)
  · rintro _ ⟨⟩
    exact absurd h (by decide)

/-- Digits, a point, digits and an exponent. -/
theorem read_point {first : Char} (whole fraction exponent : List Char) (hfirst : first.isDigit)
    (hwhole : ∀ c ∈ whole, c.isDigit) (hfraction : ∀ c ∈ fraction, c.isDigit)
    (hexponent : ∀ c ∈ exponent.head?, c.isDigit = false) :
    read (first :: whole ++ '.' :: (fraction ++ exponent)) =
      ⟨false, ofDigitRun (first :: whole ++ fraction),
        readExponent exponent - (fraction.length : Int)⟩ := by
  have hrun : ∀ c ∈ first :: whole, c.isDigit := by simpa using ⟨hfirst, hwhole⟩
  have htake : (first :: whole ++ '.' :: (fraction ++ exponent)).takeWhile Char.isDigit =
      first :: whole := takeWhile_append_of_stop hrun (by simp)
  have htake' : (fraction ++ exponent).takeWhile Char.isDigit = fraction :=
    takeWhile_append_of_stop hfraction hexponent
  simp only [read, List.cons_append, splitSign_of_isDigit hfirst] at htake ⊢
  rw [htake]
  simp [htake']

/-- Digits and an exponent. -/
theorem read_plain {first : Char} (whole exponent : List Char) (hfirst : first.isDigit)
    (hwhole : ∀ c ∈ whole, c.isDigit)
    (hexponent : ∀ c ∈ exponent.head?, c.isDigit = false ∧ c ≠ '.') :
    read (first :: whole ++ exponent) =
      ⟨false, ofDigitRun (first :: whole), readExponent exponent⟩ := by
  have hrun : ∀ c ∈ first :: whole, c.isDigit := by simpa using ⟨hfirst, hwhole⟩
  have htake : (first :: whole ++ exponent).takeWhile Char.isDigit = first :: whole :=
    takeWhile_append_of_stop hrun fun c hc => (hexponent c hc).1
  simp only [read, List.cons_append, splitSign_of_isDigit hfirst] at htake ⊢
  rw [htake]
  cases exponent with
  | nil => simp
  | cons c cs =>
      have hpoint := (hexponent c rfl).2
      have hdrop : (first :: (whole ++ c :: cs)).drop (first :: whole).length = c :: cs := by
        simp
      rw [hdrop]
      split
      · rename_i heq
        cases heq
        exact absurd rfl hpoint
      · simp

theorem read_minus {first : Char} {cs : List Char} (hfirst : first.isDigit) :
    read ('-' :: first :: cs) =
      ⟨true, (read (first :: cs)).coefficient, (read (first :: cs)).exponent⟩ := by
  have hsign : Numeral.splitSign ('-' :: first :: cs) = (true, first :: cs) := rfl
  simp only [read, hsign, splitSign_of_isDigit hfirst]

end Decimal

end Proto2

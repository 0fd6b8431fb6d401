import Proto2.Proofs.Token.Scan

/-!
The texts of numbers as literals.

An integer that may be written, and any finite binary number, is written as one token that
denotes the number.
-/

namespace Proto2

-- Powers of natural numbers are those of the core library, whatever else is in scope.
attribute [local instance (2000)] instPowNat

/-! ### Integers -/

namespace Numeral

theorem digitValue?_of_isDigit {c : Char} (h : c.isDigit = true) :
    digitValue? 10 c = some (c.toNat - '0'.toNat) := by
  let p : Char → Bool := fun c => digitValue? 10 c == some (c.toNat - '0'.toNat)
  suffices hp : p c = true from eq_of_beq hp
  exact Char.forall_isDigit (by decide) h

theorem ofDigits_of_isDigit {digits : List Char} (h : ∀ c ∈ digits, c.isDigit = true) :
    ofDigits 10 (digits.filterMap (digitValue? 10)) = Nat.ofDigitChars 10 digits 0 := by
  have hmap : digits.filterMap (digitValue? 10) = digits.map fun c => c.toNat - '0'.toNat := by
    induction digits with
    | nil => rfl
    | cons c cs ih =>
        rw [List.filterMap_cons_some (digitValue?_of_isDigit (h c (by simp))), List.map_cons,
          ih fun d hd => h d (by simp [hd])]
  rw [hmap, ofDigits, List.foldl_map, Nat.ofDigitChars_eq_foldl]

theorem natText_ne_nil (n : Nat) : natText n ≠ [] :=
  Nat.toDigits_ne_nil

theorem isDigit_of_mem_natText {n : Nat} {c : Char} (h : c ∈ natText n) : c.isDigit = true :=
  Nat.isDigit_of_mem_toDigits (by decide) (by decide) h

/-- The text of an integer is the digits of its magnitude, behind a sign if it is negative. -/
theorem exists_text (n : Int) :
    ∃ sign, text n = sign ++ natText n.natAbs ∧
      (sign = [] ∧ 0 ≤ n ∨ sign = ['-'] ∧ n < 0) := by
  cases n with
  | ofNat n => exact ⟨[], rfl, .inl ⟨rfl, Int.natCast_nonneg n⟩⟩
  | negSucc n => exact ⟨['-'], rfl, .inr ⟨rfl, Int.negSucc_lt_zero n⟩⟩

theorem spells_text (n : Int) : Lexeme.Spells (text n) .integer (text n) := by
  obtain ⟨sign, htext, hsign⟩ := exists_text n
  obtain ⟨d, ds, hds⟩ := List.exists_cons_of_ne_nil (natText_ne_nil n.natAbs)
  have hdigits : ∀ c ∈ d :: ds, c.isDigit = true := by
    rw [← hds]
    exact fun c hc => isDigit_of_mem_natText hc
  rw [htext, hds]
  exact Lexeme.spells_digits (hsign.imp And.left And.left) (hdigits d (by simp))
    fun c hc => hdigits c (by simp [hc])

/-- A number of at most nine digits may be written. -/
theorem isWritable_of_natAbs_lt {n : Int} (h : n.natAbs < 1000000000) : isWritable n = true := by
  have hpow : (10 : Nat) ^ 9 ≤ 10 ^ digitLimit := Nat.pow_le_pow_right (by omega) (by decide)
  exact decide_eq_true (Nat.lt_of_lt_of_le h hpow)

/-- A number that may be written is read back. -/
theorem read_natText {n : Nat} (h : n < 10 ^ digitLimit) : read 10 (natText n) = .ok n := by
  have hlength : (natText n).length ≤ digitLimit :=
    (Nat.length_toDigits_le_iff (by decide) (by decide)).mpr h
  rw [read_of_isPlainDigit (natText_ne_nil n) fun c hc =>
    isPlainDigit_ten (isDigit_of_mem_natText hc), if_neg (by omega),
    ofDigits_of_isDigit fun c hc => isDigit_of_mem_natText hc]
  rw [natText, Nat.ofDigitChars_ten_toDigits]

end Numeral

theorem IntegerLiteral.read_text {n : Int} (h : Numeral.isWritable n = true) :
    read (Numeral.text n) = .ok n := by
  obtain ⟨sign, htext, hsign⟩ := Numeral.exists_text n
  have hwritable : n.natAbs < 10 ^ Numeral.digitLimit := of_decide_eq_true h
  have hdrop : (sign ++ Numeral.natText n.natAbs).dropWhile isSign = Numeral.natText n.natAbs := by
    apply dropWhile_isSign (hsign.imp And.left fun h => .inr h.1)
    intro c hc
    exact isSign_of_isDigit (Numeral.isDigit_of_mem_natText (List.mem_of_mem_head? hc))
  have hmagnitude : readMagnitude (Numeral.natText n.natAbs) = .ok (n.natAbs : Int) := by
    rw [readMagnitude_of_digits (Numeral.natText_ne_nil _) fun c hc => Numeral.isDigit_of_mem_natText hc,
      Numeral.read_natText hwritable]
  simp only [read, htext, hdrop, hmagnitude, Except.map, Except.ok.injEq]
  rcases hsign with ⟨rfl, hn⟩ | ⟨rfl, hn⟩
  · have hhead : ([] ++ Numeral.natText n.natAbs).head? ≠ some '-' := by
      intro hc
      exact absurd (Numeral.isDigit_of_mem_natText (List.mem_of_mem_head? hc)) (by decide)
    rw [beq_false_of_ne hhead]
    simp only [Bool.false_eq_true, if_false]
    omega
  · simp only [List.singleton_append, List.head?_cons, beq_self_eq_true, if_true]
    omega

/-! ### Binary numbers -/

namespace Binary64

theorem isExponent_exponentText (e : Int) : Lexeme.IsExponent (exponentText e) := by
  obtain ⟨sign, digits, htext, hsome, hdigits, -, hsign⟩ := Decimal.exists_exponentText e
  refine ⟨sign, digits, htext, ?_, hsome, hdigits⟩
  rw [hsign]
  split
  · exact .inr rfl
  · exact .inl rfl

section Spelling

variable {sign : List Char} {d : Char} {ds : List Char} (hsign : sign = [] ∨ sign = ['-'])
  (hd : d.isDigit = true) (hds : ∀ c ∈ ds, c.isDigit = true)

include hsign hd hds

theorem spells_positionalText (e : Int) :
    Lexeme.Spells (sign ++ positionalText (d :: ds) e) .float
      (sign ++ positionalText (d :: ds) e) := by
  have hdigits : ∀ c ∈ d :: ds, c.isDigit = true := by simpa using ⟨hd, hds⟩
  unfold positionalText
  dsimp only
  split
  · have hfraction : ∀ c ∈ List.replicate (-e - 1).toNat '0' ++ d :: ds, c.isDigit = true := by
      intro c hc
      rcases List.mem_append.mp hc with hc | hc
      · exact Decimal.isDigit_of_mem_zeros hc
      · exact hdigits c hc
    have h := Lexeme.spells_point hsign (by decide : Char.isDigit '0' = true)
      (by simp : ∀ c ∈ ([] : List Char), c.isDigit = true) hfraction (.inl rfl)
    simpa using h
  split
  · have hwhole : ∀ c ∈ ds ++ List.replicate (e.toNat + 1 - (d :: ds).length) '0',
        c.isDigit = true := by
      intro c hc
      rcases List.mem_append.mp hc with hc | hc
      · exact hds c hc
      · exact Decimal.isDigit_of_mem_zeros hc
    have h := Lexeme.spells_point hsign hd hwhole
      (List.forall_mem_singleton.mpr rfl : ∀ c ∈ ['0'], c.isDigit = true) (.inl rfl)
    simpa using h
  · have h := Lexeme.spells_point hsign hd
      (fun c (hc : c ∈ ds.take e.toNat) => hds c (List.mem_of_mem_take hc))
      (fun c (hc : c ∈ ds.drop e.toNat) => hds c (List.mem_of_mem_drop hc)) (.inl rfl)
    simpa using h

theorem spells_scientificText (e : Int) :
    Lexeme.Spells (sign ++ scientificText (d :: ds) e) .float
      (sign ++ scientificText (d :: ds) e) := by
  cases ds with
  | nil =>
      have h := Lexeme.spells_exponent hsign hd hds (isExponent_exponentText e)
      simpa [scientificText] using h
  | cons d' ds =>
      have h := Lexeme.spells_point hsign hd (by simp : ∀ c ∈ ([] : List Char), c.isDigit = true)
        hds (.inr (isExponent_exponentText e))
      simpa [scientificText] using h

theorem spells_layout (e : Int) :
    Lexeme.Spells (sign ++ layout (d :: ds) e) .float (sign ++ layout (d :: ds) e) := by
  unfold layout
  split
  · exact spells_positionalText hsign hd hds e
  · exact spells_scientificText hsign hd hds e

end Spelling

theorem spells_magnitudeText {sign : List Char} (hsign : sign = [] ∨ sign = ['-'])
    (m : Magnitude) :
    Lexeme.Spells (sign ++ magnitudeText m) .float (sign ++ magnitudeText m) := by
  by_cases h : m.mantissa = 0
  · have hzero := Lexeme.spells_point hsign (by decide : Char.isDigit '0' = true)
      (by simp : ∀ c ∈ ([] : List Char), c.isDigit = true)
      (List.forall_mem_singleton.mpr rfl : ∀ c ∈ ['0'], c.isDigit = true) (.inl rfl)
    rw [magnitudeText, if_pos h]
    simpa using hzero
  · obtain ⟨d, ds, e, htext, hdigits, -⟩ := exists_magnitudeText h
    rw [htext]
    exact spells_layout hsign (hdigits d (by simp)) (fun c hc => hdigits c (by simp [hc])) e

/-- The text of a finite number is a floating-point literal. -/
theorem spells_text (negative : Bool) (m : Magnitude) :
    Lexeme.Spells (text (.finite negative m)) .float (text (.finite negative m)) := by
  cases negative with
  | false => exact spells_magnitudeText (.inl rfl) m
  | true => exact spells_magnitudeText (.inr rfl) m

end Binary64

end Proto2

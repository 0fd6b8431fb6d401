import Mathlib.Data.List.TakeWhile
import Proto2.Number.Shortest
import Proto2.Proofs.Number.Decimal

/-!
The text of a binary number reads back as the number.

The shortest decimal reads back, whichever grid it was found on, and so does the exact
expansion behind the search.  What is left is that no layout of the digits changes the value.
-/

namespace Proto2

-- Powers of natural numbers are those of the core library, whatever else is in scope.
attribute [local instance (2000)] instPowNat

namespace Magnitude

/-! ### The shortest decimal -/

theorem units_lt (m : Magnitude) : m.units < 2 ^ (53 : Nat) * 2 ^ (2045 : Nat) := by
  have hpow (k : Nat) (hk : m.scale ≤ k) : 2 ^ m.scale ≤ 2 ^ k :=
    Nat.pow_le_pow_right (by decide) hk
  have hunits : m.units < 2 ^ (53 : Nat) * 2 ^ m.scale :=
    Nat.mul_lt_mul_of_pos_right m.mantissa_lt (Nat.pow_pos (by decide))
  have hgreatest := Nat.mul_le_mul_left (2 ^ (53 : Nat)) (hpow 2045 m.scale_le)
  exact Nat.lt_of_lt_of_le hunits hgreatest

theorem units_pos {m : Magnitude} (h : m.mantissa ≠ 0) : 0 < m.units :=
  Nat.mul_pos (by omega) (Nat.pow_pos (by decide))

theorem eq_zero {m : Magnitude} (h : m.mantissa = 0) : m = .zero := by
  have hscale : m.scale = 0 := by
    apply m.normal.resolve_right
    rw [h]
    decide
  cases m
  cases h
  cases hscale
  rfl

theorem isReadFrom_of_onGrid? {m : Magnitude} {exponent : Int} {coefficient : Nat}
    (h : m.onGrid? exponent = some coefficient) : m.isReadFrom coefficient exponent = true := by
  simp only [onGrid?] at h
  split at h
  · rename_i hbelow
    cases h
    exact (Bool.and_eq_true_iff.mp hbelow).1
  · split at h
    · rename_i habove
      cases h
      exact habove
    · cases h

/-- The exact expansion of a magnitude reads back. -/
theorem isReadFrom_units {m : Magnitude} (h : m.mantissa ≠ 0) :
    m.isReadFrom (m.units * 5 ^ (1074 : Nat)) (-1074) = true := by
  have hpos := units_pos h
  have hlt := m.units_lt
  have hlower : 10 ^ (750 : Nat) ≤ 5 ^ (1074 : Nat) := by decide +kernel
  have hupper : 2 ^ (53 : Nat) * 2 ^ (2045 : Nat) * 5 ^ (1074 : Nat) < 10 ^ (1383 : Nat) := by decide +kernel
  have hten : 5 ^ (1074 : Nat) * unitsPerOne = 10 ^ (1074 : Nat) := by decide +kernel
  have htenPos : 0 < 10 ^ (1074 : Nat) := by decide +kernel
  have hden : Decimal.denominator ⟨false, m.units * 5 ^ (1074 : Nat), -1074⟩ =
      10 ^ (1074 : Nat) := by
    have hexponent : (- -1074 : Int).toNat = 1074 := by decide
    simp only [Decimal.denominator, hexponent]
  have hnum : Decimal.numerator ⟨false, m.units * 5 ^ (1074 : Nat), -1074⟩ =
      m.units * 5 ^ (1074 : Nat) * 10 ^ (0 : Nat) * unitsPerOne := rfl
  -- From here on only the bounds on the two powers matter, not their values.
  generalize 5 ^ (1074 : Nat) = fives at *
  generalize 10 ^ (1074 : Nat) = tens at *
  have hcount : 750 < Decimal.digitCount (m.units * fives) := by
    apply Nat.lt_of_not_le
    rw [Decimal.digitCount_le_iff (by decide)]
    have : fives ≤ m.units * fives := Nat.le_mul_of_pos_left _ hpos
    omega
  have hcount' : Decimal.digitCount (m.units * fives) ≤ 1383 := by
    rw [Decimal.digitCount_le_iff (by decide)]
    have hle := Nat.mul_le_mul_right fives (Nat.le_of_lt hlt)
    exact Nat.lt_of_le_of_lt hle hupper
  -- The count of digits rules out that the expansion is taken for zero or for an overflow.
  have hread : (Decimal.mk false (m.units * fives) (-1074)).magnitude? =
      nearest? (m.units * tens) tens := by
    have hlarge : ¬ (m.units * fives = 0 ∨
        (Decimal.digitCount (m.units * fives) : Int) + -1074 < -330) := by
      rintro (hzero | hsmall)
      · rw [hzero] at hcount
        revert hcount
        decide
      · omega
    have hsmall : ¬ 330 < (Decimal.digitCount (m.units * fives) : Int) + -1074 := by omega
    simp only [Decimal.magnitude?, hlarge, hsmall, if_false, hden, hnum]
    rw [Nat.pow_zero, Nat.mul_one, Nat.mul_assoc, hten]
  rw [isReadFrom, hread, nearest?_units m htenPos]
  exact beq_self_eq_true _

/-- Whatever the search settles on reads back. -/
theorem isReadFrom_shortest {m : Magnitude} (h : m.mantissa ≠ 0) :
    m.isReadFrom m.shortest.1 m.shortest.2 = true := by
  simp only [shortest]
  cases hfound : (List.range 17).findSome? fun (n : Nat) =>
      (m.onGrid? (m.leadingExponent - (n : Int))).map (·, m.leadingExponent - (n : Int)) with
  | none => exact isReadFrom_units h
  | some found =>
      obtain ⟨n, -, hn⟩ := List.exists_of_findSome?_eq_some hfound
      obtain ⟨coefficient, hgrid, rfl⟩ := Option.map_eq_some_iff.mp hn
      exact isReadFrom_of_onGrid? hgrid

theorem magnitude?_shortest {m : Magnitude} (h : m.mantissa ≠ 0) (negative : Bool) :
    (Decimal.mk negative m.shortest.1 m.shortest.2).magnitude? = some m :=
  eq_of_beq (isReadFrom_shortest h)

end Magnitude

namespace Decimal

/-! ### Runs of digits -/

theorem ofDigitRun_append (digits more : List Char) :
    ofDigitRun (digits ++ more) = 10 ^ more.length * ofDigitRun digits + ofDigitRun more := by
  rw [ofDigitRun, Nat.ofDigitChars_append, Nat.ofDigitChars_eq_ofDigitChars_zero]
  rfl

@[simp] theorem ofDigitRun_replicate_zero (n : Nat) :
    ofDigitRun (List.replicate n '0') = 0 := by
  simp [ofDigitRun]

@[simp] theorem ofDigitRun_toDigits (n : Nat) : ofDigitRun (Nat.toDigits 10 n) = n :=
  Nat.ofDigitChars_ten_toDigits

theorem ofDigitRun_zeros_append (n : Nat) (digits : List Char) :
    ofDigitRun (List.replicate n '0' ++ digits) = ofDigitRun digits := by
  rw [ofDigitRun_append, ofDigitRun_replicate_zero, Nat.mul_zero, Nat.zero_add]

theorem ofDigitRun_append_zeros (digits : List Char) (n : Nat) :
    ofDigitRun (digits ++ List.replicate n '0') = ofDigitRun digits * 10 ^ n := by
  rw [ofDigitRun_append, ofDigitRun_replicate_zero, List.length_replicate, Nat.add_zero,
    Nat.mul_comm]

theorem isDigit_of_mem_zeros {n : Nat} {c : Char} (h : c ∈ List.replicate n '0') :
    c.isDigit = true := by
  rw [List.eq_of_mem_replicate h]
  rfl

/-- The digits are those without the zeros they end with, and some zeros. -/
theorem exists_stripZeros (digits : List Char) :
    ∃ n, digits = Binary64.stripZeros digits ++ List.replicate n '0' := by
  have hzeros : digits.reverse.takeWhile (· == '0') =
      List.replicate (digits.reverse.takeWhile (· == '0')).length '0' := by
    apply List.eq_replicate_of_mem
    intro c hc
    have hall := List.all_takeWhile (p := (· == '0')) (l := digits.reverse)
    simpa using List.all_eq_true.mp hall c hc
  refine ⟨(digits.reverse.takeWhile (· == '0')).length, ?_⟩
  apply List.reverse_inj.mp
  rw [List.reverse_append, List.reverse_replicate, ← hzeros, Binary64.stripZeros,
    List.reverse_reverse, List.takeWhile_append_dropWhile]

/-! ### Exponents -/

theorem head?_exponentText (e : Int) : (Binary64.exponentText e).head? = some 'e' := rfl

/-- The digits of an exponent. -/
theorem exists_exponentText (e : Int) :
    ∃ sign digits, Binary64.exponentText e = 'e' :: sign :: digits ∧ digits ≠ [] ∧
      (∀ c ∈ digits, c.isDigit = true) ∧ ofDigitRun digits = e.natAbs ∧
      sign = if e < 0 then '-' else '+' := by
  have hdigits : ∀ c ∈ Nat.toDigits 10 e.natAbs, c.isDigit = true :=
    fun c hc => Nat.isDigit_of_mem_toDigits (by decide) (by decide) hc
  by_cases hshort : (Nat.toDigits 10 e.natAbs).length < 2
  · refine ⟨_, '0' :: Nat.toDigits 10 e.natAbs, ?_, by simp, ?_, ?_, rfl⟩
    · simp [Binary64.exponentText, hshort]
    · intro c hc
      rcases List.mem_cons.mp hc with rfl | hc
      · rfl
      · exact hdigits c hc
    · rw [show '0' :: Nat.toDigits 10 e.natAbs =
        List.replicate 1 '0' ++ Nat.toDigits 10 e.natAbs from rfl, ofDigitRun_zeros_append,
        ofDigitRun_toDigits]
  · refine ⟨_, Nat.toDigits 10 e.natAbs, ?_, Nat.toDigits_ne_nil, hdigits, ofDigitRun_toDigits _,
      rfl⟩
    simp [Binary64.exponentText, hshort]

theorem readExponent_exponentText (e : Int) : readExponent (Binary64.exponentText e) = e := by
  obtain ⟨sign, digits, htext, -, hall, hrun, hsign⟩ := exists_exponentText e
  have htake : digits.takeWhile Char.isDigit = digits := List.takeWhile_eq_self_iff.mpr hall
  rw [htext, readExponent]
  by_cases hneg : e < 0
  · have hsplit : Numeral.splitSign (sign :: digits) = (true, digits) := by
      rw [hsign, if_pos hneg]
      rfl
    simp only [hsplit, htake, hrun, Numeral.signed, if_true]
    omega
  · have hsplit : Numeral.splitSign (sign :: digits) = (false, digits) := by
      rw [hsign, if_neg hneg]
      rfl
    simp only [hsplit, htake, hrun, Numeral.signed]
    simp only [Bool.false_eq_true, if_false]
    omega

/-! ### Layouts -/

/-- Some text reads as digits at an exponent, perhaps with zeros behind the digits. -/
def ReadsAs (text digits : List Char) (exponent : Int) : Prop :=
  ∃ n : Nat, read text = ⟨false, ofDigitRun digits * 10 ^ n, exponent - n⟩

theorem ReadsAs.magnitude? {text digits : List Char} {exponent : Int}
    (h : ReadsAs text digits exponent) (negative : Bool) :
    (read text).magnitude? = (Decimal.mk negative (ofDigitRun digits) exponent).magnitude? := by
  obtain ⟨n, hn⟩ := h
  rw [hn, magnitude?_scale _ negative]

section Layouts

variable {d : Char} {ds : List Char} {e : Int} (hd : d.isDigit = true)
  (hds : ∀ c ∈ ds, c.isDigit = true)

include hd hds

/-- Digits that all stand behind the point. -/
theorem readsAs_fraction (he : e < 0) :
    ReadsAs ('0' :: '.' :: List.replicate (-e - 1).toNat '0' ++ d :: ds) (d :: ds)
      (e + 1 - (d :: ds).length) := by
  have hfraction : ∀ c ∈ List.replicate (-e - 1).toNat '0' ++ d :: ds, c.isDigit = true := by
    intro c hc
    rcases List.mem_append.mp hc with hc | hc
    · exact isDigit_of_mem_zeros hc
    · rcases List.mem_cons.mp hc with rfl | hc
      · exact hd
      · exact hds c hc
  have hread := read_point [] _ [] (by rfl : Char.isDigit '0' = true) (by simp) hfraction (by simp)
  have hrun : ofDigitRun ('0' :: [] ++ (List.replicate (-e - 1).toNat '0' ++ d :: ds)) =
      ofDigitRun (d :: ds) := by
    rw [show '0' :: [] = List.replicate 1 '0' from rfl, ofDigitRun_zeros_append,
      ofDigitRun_zeros_append]
  rw [hrun, List.append_nil] at hread
  refine ⟨0, hread.trans ?_⟩
  simp only [readExponent, List.length_append, List.length_replicate, List.length_cons,
    Nat.pow_zero, Nat.mul_one, Decimal.mk.injEq, true_and]
  omega

/-- Digits that all stand before the point. -/
theorem readsAs_whole (n : Nat) :
    ReadsAs (d :: ds ++ List.replicate n '0' ++ ['.', '0']) (d :: ds) n := by
  have hwhole : ∀ c ∈ ds ++ List.replicate n '0', c.isDigit = true := by
    intro c hc
    rcases List.mem_append.mp hc with hc | hc
    · exact hds c hc
    · exact isDigit_of_mem_zeros hc
  have hread := read_point _ ['0'] [] hd hwhole (by simp) (by simp)
  have hrun : ofDigitRun (d :: (ds ++ List.replicate n '0') ++ ['0']) =
      ofDigitRun (d :: ds) * 10 ^ (n + 1) := by
    rw [← ofDigitRun_append_zeros, List.replicate_succ', List.cons_append, List.cons_append,
      List.append_assoc]
  rw [hrun] at hread
  refine ⟨n + 1, ?_⟩
  simp only [List.cons_append, List.append_nil, List.append_assoc] at hread ⊢
  rw [hread]
  simp only [readExponent, List.length_singleton, Decimal.mk.injEq, true_and]
  omega

/-- Digits on both sides of the point. -/
theorem readsAs_split (n : Nat) :
    ReadsAs ((d :: ds).take (n + 1) ++ '.' :: (d :: ds).drop (n + 1)) (d :: ds)
      (-((ds.length - n : Nat) : Int)) := by
  have hread := read_point (ds.take n) (ds.drop n) [] hd
    (fun c hc => hds c (List.mem_of_mem_take hc)) (fun c hc => hds c (List.mem_of_mem_drop hc))
    (by simp)
  refine ⟨0, ?_⟩
  simp only [List.cons_append, List.append_nil, List.take_append_drop] at hread
  simp only [List.take_succ_cons, List.drop_succ_cons, List.cons_append]
  rw [hread]
  simp [readExponent]

/-- Digits with an exponent. -/
theorem readsAs_scientificText :
    ReadsAs (Binary64.scientificText (d :: ds) e) (d :: ds) (e + 1 - (d :: ds).length) := by
  refine ⟨0, ?_⟩
  cases ds with
  | nil =>
      have hread := read_plain [] (Binary64.exponentText e) hd (by simp)
        (by simp [head?_exponentText])
      rw [readExponent_exponentText] at hread
      refine (hread : read (Binary64.scientificText [d] e) = _).trans ?_
      simp
  | cons d' ds =>
      have hread := read_point [] (d' :: ds) (Binary64.exponentText e) hd (by simp) hds
        (by simp [head?_exponentText])
      rw [readExponent_exponentText] at hread
      refine (hread : read (Binary64.scientificText (d :: d' :: ds) e) = _).trans ?_
      have hexponent : e - ((d' :: ds).length : Int) =
          e + 1 - ((d :: d' :: ds).length : Int) - ((0 : Nat) : Int) := by
        simp only [List.length_cons]
        omega
      rw [hexponent]
      simp

/-- Laying digits out leaves their value. -/
theorem readsAs_layout :
    ReadsAs (Binary64.layout (d :: ds) e) (d :: ds) (e + 1 - (d :: ds).length) := by
  unfold Binary64.layout
  split
  · unfold Binary64.positionalText
    dsimp only
    split
    case isTrue he => exact readsAs_fraction hd hds he
    case isFalse he =>
      split
      case isTrue hlong =>
        have h := readsAs_whole hd hds (e.toNat + 1 - (d :: ds).length)
        rwa [show ((e.toNat + 1 - (d :: ds).length : Nat) : Int) = e + 1 - (d :: ds).length by
          omega] at h
      case isFalse hshort =>
        have h := readsAs_split hd hds e.toNat
        rw [List.length_cons] at hshort
        rwa [show -((ds.length - e.toNat : Nat) : Int) = e + 1 - (d :: ds).length by
          rw [List.length_cons]
          omega] at h
  · exact readsAs_scientificText hd hds

end Layouts

end Decimal

namespace Binary64

/-- The digits that the text of a positive magnitude shows, and where they stand. -/
theorem exists_magnitudeText {m : Magnitude} (h : m.mantissa ≠ 0) :
    ∃ d ds e, magnitudeText m = layout (d :: ds) e ∧ (∀ c ∈ d :: ds, c.isDigit = true) ∧
      (Decimal.mk false (Decimal.ofDigitRun (d :: ds)) (e + 1 - (d :: ds).length)).magnitude? =
        some m := by
  have hshortest := Magnitude.magnitude?_shortest h false
  obtain ⟨n, hn⟩ := Decimal.exists_stripZeros (Nat.toDigits 10 m.shortest.1)
  have hvalue : m.shortest.1 =
      Decimal.ofDigitRun (stripZeros (Nat.toDigits 10 m.shortest.1)) * 10 ^ n := by
    rw [← Decimal.ofDigitRun_append_zeros, ← hn, Decimal.ofDigitRun_toDigits]
  have hlength := congrArg List.length hn
  rw [List.length_append, List.length_replicate] at hlength
  have hsome : stripZeros (Nat.toDigits 10 m.shortest.1) ≠ [] := by
    intro hnil
    rw [hnil] at hvalue
    have hzero : m.shortest.1 = 0 := by simpa [Decimal.ofDigitRun] using hvalue
    rw [hzero, Decimal.magnitude?, if_pos (.inl rfl)] at hshortest
    cases hshortest
    exact h rfl
  have hdigits : ∀ c ∈ stripZeros (Nat.toDigits 10 m.shortest.1), c.isDigit = true := by
    intro c hc
    apply Nat.isDigit_of_mem_toDigits (b := 10) (n := m.shortest.1) (by decide) (by decide)
    rw [hn]
    exact List.mem_append_left _ hc
  obtain ⟨d, ds, hds⟩ := List.exists_cons_of_ne_nil hsome
  rw [hds] at hvalue hlength hdigits
  refine ⟨d, ds, m.shortest.2 + (Nat.toDigits 10 m.shortest.1).length - 1, ?_, hdigits, ?_⟩
  · rw [magnitudeText, if_neg h, ← hds]
  · -- The zeros that were left out stand in the exponent now.
    rw [← Decimal.magnitude?_scale false _ _ n, ← hvalue]
    rw [show m.shortest.2 + (Nat.toDigits 10 m.shortest.1).length - 1 + 1 - (d :: ds).length - n =
      m.shortest.2 by omega]
    exact hshortest

theorem exists_layout_cons {d : Char} (ds : List Char) (e : Int) (hd : d.isDigit = true) :
    ∃ c cs, layout (d :: ds) e = c :: cs ∧ c.isDigit = true := by
  unfold layout
  split
  · unfold positionalText
    dsimp only
    split
    · exact ⟨'0', _, rfl, rfl⟩
    · split
      · exact ⟨d, _, rfl, hd⟩
      · exact ⟨d, _, rfl, hd⟩
  · cases ds with
    | nil => exact ⟨d, _, rfl, hd⟩
    | cons d' ds => exact ⟨d, _, rfl, hd⟩

/-- The text of a magnitude reads as the magnitude. -/
theorem read_magnitudeText (m : Magnitude) :
    ∃ c cs, magnitudeText m = c :: cs ∧ c.isDigit = true ∧
      (Decimal.read (magnitudeText m)).negative = false ∧
      (Decimal.read (magnitudeText m)).magnitude? = some m := by
  by_cases hzero : m.mantissa = 0
  · have htext : magnitudeText m = ['0', '.', '0'] := by rw [magnitudeText, if_pos hzero]
    rw [htext, Magnitude.eq_zero hzero]
    exact ⟨'0', _, rfl, rfl, rfl, rfl⟩
  · obtain ⟨d, ds, e, htext, hdigits, hvalue⟩ := exists_magnitudeText hzero
    have hread : Decimal.ReadsAs (magnitudeText m) (d :: ds) (e + 1 - (d :: ds).length) := by
      rw [htext]
      exact Decimal.readsAs_layout (hdigits d (by simp)) fun c hc => hdigits c (by simp [hc])
    obtain ⟨c, cs, hcons, hc⟩ := exists_layout_cons ds e (hdigits d (by simp))
    refine ⟨c, cs, htext.trans hcons, hc, ?_, (hread.magnitude? false).trans hvalue⟩
    obtain ⟨n, hn⟩ := hread
    rw [hn]

/-- The text of a finite number reads as the number. -/
theorem read_text (negative : Bool) (m : Magnitude) :
    read (text (.finite negative m)) = .finite negative m := by
  obtain ⟨c, cs, htext, hc, hsign, hvalue⟩ := read_magnitudeText m
  cases negative with
  | false =>
      rw [text, read, Decimal.toBinary64_of_magnitude? hvalue, hsign]
  | true =>
      rw [htext] at hvalue
      rw [text, read, htext, Decimal.read_minus hc]
      exact Decimal.toBinary64_of_magnitude? hvalue

end Binary64

end Proto2

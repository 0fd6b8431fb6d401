/-!
Binary floating-point numbers of 64 bits, by their values.

A finite number is a sign and a magnitude, and a magnitude is a natural number of *units*,
the unit being the least positive number, `2 ^ -1074`.  Every magnitude has one
representation, so equality of representations is equality of values (and of the sign of
zero).  All arithmetic on magnitudes is exact arithmetic on natural numbers; the only
rounding is `Magnitude.nearest?`.
-/

namespace Proto2

-- Powers of natural numbers are those of the core library, whatever else is in scope.
attribute [local instance (2000)] instPowNat

/-- A finite magnitude: `mantissa * 2 ^ scale` units. -/
structure Magnitude where
  mantissa : Nat
  scale : Nat
  mantissa_lt : mantissa < 2 ^ (53 : Nat)
  scale_le : scale ≤ 2045
  normal : scale = 0 ∨ 2 ^ (52 : Nat) ≤ mantissa
deriving DecidableEq, Repr

/-- A number of the 64-bit binary format. -/
inductive Binary64 where
  | finite (negative : Bool) (magnitude : Magnitude)
  | infinite (negative : Bool)
  | nan
deriving DecidableEq, Repr

namespace Magnitude

/-- How many units there are in one. -/
def unitsPerOne : Nat := 2 ^ (1074 : Nat)

/-- The magnitude in units. -/
def units (m : Magnitude) : Nat :=
  m.mantissa * 2 ^ m.scale

/-- The magnitude zero. -/
def zero : Magnitude := ⟨0, 0, by decide, by decide, .inl rfl⟩

/-- The natural number nearest to a quotient; of two that are equally near, the even one. -/
def roundHalfEven (num den : Nat) : Nat :=
  let quotient := num / den
  let twice := 2 * (num % den)
  if twice < den then quotient
  else if den < twice then quotient + 1
  else quotient + quotient % 2

/-- The magnitude of the given parts, if they are in range. -/
def ofParts? (mantissa scale : Nat) : Option Magnitude :=
  if h : mantissa < 2 ^ (53 : Nat) ∧ scale ≤ 2045 ∧ (scale = 0 ∨ 2 ^ (52 : Nat) ≤ mantissa) then
    some ⟨mantissa, scale, h.1, h.2.1, h.2.2⟩
  else none

/-- The magnitude nearest to `num / den` units, ties to the even mantissa; none when that
lies beyond the greatest magnitude. -/
def nearest? (num den : Nat) : Option Magnitude :=
  let scale := Nat.log2 (num / den) - 52
  let mantissa := roundHalfEven num (den * 2 ^ scale)
  if mantissa = 2 ^ (53 : Nat) then ofParts? (2 ^ (52 : Nat)) (scale + 1) else ofParts? mantissa scale

@[simp] theorem units_zero : zero.units = 0 := by
  simp [units, zero]

theorem units_ofParts? {mantissa scale : Nat} {m : Magnitude}
    (h : ofParts? mantissa scale = some m) : m.units = mantissa * 2 ^ scale := by
  unfold ofParts? at h
  split at h
  · cases h
    rfl
  · cases h

end Magnitude

end Proto2

import Proto2.Corpus.Twister
import Proto2.Number.Decimal

/-!
Random draws.

A generator of texts asks its source for numbers below a bound and for fractions.  It works
with any source; only the numbers that come out depend on it.  The source in use draws from a
Mersenne twister: a number below a bound is drawn with as many bits as the bound has, again
and again until it is below.
-/

namespace Proto2

-- Powers of natural numbers are those of the core library, whatever else is in scope.
attribute [local instance (2000)] instPowNat

/-- A source of random draws, with the states it goes through. -/
structure DrawSource (σ : Type) where
  /-- Draws a number below a positive bound. -/
  below : Nat → σ → Nat × σ
  /-- Draws a fraction below one, in units of `2 ^ -53`. -/
  fraction : σ → Nat × σ

/-- Whether the numbers that a source draws are below their bounds. -/
def DrawSource.InRange {σ : Type} (d : DrawSource σ) : Prop :=
  ∀ (bound : Nat) (s : σ), 0 < bound → (d.below bound s).1 < bound

namespace Twister

/-- Draws the given number of bits, at most 32. -/
def bits (count : Nat) (t : Twister) : Nat × Twister :=
  let (w, t) := t.next
  (w.toNat >>> (32 - count), t)

/-- The number of bits of a positive number. -/
def bitLength (n : Nat) : Nat :=
  Nat.log2 n + 1

/-- Draws bits until the number is below the bound, at most the given number of times, and
takes zero if all are too great. -/
def belowWithin : Nat → Nat → Twister → Nat × Twister
  | 0, _, t => (0, t)
  | fuel + 1, bound, t =>
    let (n, t) := t.bits (bitLength bound)
    if n < bound then (n, t) else belowWithin fuel bound t

/-- Draws a number below a bound.  A draw fails with a chance of at most one half, so a
thousand of them do not all fail. -/
def below (bound : Nat) (t : Twister) : Nat × Twister :=
  belowWithin 1000 bound t

/-- Draws a fraction below one, in units of `2 ^ -53`. -/
def fraction (t : Twister) : Nat × Twister :=
  let (high, t) := t.bits 27
  let (low, t) := t.bits 26
  (high * 2 ^ (26 : Nat) + low, t)

/-- The source that draws from a twister. -/
def source : DrawSource Twister := ⟨below, fraction⟩

theorem belowWithin_lt (fuel : Nat) {bound : Nat} (t : Twister) (h : 0 < bound) :
    (belowWithin fuel bound t).1 < bound := by
  induction fuel generalizing t with
  | zero => exact h
  | succ fuel ih =>
    unfold belowWithin
    dsimp only
    split
    · assumption
    · exact ih _

theorem source_inRange : source.InRange :=
  fun _ t h => belowWithin_lt 1000 t h

end Twister

/-- A computation that draws from a source. -/
abbrev Generator (σ : Type) := ReaderT (DrawSource σ) (StateM σ)

namespace Generator

variable {σ α : Type}

/-- A number below a positive bound. -/
def below (bound : Nat) : Generator σ Nat := fun source s => source.below bound s

/-- A number from a range, both ends included. -/
def between (low high : Nat) : Generator σ Nat := do
  return low + (← below (high - low + 1))

/-- A fraction below one, in units of `2 ^ -53`. -/
def fraction : Generator σ Nat := fun source s => source.fraction s

/-- Whether a fraction is below so many hundredths, a bound that is rounded to a binary
number. -/
def isBelow (percent : Nat) (fraction : Nat) : Bool :=
  match (Decimal.mk false percent (-2)).magnitude? with
  | some bound => fraction * 2 ^ (1074 - 53 : Nat) < bound.units
  | none => true

/-- True with so many hundredths of a chance. -/
def chance (percent : Nat) : Generator σ Bool := do
  return isBelow percent (← fraction)

/-- One of some values. -/
def oneOf (first : α) (rest : List α) : Generator σ α := do
  let i ← below (rest.length + 1)
  return (first :: rest)[i]?.getD first

/-- As many values as there are places, each made for its place, from the given place on. -/
def placesFrom (make : Nat → Generator σ α) : Nat → Nat → Generator σ (List α)
  | _, 0 => return []
  | place, count + 1 => do
    let first ← make place
    let rest ← placesFrom make (place + 1) count
    return first :: rest

/-- So many values, each made for its place. -/
def places (count : Nat) (make : Nat → Generator σ α) : Generator σ (List α) :=
  placesFrom make 0 count

/-- So many values. -/
def times (count : Nat) (make : Generator σ α) : Generator σ (List α) :=
  places count fun _ => make

/-- A place below the bound that has not been taken, drawn at most the given number of
times. -/
def freshWithin (bound : Nat) (taken : List Nat) : Nat → Generator σ Nat
  | 0 => return 0
  | fuel + 1 => do
    let i ← below bound
    if taken.contains i then
      freshWithin bound taken fuel
    else
      return i

/-- So many values of a list at different places, drawn anew when a place was taken. -/
def sampleAnew (xs : List α) (taken : List Nat) : Nat → Generator σ (List α)
  | 0 => return []
  | count + 1 => do
    let i ← freshWithin xs.length taken 1000
    let rest ← sampleAnew xs (i :: taken) count
    return xs[i]?.toList ++ rest

/-- A list without the element at a place, where the last element takes its place. -/
def takeOut (xs : List α) (i : Nat) : List α :=
  match xs.getLast? with
  | some last => (xs.set i last).dropLast
  | none => []

/-- So many values of a list, each taken out of the list when it is drawn. -/
def samplePool : List α → Nat → Generator σ (List α)
  | _, 0 => return []
  | xs, count + 1 => do
    let i ← below xs.length
    let rest ← samplePool (takeOut xs i) count
    return xs[i]?.toList ++ rest

/-- So many values of a list at different places, at most three.  Short lists are drawn from
as a pool. -/
def sample (xs : List α) (count : Nat) : Generator σ (List α) :=
  if xs.length ≤ 21 then samplePool xs count else sampleAnew xs [] count

end Generator

end Proto2

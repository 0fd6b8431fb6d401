import Mathlib.Data.Nat.Digits.Defs
import Proto2.Literal.StringBody
import Proto2.Proofs.Number.Numeral

/-!
Positional notation.

A digit is a character that stands at a place in the row of digits, which is written with small or
with capital letters, and a row of digits denotes the sum of its digits by weight.  What the readers
of numerals and of escapes compute from a row of digits is that number.
-/

namespace Proto2.Numeral

/-- The character is the digit of the value, in either case. -/
def IsDigit (value : Nat) (c : Char) : Prop :=
  "0123456789abcdef".toList[value]? = some c ∨ "0123456789ABCDEF".toList[value]? = some c

instance (value : Nat) (c : Char) : Decidable (IsDigit value c) :=
  inferInstanceAs (Decidable (_ ∨ _))

/-- One or more digits of the base denote the number, the last one weighing least. -/
def Denotes (base : Nat) (digits : List Char) (n : Nat) : Prop :=
  digits ≠ [] ∧ ∃ values,
    List.Forall₂ (fun value c => value < base ∧ IsDigit value c) values digits ∧
      n = Nat.ofDigits base values.reverse

/-! ### Single digits -/

/-- What is checked for each of the characters and its place holds of every digit. -/
theorem forall_isDigit {p : Nat → Char → Prop}
    (check : ∀ d ∈ "0123456789abcdef".toList.zipIdx ++ "0123456789ABCDEF".toList.zipIdx, p d.2 d.1)
    {value : Nat} {c : Char} (h : IsDigit value c) : p value c := by
  have hplace {row : List Char} (h : row[value]? = some c) : (c, value) ∈ row.zipIdx :=
    List.mem_zipIdx_iff_getElem?.mpr h
  exact check (c, value) (List.mem_append.mpr (h.imp hplace hplace))

theorem IsDigit.hexValue_eq {value : Nat} {c : Char} (h : IsDigit value c) :
    StringBody.hexValue c = value :=
  forall_isDigit (p := fun value c => StringBody.hexValue c = value) (by decide) h

theorem IsDigit.digitValue?_eq {base value : Nat} {c : Char} (h : IsDigit value c)
    (hbase : value < base) : digitValue? base c = some value := by
  have hvalue := forall_isDigit (p := fun value c =>
    (if 'a' ≤ c ∧ c ≤ 'z' then some (c.toNat - 'a'.toNat + 10)
      else if 'A' ≤ c ∧ c ≤ 'Z' then some (c.toNat - 'A'.toNat + 10)
      else Text.decimalDigit? c) = some value) (by decide) h
  simp only [digitValue?, hvalue]
  simp [Option.filter, hbase]

theorem isHexDigit_iff {c : Char} :
    Lexeme.isHexDigit c = true ↔ ∃ value < 16, IsDigit value c := by
  constructor
  · intro h
    let p : Char → Bool := fun c =>
      decide (StringBody.hexValue c < 16 ∧ IsDigit (StringBody.hexValue c) c)
    have hp : p c = true := Char.forall_isHexDigit (by decide) (by decide) (by decide) h
    exact ⟨_, of_decide_eq_true hp⟩
  · rintro ⟨value, -, h⟩
    exact forall_isDigit (p := fun _ c => Lexeme.isHexDigit c = true) (by decide) h

/-- The digits of a smaller base are a class of the hexadecimal ones. -/
theorem isDigitOf_iff {base : Nat} {p : Char → Bool}
    (hex : ∀ c, p c = true → Lexeme.isHexDigit c = true)
    (check : ∀ {value c}, IsDigit value c → (p c = true ↔ value < base)) {c : Char} :
    p c = true ↔ ∃ value < base, IsDigit value c := by
  constructor
  · intro h
    obtain ⟨value, -, hvalue⟩ := isHexDigit_iff.mp (hex c h)
    exact ⟨value, (check hvalue).mp h, hvalue⟩
  · rintro ⟨value, hlt, hvalue⟩
    exact (check hvalue).mpr hlt

theorem char_isDigit_iff {c : Char} : c.isDigit = true ↔ ∃ value < 10, IsDigit value c :=
  isDigitOf_iff (p := Char.isDigit) (fun c h => by simp [Lexeme.isHexDigit, h])
    (forall_isDigit (p := fun value c => c.isDigit = true ↔ value < 10) (by decide))

theorem isOctalDigit_iff {c : Char} :
    StringBody.isOctalDigit c = true ↔ ∃ value < 8, IsDigit value c := by
  refine isDigitOf_iff (p := StringBody.isOctalDigit) (fun c h => ?_)
    (forall_isDigit (p := fun value c => StringBody.isOctalDigit c = true ↔ value < 8)
      (by decide))
  simp only [StringBody.isOctalDigit, Bool.and_eq_true, decide_eq_true_eq] at h
  exact Char.forall_of_range 48 8 (by decide) h.1 (Nat.lt_succ_of_le h.2)

/-! ### Rows of digits -/

theorem ofDigits_eq (base : Nat) (values : List Nat) :
    ofDigits base values = Nat.ofDigits base values.reverse := by
  rw [Nat.ofDigits_eq_foldr, List.foldr_reverse, ofDigits]
  congr
  funext n d
  exact Nat.add_comm _ _

/-- A row of digits denotes a number in the base. -/
theorem exists_denotes {base : Nat} {digits : List Char} (some : digits ≠ [])
    (all : ∀ c ∈ digits, ∃ value < base, IsDigit value c) : ∃ n, Denotes base digits n := by
  suffices h : ∃ values,
      List.Forall₂ (fun value c => value < base ∧ IsDigit value c) values digits by
    obtain ⟨values, h⟩ := h
    exact ⟨_, some, values, h, rfl⟩
  clear some
  induction digits with
  | nil => exact ⟨[], .nil⟩
  | cons c cs ih =>
      obtain ⟨value, hvalue⟩ := all c (by simp)
      obtain ⟨values, h⟩ := ih fun d hd => all d (by simp [hd])
      exact ⟨value :: values, .cons hvalue h⟩

namespace Denotes

variable {base n : Nat} {digits : List Char}

theorem isDigit (h : Denotes base digits n) : ∀ c ∈ digits, ∃ value < base, IsDigit value c := by
  obtain ⟨-, values, hvalues, -⟩ := h
  induction hvalues with
  | nil => simp
  | cons hvalue _ ih => exact List.forall_mem_cons.mpr ⟨⟨_, hvalue⟩, ih⟩

theorem ofDigits_hexValue (h : Denotes base digits n) :
    ofDigits base (digits.map StringBody.hexValue) = n := by
  obtain ⟨-, values, hvalues, rfl⟩ := h
  rw [ofDigits_eq]
  congr
  induction hvalues with
  | nil => rfl
  | cons hvalue _ ih => rw [List.map_cons, hvalue.2.hexValue_eq, ih]

theorem ofDigits_digitValue? (h : Denotes base digits n) :
    ofDigits base (digits.filterMap (digitValue? base)) = n := by
  obtain ⟨-, values, hvalues, rfl⟩ := h
  rw [ofDigits_eq]
  congr
  induction hvalues with
  | nil => rfl
  | cons hvalue _ ih => rw [List.filterMap_cons_some (hvalue.2.digitValue?_eq hvalue.1), ih]

/-- A row of digits denotes one number. -/
theorem unique {m : Nat} (h : Denotes base digits n) (h' : Denotes base digits m) : n = m := by
  rw [← h.ofDigits_hexValue, h'.ofDigits_hexValue]

end Denotes

end Proto2.Numeral

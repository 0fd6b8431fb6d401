import Mathlib.Data.List.TakeWhile
import Proto2.Number.Numeral
import Proto2.Token.Lexeme

/-!
Numerals of digits alone.

Between digits there are no underscores, blanks or signs, so reading such a numeral comes down
to the value of its digits.
-/

namespace Proto2

/-- A property of characters in a range of code points, by a check of each of them. -/
theorem Char.forall_of_range {p : Char → Bool} (first count : Nat)
    (check : ∀ n < count, p (Char.ofNat (first + n)) = true) {c : Char}
    (lower : first ≤ c.toNat) (upper : c.toNat < first + count) : p c = true := by
  have h := check (c.toNat - first) (by omega)
  rwa [show first + (c.toNat - first) = c.toNat by omega, Char.ofNat_toNat] at h

/-- A property of the decimal digits. -/
theorem Char.forall_isDigit {p : Char → Bool} (check : ∀ n < 10, p (Char.ofNat (48 + n)) = true)
    {c : Char} (h : c.isDigit = true) : p c = true := by
  simp only [Char.isDigit, Bool.and_eq_true, decide_eq_true_eq] at h
  exact forall_of_range 48 10 check h.1 (Nat.lt_succ_of_le h.2)

/-- A property of the hexadecimal digits. -/
theorem Char.forall_isHexDigit {p : Char → Bool} (digits : ∀ n < 10, p (Char.ofNat (48 + n)) = true)
    (small : ∀ n < 6, p (Char.ofNat (97 + n)) = true)
    (capital : ∀ n < 6, p (Char.ofNat (65 + n)) = true) {c : Char}
    (h : Lexeme.isHexDigit c = true) : p c = true := by
  simp only [Lexeme.isHexDigit, Bool.or_eq_true, Bool.and_eq_true, decide_eq_true_eq] at h
  rcases h with (h | h) | h
  · exact forall_isDigit digits h
  · exact forall_of_range 97 6 small h.1 (Nat.lt_succ_of_le h.2)
  · exact forall_of_range 65 6 capital h.1 (Nat.lt_succ_of_le h.2)

namespace Numeral

/-- A digit of a base that is nothing else to the reader of numerals. -/
def isPlainDigit (base : Nat) (c : Char) : Bool :=
  (digitValue? base c).isSome && !isSpace c && c != '_' && c != '-' && c != '+' && c != 'x' &&
    c != 'X'

theorem isPlainDigit_ten {c : Char} (h : c.isDigit = true) : isPlainDigit 10 c = true :=
  Char.forall_isDigit (by decide) h

theorem isPlainDigit_sixteen {c : Char} (h : Lexeme.isHexDigit c = true) :
    isPlainDigit 16 c = true :=
  Char.forall_isHexDigit (by decide) (by decide) (by decide) h

theorem underscoresSeparate_of_ne {cs : List Char} (h : ∀ c ∈ cs, c ≠ '_') :
    underscoresSeparate cs = true := by
  fun_induction underscoresSeparate cs with
  | case1 => rfl
  | case2 => simp at h
  | case3 => simp at h
  | case4 => simp at h
  | case5 _ _ _ _ _ ih => exact ih fun c hc => h c (by simp [hc])

theorem filterMap_length {α β : Type} {f : α → Option β} {l : List α}
    (h : ∀ a ∈ l, (f a).isSome) : (l.filterMap f).length = l.length := by
  induction l with
  | nil => rfl
  | cons a l ih =>
      obtain ⟨b, hb⟩ := Option.isSome_iff_exists.mp (h a (by simp))
      simp [hb, ih fun a ha => h a (by simp [ha])]

/-- A numeral of plain digits is read, unless there are too many of them. -/
theorem read_of_isPlainDigit {base : Nat} {digits : List Char} (hsome : digits ≠ [])
    (all : ∀ c ∈ digits, isPlainDigit base c = true) :
    read base digits =
      if base = 10 ∧ digitLimit < digits.length then .error (.tooManyDigits digits.length)
      else .ok (ofDigits base (digits.filterMap (digitValue? base)) : Nat) := by
  simp only [isPlainDigit, Bool.and_eq_true, Bool.not_eq_true', bne_iff_ne] at all
  obtain ⟨d, ds, rfl⟩ := List.exists_cons_of_ne_nil hsome
  have hd := all d (by simp)
  have hspace : (d :: ds).dropWhile isSpace = d :: ds := by simp [hd]
  have hsign : splitSign (d :: ds) = (false, d :: ds) := by
    unfold splitSign
    split <;> simp_all
  have hmark : dropHexMark (d :: ds) = d :: ds := by
    unfold dropHexMark
    split
    · rename_i z x cs heq
      cases heq
      have hx := all x (by simp)
      simp [hx]
    · rfl
  have hrun : (d :: ds).takeWhile (fun c => c = '_' || (digitValue? base c).isSome) = d :: ds := by
    rw [List.takeWhile_eq_self_iff]
    intro c hc
    simp [all c hc]
  have hlen : ((d :: ds).filterMap (digitValue? base)).length = (d :: ds).length :=
    filterMap_length fun c hc => by simp [all c hc]
  have hunder : underscoresSeparate (d :: ds) = true :=
    underscoresSeparate_of_ne fun c hc => by simp [all c hc]
  have hempty : ((d :: ds).filterMap (digitValue? base)).isEmpty = false := by
    rw [List.isEmpty_eq_false_iff, ← List.length_pos_iff, hlen]
    simp
  simp only [read, hspace, hsign, hmark, ite_self, hrun, hunder, hlen, hempty, List.drop_length,
    List.all_nil, signed]
  simp

end Numeral

end Proto2

import Proto2.Corpus.Words
import Proto2.Proofs.Corpus.Yields
import Proto2.Proofs.Number.Text
import Proto2.Proofs.Setting.Legible

/-!
The words of random schemas.

Identifiers have the form of identifiers, also in capitals, and names are qualified names.  The
literals among the values are each one token that denotes something.
-/

namespace Proto2.Corpus

open Generator (Yields)

variable {σ : Type} {d : DrawSource σ}

theorem yields_pick {cs : List Char} (some : cs ≠ []) : Yields d (pick cs) (· ∈ cs) := by
  cases cs with
  | nil => exact absurd rfl some
  | cons c cs => exact .oneOf fun _ h => h

/-! ### Identifiers -/

theorem isIdentifierStart_of_mem {c : Char} (h : c ∈ letters ++ ['_']) :
    Lexeme.isIdentifierStart c = true := by
  have hall : (letters ++ ['_']).all Lexeme.isIdentifierStart = true := by decide +kernel
  exact List.all_eq_true.mp hall c h

theorem isIdentifierPart_of_mem {c : Char} (h : c ∈ letters ++ digits ++ ['_']) :
    Lexeme.isIdentifierPart c = true := by
  have hall : (letters ++ digits ++ ['_']).all Lexeme.isIdentifierPart = true := by decide +kernel
  exact List.all_eq_true.mp hall c h

theorem identifierForm_of_parts {cs : Line} (start : Lexeme.isIdentifierStart (cs.headD ' ') = true)
    (parts : cs.tail.all Lexeme.isIdentifierPart = true) : Lexeme.IdentifierForm cs := by
  cases cs with
  | nil => cases start
  | cons c cs => exact ⟨c, cs, rfl, start, by simpa using parts⟩

/-- An identifier has the form of one, also with the underscore that keeps it from being a
keyword. -/
theorem yields_identifier : Yields d identifier Lexeme.IdentifierForm := by
  refine .bind (yields_pick (by simp)) fun head hhead => .bind (.any _) fun count _ =>
    .bind (.times (yields_pick (by simp)) count) fun tail htail => .pure ?_
  have hstart := isIdentifierStart_of_mem hhead
  have hparts : ∀ c ∈ tail, Lexeme.isIdentifierPart c = true :=
    fun c hc => isIdentifierPart_of_mem (htail.2 c hc)
  split
  · refine ⟨head, tail ++ ['_'], rfl, hstart, ?_⟩
    simpa [or_imp, forall_and] using ⟨hparts, rfl⟩
  · exact ⟨head, tail, rfl, hstart, hparts⟩

/-! ### Capitals -/

theorem isLower_iff {c : Char} : c.isLower = true ↔ c.val ≥ 'a'.val ∧ c.val ≤ 'z'.val :=
  Bool.and_eq_true_iff.trans (and_congr decide_eq_true_iff decide_eq_true_iff)

/-- A property of capitals: small letters get it, and other characters have it as they are. -/
theorem forall_toUpper {p : Char → Bool} {c : Char}
    (small : ∀ n < 26, p (Char.ofNat (97 + n)).toUpper = true)
    (other : c.isLower = false → p c = true) : p c.toUpper = true := by
  cases h : c.isLower with
  | true =>
      obtain ⟨hleast, hgreatest⟩ := isLower_iff.mp h
      exact Char.forall_of_range (p := fun c => p c.toUpper) 97 26 small hleast
        (Nat.lt_succ_of_le hgreatest)
  | false =>
      have hupper : c.toUpper = c := dif_neg fun hsmall => by
        rw [isLower_iff.mpr hsmall] at h
        cases h
      rw [hupper]
      exact other h

theorem isLower_toUpper (c : Char) : c.toUpper.isLower = false := by
  have hnot : (!c.toUpper.isLower) = true :=
    forall_toUpper (p := fun c => !c.isLower) (by decide) (by simp)
  exact (Bool.not_eq_true' _).mp hnot

theorem identifierForm_capitals {cs : Line} (h : Lexeme.IdentifierForm cs) :
    Lexeme.IdentifierForm (capitals cs) := by
  obtain ⟨c, rest, rfl, hc, hrest⟩ := h
  refine ⟨c.toUpper, capitals rest, rfl, forall_toUpper (by decide) fun _ => hc, fun e he => ?_⟩
  obtain ⟨b, hb, rfl⟩ := List.mem_map.mp he
  exact forall_toUpper (by decide) fun _ => hrest b hb

/-- No capital is a small letter. -/
theorem not_mem_capitals (cs : Line) {c : Char} (small : c.isLower = true) : c ∉ capitals cs := by
  intro h
  obtain ⟨b, -, rfl⟩ := List.mem_map.mp h
  rw [isLower_toUpper] at small
  cases small

/-! ### Names -/

theorem isName_joined {parts : List Line} (some : parts ≠ [])
    (h : ∀ part ∈ parts, Lexeme.IdentifierForm part) :
    IsName (String.ofList (Text.joined ['.'] parts)) := by
  obtain ⟨first, rest, rfl⟩ := List.exists_cons_of_ne_nil some
  refine ⟨String.ofList first, rest.map String.ofList, ?_, .inl ?_⟩
  · rw [← List.map_cons]
    intro part hpart
    obtain ⟨cs, hcs, rfl⟩ := List.mem_map.mp hpart
    rw [String.toList_ofList]
    exact h cs hcs
  · simp [dotted, Text.joined]

theorem isName_of_form {cs : Line} (form : Lexeme.IdentifierForm cs) :
    IsName (String.ofList cs) := by
  have hname := isName_joined (List.cons_ne_nil cs []) (by simp [form])
  rwa [Text.joined, List.intercalate_singleton] at hname

theorem yields_dottedName (most : Nat) :
    Yields d (dottedName most) fun cs => IsName (String.ofList cs) := by
  refine .bind (.between_least 1 most) fun count hcount =>
    .bind (.times yields_identifier count) fun parts hparts => .pure (isName_joined ?_ hparts.2)
  rintro rfl
  simp at hparts
  omega

/-! ### Numbers -/

theorem yields_integer (inRange : d.InRange) :
    Yields d integer fun cs => ∃ n : Int, cs = Numeral.text n ∧ Numeral.isWritable n = true := by
  refine .bind (.below inRange (by decide)) fun n hn => .pure ?_
  split
  case isTrue h =>
    refine ⟨Int.negSucc (999 - n), ?_, Numeral.isWritable_of_natAbs_lt (by omega)⟩
    rw [Numeral.text, number, show 1000 - n = 999 - n + 1 by omega]
    rfl
  case isFalse h =>
    exact ⟨(n - 1000 : Nat), rfl, Numeral.isWritable_of_natAbs_lt (by omega)⟩

end Proto2.Corpus

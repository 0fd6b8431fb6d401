import Proto2.Proofs.Literal.Integer
import Proto2.Proofs.Literal.StringBody
import Proto2.Proofs.Number.Shortest
import Proto2.Proofs.Token.Lexeme

/-!
Texts that are read as one token.

A text spells a token if a scan finds just that token, whatever stands behind it that may stand
there.  What may stand there depends on the kind alone: an identifier or a number must not go
on, and a dot must not be taken for the point of a number.
-/

namespace Proto2

/-- Whether a character may stand right behind a token of the kind. -/
def TokenKind.mayPrecede : TokenKind → Char → Bool
  | .identifier, c => !Lexeme.isIdentifierPart c
  | .integer, c | .float, c => !Lexeme.isIdentifierPart c && c != '.'
  | .dot, c => !c.isDigit
  | _, _ => true

namespace Lexeme

/-! ### Classes of characters -/

theorem isIdentifierPart_of_isDigit {c : Char} (h : c.isDigit = true) :
    isIdentifierPart c = true := by
  simp [isIdentifierPart, Char.isAlphanum, h]

theorem isDigit_eq_false {c : Char} (h : isIdentifierPart c = false) : c.isDigit = false := by
  rw [Bool.eq_false_iff]
  intro hc
  simp [isIdentifierPart_of_isDigit hc] at h

/-! ### Lengths of what is written -/

theorem runLength_append {p : Char → Bool} {run rest : List Char} (hrun : ∀ c ∈ run, p c = true)
    (hrest : ∀ c ∈ rest.head?, p c = false) : runLength p (run ++ rest) = run.length := by
  rw [runLength, Decimal.takeWhile_append_of_stop hrun hrest]

theorem runLength_eq_zero {p : Char → Bool} {rest : List Char}
    (hrest : ∀ c ∈ rest.head?, p c = false) : runLength p rest = 0 := by
  cases rest with
  | nil => rfl
  | cons c cs => simp [runLength, hrest c rfl]

/-- The texts of exponents: digits behind a letter and a sign. -/
def IsExponent (cs : List Char) : Prop :=
  ∃ sign digits, cs = 'e' :: sign :: digits ∧ (sign = '+' ∨ sign = '-') ∧ digits ≠ [] ∧
    ∀ c ∈ digits, c.isDigit = true

theorem exponentLength_append {exponent rest : List Char} (h : IsExponent exponent)
    (hrest : ∀ c ∈ rest.head?, c.isDigit = false) :
    exponentLength (exponent ++ rest) = exponent.length := by
  obtain ⟨sign, digits, rfl, hsign, hsome, hdigits⟩ := h
  have hlength : digits.length ≠ 0 := by simpa using hsome
  have hone : signLength (sign :: (digits ++ rest)) = 1 := by
    rcases hsign with rfl | rfl <;> rfl
  simp only [List.cons_append, exponentLength, true_or, if_true, hone, List.drop_succ_cons,
    List.drop_zero, runLength_append hdigits hrest, hlength, if_false, List.length_cons]
  omega

theorem exponentLength_eq_zero {rest : List Char}
    (hrest : ∀ c ∈ rest.head?, isIdentifierPart c = false) : exponentLength rest = 0 := by
  cases rest with
  | nil => rfl
  | cons c cs =>
      have hc := hrest c rfl
      rw [exponentLength, if_neg]
      rintro (rfl | rfl)
      · exact absurd hc (by decide)
      · exact absurd hc (by decide)

section Numbers

variable {sign : List Char} {d : Char} {ds rest : List Char} (hsign : sign = [] ∨ sign = ['-'])
  (hd : d.isDigit = true)

include hsign hd

theorem signLength_append : signLength (sign ++ d :: ds) = sign.length := by
  rcases hsign with rfl | rfl
  · unfold signLength
    split
    · rename_i heq
      cases heq
      exact absurd hd (by decide)
    · rename_i heq
      cases heq
      exact absurd hd (by decide)
    · rfl
  · rfl

/-- Where digits go on with anything but the mark, the number is not hexadecimal. -/
theorem hexadecimalLength_eq_zero (hds : ∀ c ∈ ds, c.isDigit = true)
    (hrest : ∀ c ∈ rest.head?, c ≠ 'x' ∧ c ≠ 'X') :
    hexadecimalLength (sign ++ d :: ds ++ rest) = 0 := by
  have hnext : ∀ c ∈ (ds ++ rest).head?, c ≠ 'x' ∧ c ≠ 'X' := by
    cases ds with
    | nil => exact hrest
    | cons c cs =>
        rintro _ ⟨⟩
        have hc := hds c (by simp)
        constructor
        · rintro rfl
          exact absurd hc (by decide)
        · rintro rfl
          exact absurd hc (by decide)
  simp only [List.append_assoc, List.cons_append, hexadecimalLength, signLength_append hsign hd,
    List.drop_left]
  split
  · rename_i x digits heq
    rw [List.cons.injEq] at heq
    rw [heq.2] at hnext
    simp [hnext x rfl]
  · rfl

theorem integerLength_append (hds : ∀ c ∈ ds, c.isDigit = true)
    (hrest : ∀ c ∈ rest.head?, c.isDigit = false) :
    integerLength (sign ++ d :: ds ++ rest) = (sign ++ d :: ds).length := by
  have hdigits : ∀ c ∈ d :: ds, c.isDigit = true := by simpa using ⟨hd, hds⟩
  have hrun := runLength_append hdigits hrest
  rw [List.cons_append] at hrun
  have hsome : (d :: ds).length ≠ 0 := by simp
  simp only [List.append_assoc, List.cons_append, integerLength, signLength_append hsign hd,
    List.drop_left, hrun, hsome, if_false, List.length_append]

/-- A number without a point or an exponent is no floating-point number. -/
theorem floatLength_eq_zero (hds : ∀ c ∈ ds, c.isDigit = true)
    (hrest : ∀ c ∈ rest.head?, isIdentifierPart c = false ∧ c ≠ '.') :
    floatLength (sign ++ d :: ds ++ rest) = 0 := by
  have hdigits : ∀ c ∈ d :: ds, c.isDigit = true := by simpa using ⟨hd, hds⟩
  have hrun := runLength_append hdigits fun c hc => isDigit_eq_false (hrest c hc).1
  rw [List.cons_append] at hrun
  have hdrop : (d :: (ds ++ rest)).drop (d :: ds).length = rest := by
    rw [← List.cons_append, List.drop_left]
  simp only [List.append_assoc, List.cons_append, floatLength, signLength_append hsign hd,
    List.drop_left, hrun, hdrop]
  split
  · exact absurd rfl (hrest '.' rfl).2
  · simp [exponentLength_eq_zero fun c hc => (hrest c hc).1]

/-- Digits, a point, digits and perhaps an exponent. -/
theorem floatLength_point {fraction exponent : List Char} (hds : ∀ c ∈ ds, c.isDigit = true)
    (hfraction : ∀ c ∈ fraction, c.isDigit = true) (hexponent : exponent = [] ∨ IsExponent exponent)
    (hrest : ∀ c ∈ rest.head?, isIdentifierPart c = false) :
    floatLength (sign ++ d :: ds ++ '.' :: (fraction ++ exponent) ++ rest) =
      (sign ++ d :: ds ++ '.' :: (fraction ++ exponent)).length := by
  have hdigits : ∀ c ∈ d :: ds, c.isDigit = true := by simpa using ⟨hd, hds⟩
  have hwhole : runLength Char.isDigit (d :: (ds ++ '.' :: (fraction ++ (exponent ++ rest)))) =
      (d :: ds).length := runLength_append hdigits (by simp)
  have hdrop : (d :: (ds ++ '.' :: (fraction ++ (exponent ++ rest)))).drop (d :: ds).length =
      '.' :: (fraction ++ (exponent ++ rest)) := List.drop_left
  have hstop : ∀ c ∈ (exponent ++ rest).head?, c.isDigit = false := by
    rcases hexponent with rfl | ⟨_, _, rfl, -⟩
    · exact fun c hc => isDigit_eq_false (hrest c hc)
    · simp
  have hlast : exponentLength (exponent ++ rest) = exponent.length := by
    rcases hexponent with rfl | h
    · exact exponentLength_eq_zero hrest
    · exact exponentLength_append h fun c hc => isDigit_eq_false (hrest c hc)
  simp only [List.append_assoc, List.cons_append, floatLength, signLength_append hsign hd,
    List.drop_left, hwhole, hdrop, runLength_append hfraction hstop, hlast]
  simp
  omega

/-- Digits and an exponent. -/
theorem floatLength_plain {exponent : List Char} (hds : ∀ c ∈ ds, c.isDigit = true)
    (hexponent : IsExponent exponent)
    (hrest : ∀ c ∈ rest.head?, isIdentifierPart c = false) :
    floatLength (sign ++ d :: ds ++ exponent ++ rest) = (sign ++ d :: ds ++ exponent).length := by
  have hlast := exponentLength_append hexponent fun c hc => isDigit_eq_false (hrest c hc)
  obtain ⟨mark, digits, rfl, -⟩ := hexponent
  have hdigits : ∀ c ∈ d :: ds, c.isDigit = true := by simpa using ⟨hd, hds⟩
  have hwhole : runLength Char.isDigit (d :: (ds ++ 'e' :: mark :: (digits ++ rest))) =
      (d :: ds).length := runLength_append hdigits (by simp)
  have hdrop : (d :: (ds ++ 'e' :: mark :: (digits ++ rest))).drop (d :: ds).length =
      'e' :: mark :: (digits ++ rest) := List.drop_left
  simp only [List.cons_append] at hlast
  simp only [List.append_assoc, List.cons_append, floatLength, signLength_append hsign hd,
    List.drop_left, hwhole, hdrop]
  split
  · rename_i heq
    simp at heq
  · rw [hlast]
    simp
    omega

end Numbers

/-! ### Texts that spell a token -/

/-- A text without newlines that a scan reads as one token, if what stands behind it may stand
there. -/
structure Spells (text : List Char) (kind : TokenKind) (lexeme : List Char) : Prop where
  start : ∃ c cs, text = c :: cs ∧ isSpace c = false ∧ c ≠ '/'
  oneLine : '\n' ∉ text
  scans : ∀ c cs rest, text = c :: cs → (∀ d ∈ rest.head?, kind.mayPrecede d = true) →
    scan c (cs ++ rest) = .ok ⟨kind, lexeme, text.length⟩

/-- A character that starts neither a gap nor a string literal. -/
def StartsPlain (c : Char) : Prop :=
  isSpace c = false ∧ c ≠ '/' ∧ c ≠ '"' ∧ c ≠ '\''

instance (c : Char) : Decidable (StartsPlain c) :=
  inferInstanceAs (Decidable (_ ∧ _))

/-- What is no string literal is read as the first form that fits. -/
theorem spells_of_plain? {c : Char} {cs : List Char} {kind : TokenKind} (start : StartsPlain c)
    (oneLine : '\n' ∉ c :: cs)
    (plain : ∀ rest : List Char, (∀ d ∈ rest.head?, kind.mayPrecede d = true) →
      plain? (c :: cs ++ rest) = some (kind, (c :: cs).length)) :
    Spells (c :: cs) kind (c :: cs) := by
  obtain ⟨hspace, hslash, hquote, hquote'⟩ := start
  refine ⟨⟨c, cs, rfl, hspace, hslash⟩, oneLine, ?_⟩
  rintro _ _ rest ⟨⟩ hrest
  have h := plain rest hrest
  rw [List.cons_append] at h
  rw [scan, if_neg (by simp [hquote, hquote']), h]
  simp only [Except.ok.injEq, Scanned.mk.injEq, true_and, and_true]
  rw [← List.cons_append, List.take_left]

/-! ### Identifiers and symbols -/

/-- A character at which no number starts, unless it is a point before digits. -/
def StartsNoNumber (c : Char) : Prop :=
  c ≠ '+' ∧ c ≠ '-' ∧ c.isDigit = false

instance (c : Char) : Decidable (StartsNoNumber c) :=
  inferInstanceAs (Decidable (_ ∧ _))

section NoNumber

variable {c : Char} (h : StartsNoNumber c) (cs : List Char)

include h

theorem signLength_of_startsNoNumber : signLength (c :: cs) = 0 := by
  unfold signLength
  split
  · rename_i heq
    cases heq
    exact absurd rfl h.1
  · rename_i heq
    cases heq
    exact absurd rfl h.2.1
  · rfl

theorem hexadecimalLength_of_startsNoNumber : hexadecimalLength (c :: cs) = 0 := by
  unfold hexadecimalLength
  simp only [signLength_of_startsNoNumber h, List.drop_zero]
  split
  · rename_i heq
    cases heq
    exact absurd h.2.2 (by decide)
  · rfl

theorem runLength_of_startsNoNumber : runLength Char.isDigit (c :: cs) = 0 :=
  runLength_eq_zero (by simpa using h.2.2)

theorem floatLength_of_startsNoNumber
    (hpoint : c = '.' → ∀ d ∈ cs.head?, d.isDigit = false) : floatLength (c :: cs) = 0 := by
  unfold floatLength
  simp only [signLength_of_startsNoNumber h, List.drop_zero, runLength_of_startsNoNumber h]
  split
  · rename_i heq
    cases heq
    simp [runLength_eq_zero (hpoint rfl)]
  · simp

theorem integerLength_of_startsNoNumber : integerLength (c :: cs) = 0 := by
  simp only [integerLength, signLength_of_startsNoNumber h, List.drop_zero,
    runLength_of_startsNoNumber h, if_true]

end NoNumber

theorem startsPlain_of_isIdentifierStart {c : Char} (h : isIdentifierStart c = true) :
    StartsPlain c ∧ StartsNoNumber c ∧ c ≠ '.' ∧ c ≠ '\n' := by
  let p : Char → Bool := fun c => StartsPlain c ∧ StartsNoNumber c ∧ c ≠ '.' ∧ c ≠ '\n'
  suffices hp : p c = true from of_decide_eq_true hp
  have hletter : c.isAlpha = (decide (65 ≤ c.val ∧ c.val ≤ 90) ||
      (decide (97 ≤ c.val) && decide (c.val ≤ 122))) := rfl
  simp only [isIdentifierStart, hletter, Bool.or_eq_true, Bool.and_eq_true, decide_eq_true_eq,
    beq_iff_eq] at h
  rcases h with (h | h) | rfl
  · exact Char.forall_of_range 65 26 (by decide) h.1 (Nat.lt_succ_of_le h.2)
  · exact Char.forall_of_range 97 26 (by decide) h.1 (Nat.lt_succ_of_le h.2)
  · decide

theorem ne_newline_of_isIdentifierPart {c : Char} (h : isIdentifierPart c = true) :
    c ≠ '\n' := by
  rintro rfl
  revert h
  decide

theorem IdentifierForm.spells {text : List Char} (h : IdentifierForm text) :
    Spells text .identifier text := by
  obtain ⟨c, cs, rfl, hc, hcs⟩ := h
  obtain ⟨hplain, hnumber, hpoint, hnewline⟩ := startsPlain_of_isIdentifierStart hc
  apply spells_of_plain? hplain
  · intro hmem
    rcases List.mem_cons.mp hmem with heq | hmem
    · exact hnewline heq.symm
    · exact ne_newline_of_isIdentifierPart (hcs _ hmem) rfl
  · intro rest hrest
    have hrun : runLength isIdentifierPart (cs ++ rest) = cs.length :=
      runLength_append hcs fun d hd => by simpa [TokenKind.mayPrecede] using hrest d hd
    simp [plain?, hexadecimalLength_of_startsNoNumber hnumber,
      floatLength_of_startsNoNumber hnumber _ (absurd · hpoint), integerLength_of_startsNoNumber hnumber,
      identifierLength, hc, hrun, Nat.add_comm]

theorem startsPlain_of_ofSymbol? {c : Char} {kind : TokenKind}
    (h : TokenKind.ofSymbol? c = some kind) :
    StartsPlain c ∧ StartsNoNumber c ∧ isIdentifierStart c = false ∧ c ≠ '\n' ∧
      (c = '.' → kind = .dot) := by
  unfold TokenKind.ofSymbol? at h
  split at h <;> cases h <;> decide

/-- A symbol may stand behind any token, the dot apart. -/
theorem mayPrecede_of_ofSymbol? {c : Char} {kind : TokenKind}
    (h : TokenKind.ofSymbol? c = some kind) (other : kind ≠ .dot) (before : TokenKind) :
    before.mayPrecede c = true := by
  unfold TokenKind.ofSymbol? at h
  split at h <;> cases h
  case h_9 => exact absurd rfl other
  all_goals cases before <;> rfl

theorem spells_symbol {c : Char} {kind : TokenKind} (h : TokenKind.ofSymbol? c = some kind) :
    Spells [c] kind [c] := by
  obtain ⟨hplain, hnumber, hstart, hnewline, hpoint⟩ := startsPlain_of_ofSymbol? h
  apply spells_of_plain? hplain
  · simpa using hnewline.symm
  · intro rest hrest
    have hdigit : c = '.' → ∀ d ∈ rest.head?, d.isDigit = false := by
      intro hc d hd
      have := hrest d hd
      rw [hpoint hc] at this
      simpa [TokenKind.mayPrecede] using this
    simp [plain?, hexadecimalLength_of_startsNoNumber hnumber,
      floatLength_of_startsNoNumber hnumber _ hdigit, integerLength_of_startsNoNumber hnumber,
      identifierLength, hstart, h]

/-! ### Numbers and strings -/

theorem startsPlain_of_isDigit {c : Char} (h : c.isDigit = true) :
    StartsPlain c ∧ c ≠ '\n' := by
  let p : Char → Bool := fun c => StartsPlain c ∧ c ≠ '\n'
  suffices hp : p c = true from of_decide_eq_true hp
  exact Char.forall_isDigit (by decide) h

section Numbers

variable {sign : List Char} {d : Char} {ds : List Char} (hsign : sign = [] ∨ sign = ['-'])
  (hd : d.isDigit = true)

include hsign hd

/-- A text that starts like a number and is read as one spells it. -/
theorem spells_number {kind : TokenKind} (oneLine : '\n' ∉ ds)
    (plain : ∀ rest : List Char, (∀ d ∈ rest.head?, kind.mayPrecede d = true) →
      plain? (sign ++ d :: ds ++ rest) = some (kind, (sign ++ d :: ds).length)) :
    Spells (sign ++ d :: ds) kind (sign ++ d :: ds) := by
  obtain ⟨hplain, hnewline⟩ := startsPlain_of_isDigit hd
  have hline : '\n' ∉ d :: ds := by simpa using ⟨hnewline.symm, oneLine⟩
  rcases hsign with rfl | rfl
  · exact spells_of_plain? hplain hline plain
  · exact spells_of_plain? (by decide) (by simpa using hline) plain

theorem spells_digits (hds : ∀ c ∈ ds, c.isDigit = true) :
    Spells (sign ++ d :: ds) .integer (sign ++ d :: ds) := by
  apply spells_number hsign hd
  · intro hmem
    exact absurd (hds _ hmem) (by decide)
  · intro rest hrest
    have hstop : ∀ c ∈ rest.head?, isIdentifierPart c = false ∧ c ≠ '.' := fun c hc => by
      simpa [TokenKind.mayPrecede] using hrest c hc
    have hmark : ∀ c ∈ rest.head?, c ≠ 'x' ∧ c ≠ 'X' := by
      intro c hc
      have hpart := (hstop c hc).1
      constructor
      · rintro rfl
        exact absurd hpart (by decide)
      · rintro rfl
        exact absurd hpart (by decide)
    have hint := integerLength_append hsign hd hds fun c hc => isDigit_eq_false (hstop c hc).1
    rw [plain?, hexadecimalLength_eq_zero hsign hd hds hmark,
      floatLength_eq_zero hsign hd hds hstop, hint]
    simp

/-- A text that goes on behind its digits with a point or an exponent and is taken as a whole. -/
theorem spells_float {tail : List Char} (hds : ∀ c ∈ ds, c.isDigit = true)
    (htail : tail.head? = some '.' ∨ tail.head? = some 'e') (oneLine : '\n' ∉ tail)
    (hlength : ∀ rest : List Char, (∀ c ∈ rest.head?, isIdentifierPart c = false) →
      floatLength (sign ++ d :: ds ++ tail ++ rest) = (sign ++ d :: ds ++ tail).length) :
    Spells (sign ++ d :: ds ++ tail) .float (sign ++ d :: ds ++ tail) := by
  have hline : '\n' ∉ ds ++ tail := by
    intro hmem
    rcases List.mem_append.mp hmem with hmem | hmem
    · exact absurd (hds _ hmem) (by decide)
    · exact oneLine hmem
  have hspells := @spells_number sign d (ds ++ tail) hsign hd .float hline
  rw [← List.cons_append, ← List.append_assoc] at hspells
  apply hspells
  intro rest hrest
  have hstop : ∀ c ∈ rest.head?, isIdentifierPart c = false := fun c hc => by
    have := hrest c hc
    simp only [TokenKind.mayPrecede, Bool.and_eq_true, Bool.not_eq_true'] at this
    exact this.1
  have hmark : ∀ c ∈ (tail ++ rest).head?, c ≠ 'x' ∧ c ≠ 'X' := by
    intro c hc
    rw [List.head?_append] at hc
    rcases htail with htail | htail
    · rw [htail] at hc
      cases hc
      decide
    · rw [htail] at hc
      cases hc
      decide
  have hhex := hexadecimalLength_eq_zero hsign hd hds hmark
  rw [← List.append_assoc] at hhex
  rw [plain?, hhex, hlength rest hstop]
  simp

end Numbers

theorem not_newline_of_isExponent {exponent : List Char} (h : IsExponent exponent) :
    '\n' ∉ exponent := by
  obtain ⟨sign, digits, rfl, hsign, -, hdigits⟩ := h
  have hnot : '\n' ∉ digits := fun hmem => absurd (hdigits _ hmem) (by decide)
  rcases hsign with rfl | rfl
  · simpa using hnot
  · simpa using hnot

section Layouts

variable {sign : List Char} {d : Char} {ds : List Char} (hsign : sign = [] ∨ sign = ['-'])
  (hd : d.isDigit = true) (hds : ∀ c ∈ ds, c.isDigit = true)

include hsign hd hds

theorem spells_point {fraction exponent : List Char} (hfraction : ∀ c ∈ fraction, c.isDigit = true)
    (hexponent : exponent = [] ∨ IsExponent exponent) :
    Spells (sign ++ d :: ds ++ '.' :: (fraction ++ exponent)) .float
      (sign ++ d :: ds ++ '.' :: (fraction ++ exponent)) := by
  have hline : '\n' ∉ '.' :: (fraction ++ exponent) := by
    have hnot : '\n' ∉ fraction := fun hmem => absurd (hfraction _ hmem) (by decide)
    rcases hexponent with rfl | h
    · simpa using hnot
    · simpa using ⟨hnot, not_newline_of_isExponent h⟩
  exact spells_float hsign hd hds (.inl rfl) hline fun rest hrest =>
    floatLength_point hsign hd hds hfraction hexponent hrest

theorem spells_exponent {exponent : List Char} (hexponent : IsExponent exponent) :
    Spells (sign ++ d :: ds ++ exponent) .float (sign ++ d :: ds ++ exponent) := by
  have hhead : exponent.head? = some 'e' := by
    obtain ⟨_, _, rfl, -⟩ := hexponent
    rfl
  exact spells_float hsign hd hds (.inr hhead) (not_newline_of_isExponent hexponent)
    fun rest hrest => floatLength_plain hsign hd hds hexponent hrest

end Layouts

/-! ### Strings -/

theorem spells_quotation {body : List Char} (oneLine : '\n' ∉ body)
    (closed : ∀ rest, quotation '"' (body ++ '"' :: rest) = .closed body) :
    Spells ('"' :: body ++ ['"']) .string body := by
  refine ⟨⟨'"', body ++ ['"'], rfl, by decide⟩, by simpa using oneLine, ?_⟩
  intro c cs rest heq _
  obtain ⟨rfl, rfl⟩ : '"' = c ∧ body ++ ['"'] = cs := by simpa using heq
  rw [List.append_assoc, scan, if_pos (.inl rfl), List.singleton_append, closed rest]
  simp

theorem quotation_encodeChar (c : Char) (cs : List Char) :
    quotation '"' (StringBody.encodeChar c ++ cs) =
      (quotation '"' cs).push (StringBody.encodeChar c) := by
  unfold StringBody.encodeChar
  split
  · simp [quotation]
  split
  · simp [quotation]
  split
  · simp [quotation]
  split
  · simp [quotation]
  split
  · simp [quotation]
  · simp [quotation, *]

theorem quotation_encode (cs rest : List Char) :
    quotation '"' (StringBody.encode cs ++ '"' :: rest) = .closed (StringBody.encode cs) := by
  induction cs with
  | nil => simp [quotation]
  | cons c cs ih =>
      rw [StringBody.encode_cons, List.append_assoc, quotation_encodeChar, ih, Quotation.push]

theorem not_newline_encodeChar (c : Char) : '\n' ∉ StringBody.encodeChar c := by
  unfold StringBody.encodeChar
  repeat' split
  all_goals simp [eq_comm, *]

/-- A text between double quotes, with escapes. -/
theorem spells_encode (cs : List Char) :
    Spells ('"' :: StringBody.encode cs ++ ['"']) .string (StringBody.encode cs) := by
  apply spells_quotation
  · rw [StringBody.encode, List.mem_flatMap]
    rintro ⟨c, -, hc⟩
    exact not_newline_encodeChar c hc
  · exact quotation_encode cs

end Lexeme

namespace StringBody

theorem decode_encodeChar (c : Char) (cs : List Char) :
    decode (encodeChar c ++ cs) = (decode cs).map (c :: ·) := by
  unfold encodeChar
  split
  · simp [decode, escape, simpleEscape?, *]
  split
  · simp [decode, escape, simpleEscape?, *]
  split
  · simp [decode, escape, simpleEscape?, *]
  split
  · simp [decode, escape, simpleEscape?, *]
  split
  · simp [decode, escape, simpleEscape?, *]
  · simp [decode, *]

/-- What is written in a body is what the body denotes. -/
theorem decode_encode (cs : List Char) : decode (encode cs) = .ok cs := by
  induction cs with
  | nil => simp
  | cons c cs ih => rw [encode_cons, decode_encodeChar, ih, Except.map]

end StringBody

end Proto2

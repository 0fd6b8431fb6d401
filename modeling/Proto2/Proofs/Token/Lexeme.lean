import Proto2.Token.Lexeme

/-!
The shapes of lexemes.
-/

namespace Proto2.Lexeme

/-- Nothing or a sign. -/
def IsSign (cs : List Char) : Prop :=
  cs = [] ∨ cs = ['+'] ∨ cs = ['-']

/-- Integer lexemes: decimal or hexadecimal, with a sign or without. -/
inductive IntegerForm : List Char → Prop
  | decimal {sign digits : List Char} (isSign : IsSign sign) (some : digits ≠ [])
      (all : digits.all Char.isDigit) : IntegerForm (sign ++ digits)
  | hexadecimal {sign digits : List Char} {x : Char} (isSign : IsSign sign)
      (mark : x = 'x' ∨ x = 'X') (some : digits ≠ []) (all : digits.all isHexDigit) :
      IntegerForm (sign ++ '0' :: x :: digits)

theorem isSign_take (cs : List Char) : IsSign (cs.take (signLength cs)) := by
  unfold signLength IsSign
  split <;> simp

theorem take_runLength (p : Char → Bool) (cs : List Char) :
    cs.take (runLength p cs) = cs.takeWhile p :=
  (List.prefix_iff_eq_take.mp (List.takeWhile_prefix p)).symm

theorem runLength_ne_zero {p : Char → Bool} {cs : List Char} (h : runLength p cs ≠ 0) :
    cs.takeWhile p ≠ [] := by
  intro hnil
  simp [runLength, hnil] at h

theorem integerForm_of_hexadecimalLength {cs : List Char} (h : 0 < hexadecimalLength cs) :
    IntegerForm (cs.take (hexadecimalLength cs)) := by
  unfold hexadecimalLength at h ⊢
  dsimp only at h ⊢
  split at h
  case h_2 => cases h
  case h_1 x digits heq =>
    split at h
    case isFalse => cases h
    case isTrue mark =>
      split at h
      case isTrue => cases h
      case isFalse hrun =>
        rw [if_pos mark, if_neg hrun, Nat.add_assoc, List.take_add, heq, Nat.add_comm 2]
        simp only [List.take_succ_cons, take_runLength]
        exact .hexadecimal (isSign_take cs) mark (runLength_ne_zero hrun) (by simp)

theorem integerForm_of_integerLength {cs : List Char} (h : 0 < integerLength cs) :
    IntegerForm (cs.take (integerLength cs)) := by
  unfold integerLength at h ⊢
  dsimp only at h ⊢
  split at h
  case isTrue => cases h
  case isFalse hrun =>
    rw [if_neg hrun, List.take_add, take_runLength]
    exact .decimal (isSign_take cs) (runLength_ne_zero hrun) (by simp)

/-- Identifiers: a letter or underscore, then those and digits. -/
def IdentifierForm (cs : List Char) : Prop :=
  ∃ c rest, cs = c :: rest ∧ isIdentifierStart c = true ∧ ∀ d ∈ rest, isIdentifierPart d = true

theorem identifierForm_of_identifierLength {cs : List Char} (h : 0 < identifierLength cs) :
    IdentifierForm (cs.take (identifierLength cs)) := by
  cases cs with
  | nil => cases h
  | cons c cs =>
      simp only [identifierLength] at h ⊢
      split at h
      case isFalse => cases h
      case isTrue hstart =>
        rw [if_pos hstart, Nat.add_comm, List.take_succ_cons, take_runLength]
        exact ⟨c, _, rfl, hstart, fun d hd => List.all_eq_true.mp List.all_takeWhile d hd⟩

/-- What is no string literal is a number, an identifier or a symbol, of the length of the
longest such text. -/
theorem plain?_cases {cs : List Char} {kind : TokenKind} {n : Nat}
    (h : plain? cs = some (kind, n)) :
    (kind = .integer ∧ IntegerForm (cs.take n)) ∨ kind = .float ∨
      (kind = .identifier ∧ IdentifierForm (cs.take n)) ∨
      ∃ c ∈ cs.head?, TokenKind.ofSymbol? c = some kind := by
  unfold plain? at h
  split at h
  case isTrue hhex =>
    cases h
    exact .inl ⟨rfl, integerForm_of_hexadecimalLength hhex⟩
  split at h
  case isTrue =>
    cases h
    exact .inr (.inl rfl)
  split at h
  case isTrue hint =>
    cases h
    exact .inl ⟨rfl, integerForm_of_integerLength hint⟩
  split at h
  case isTrue hident =>
    cases h
    exact .inr (.inr (.inl ⟨rfl, identifierForm_of_identifierLength hident⟩))
  obtain ⟨k, hk, heq⟩ := Option.map_eq_some_iff.mp h
  cases heq
  obtain ⟨c, hc, hsymbol⟩ := Option.bind_eq_some_iff.mp hk
  exact .inr (.inr (.inr ⟨c, hc, hsymbol⟩))

theorem ofSymbol?_kind {c : Char} {kind : TokenKind} (h : TokenKind.ofSymbol? c = some kind) :
    kind ∉ [TokenKind.identifier, .integer, .float, .string, .endOfInput] := by
  unfold TokenKind.ofSymbol? at h
  split at h <;> cases h <;> decide

/-- What a scan says about the kind and the lexeme it finds. -/
theorem scan_cases {c : Char} {cs : List Char} {s : Scanned} (h : scan c cs = .ok s) :
    s.kind ≠ .endOfInput ∧ (s.kind = .integer → IntegerForm s.lexeme) ∧
      (s.kind = .identifier → IdentifierForm s.lexeme) := by
  unfold scan at h
  split at h
  · split at h <;> cases h
    simp
  · split at h
    case h_2 => cases h
    case h_1 found =>
      cases h
      rcases plain?_cases found with ⟨rfl, hform⟩ | rfl | ⟨rfl, hform⟩ | ⟨d, -, hsymbol⟩
      · simpa using hform
      · simp
      · simpa using hform
      · have hkind := ofSymbol?_kind hsymbol
        simp only [List.mem_cons, List.not_mem_nil, or_false, not_or] at hkind
        simp [hkind]

end Proto2.Lexeme

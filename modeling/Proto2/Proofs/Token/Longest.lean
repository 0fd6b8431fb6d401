import Proto2.Proofs.Token.Blank

/-!
The longest lexemes.

The forms of tokens are described by what they are made of, without a word on how much of a text
is to be taken.  What is read at the start of a text is then the longest text of any of the forms.
The forms overlap at their beginnings only: a decimal integer may begin a hexadecimal one or a
floating-point number, and those are tried before it; a dot may begin a floating-point number,
which is tried before the symbols; and what begins as an identifier begins as nothing else.  No
text has the forms of two kinds.
-/

namespace Proto2.Lexeme

/-! ### Forms -/

/-- The exponents of floating-point numbers: digits behind `e` and an optional sign. -/
inductive ExponentForm : List Char → Prop
  | mk {e : Char} {sign digits : List Char} (mark : e = 'e' ∨ e = 'E') (isSign : IsSign sign)
      (some : digits ≠ []) (all : digits.all Char.isDigit) : ExponentForm (e :: (sign ++ digits))

/-- Floating-point lexemes: digits with a point, an exponent or both, with a sign or without. -/
inductive FloatForm : List Char → Prop
  | point {sign whole fraction exponent : List Char} (isSign : IsSign sign)
      (allWhole : whole.all Char.isDigit) (allFraction : fraction.all Char.isDigit)
      (some : whole ≠ [] ∨ fraction ≠ []) (last : exponent = [] ∨ ExponentForm exponent) :
      FloatForm (sign ++ (whole ++ '.' :: (fraction ++ exponent)))
  | plain {sign whole exponent : List Char} (isSign : IsSign sign) (some : whole ≠ [])
      (all : whole.all Char.isDigit) (last : ExponentForm exponent) :
      FloatForm (sign ++ (whole ++ exponent))

/-- The texts of tokens that are neither string literals nor the end of the input, by kind. -/
inductive IsLexeme : TokenKind → List Char → Prop
  | identifier {text : List Char} (form : IdentifierForm text) : IsLexeme .identifier text
  | integer {text : List Char} (form : IntegerForm text) : IsLexeme .integer text
  | float {text : List Char} (form : FloatForm text) : IsLexeme .float text
  | symbol {kind : TokenKind} {c : Char} (symbol : TokenKind.ofSymbol? c = some kind) :
      IsLexeme kind [c]

/-- At the start of a text stands a lexeme of the kind and of no other kind, and no longer lexeme
of any kind stands there. -/
structure IsLongest (cs : List Char) (kind : TokenKind) (text : List Char) : Prop where
  starts : text <+: cs
  isLexeme : IsLexeme kind text
  ofKind : ∀ other, IsLexeme other text → other = kind
  longest : ∀ other longer, longer <+: cs → IsLexeme other longer → longer.length ≤ text.length

/-! ### What is read has the form -/

theorem exponentForm_of_exponentLength {cs : List Char} (h : 0 < exponentLength cs) :
    ExponentForm (cs.take (exponentLength cs)) := by
  cases cs with
  | nil => cases h
  | cons e cs =>
      rw [exponentLength] at h ⊢
      dsimp only at h ⊢
      split at h
      case isFalse => cases h
      case isTrue mark =>
        split at h
        case isTrue => cases h
        case isFalse hrun =>
          rw [if_pos mark, if_neg hrun, Nat.add_assoc, Nat.add_comm 1, List.take_succ_cons,
            List.take_add, take_runLength]
          exact .mk mark (isSign_take cs) (runLength_ne_zero hrun) (by simp)

theorem exponentForm_take (cs : List Char) :
    cs.take (exponentLength cs) = [] ∨ ExponentForm (cs.take (exponentLength cs)) := by
  rcases Nat.eq_zero_or_pos (exponentLength cs) with hzero | hpos
  · exact .inl (by rw [hzero, List.take_zero])
  · exact .inr (exponentForm_of_exponentLength hpos)

theorem floatForm_of_floatLength {cs : List Char} (h : 0 < floatLength cs) :
    FloatForm (cs.take (floatLength cs)) := by
  unfold floatLength at h ⊢
  dsimp only at h ⊢
  generalize hbody : cs.drop (signLength cs) = body at h ⊢
  generalize hwhole : runLength Char.isDigit body = whole at h ⊢
  have htake : body.take whole = body.takeWhile Char.isDigit := by rw [← hwhole, take_runLength]
  have hsome : whole ≠ 0 → body.take whole ≠ [] := by
    intro hne
    rw [htake]
    exact runLength_ne_zero (hwhole ▸ hne)
  have hall : (body.take whole).all Char.isDigit = true := by
    rw [htake]
    exact List.all_takeWhile
  split at h
  case h_1 after heq =>
    split at h
    case isTrue => cases h
    case isFalse hbeside =>
      rw [if_neg hbeside]
      have hlength (n m : Nat) : signLength cs + whole + 1 + n + m =
          signLength cs + (whole + ((n + m) + 1)) := by omega
      rw [hlength, List.take_add, hbody, List.take_add, heq, List.take_succ_cons, List.take_add,
        take_runLength]
      refine .point (isSign_take cs) hall List.all_takeWhile ?_ (exponentForm_take _)
      by_cases hzero : whole = 0
      · exact .inr (runLength_ne_zero fun hfraction => hbeside ⟨hzero, hfraction⟩)
      · exact .inl (hsome hzero)
  case h_2 =>
    split at h
    case isTrue => cases h
    case isFalse hboth =>
      rw [not_or] at hboth
      rw [if_neg (not_or.mpr hboth), Nat.add_assoc, List.take_add, hbody, List.take_add]
      exact .plain (isSign_take cs) (hsome hboth.1) hall
        (exponentForm_of_exponentLength (Nat.pos_of_ne_zero hboth.2))

theorem isLexeme_of_plain? {cs : List Char} {kind : TokenKind} {n : Nat}
    (h : plain? cs = some (kind, n)) : IsLexeme kind (cs.take n) := by
  unfold plain? at h
  split at h
  case isTrue hhex =>
    cases h
    exact .integer (integerForm_of_hexadecimalLength hhex)
  split at h
  case isTrue hfloat =>
    cases h
    exact .float (floatForm_of_floatLength hfloat)
  split at h
  case isTrue hint =>
    cases h
    exact .integer (integerForm_of_integerLength hint)
  split at h
  case isTrue hident =>
    cases h
    exact .identifier (identifierForm_of_identifierLength hident)
  cases cs with
  | nil => cases h
  | cons c cs =>
      obtain ⟨_, hsymbol, heq⟩ := Option.map_eq_some_iff.mp h
      cases heq
      exact .symbol hsymbol

/-! ### What has the form is read -/

theorem length_le_runLength {p : Char → Bool} {run : List Char} (all : run.all p = true)
    (rest : List Char) : run.length ≤ runLength p (run ++ rest) := by
  rw [runLength, List.takeWhile_append_of_pos (List.all_eq_true.mp all), List.length_append]
  exact Nat.le_add_right _ _

theorem unsigned_of_isDigit {c : Char} (h : c.isDigit = true) : c ≠ '+' ∧ c ≠ '-' := by
  constructor
  · rintro rfl
    exact absurd h (by decide)
  · rintro rfl
    exact absurd h (by decide)

theorem unsigned_of_all {digits : List Char} (all : digits.all Char.isDigit = true)
    (some : digits ≠ []) (rest : List Char) :
    ∀ c ∈ (digits ++ rest).head?, c ≠ '+' ∧ c ≠ '-' := by
  cases digits with
  | nil => exact absurd rfl some
  | cons d ds =>
      rintro _ ⟨⟩
      exact unsigned_of_isDigit (List.all_eq_true.mp all d List.mem_cons_self)

theorem IsSign.signLength_append {sign cs : List Char} (isSign : IsSign sign)
    (unsigned : ∀ c ∈ cs.head?, c ≠ '+' ∧ c ≠ '-') : signLength (sign ++ cs) = sign.length := by
  rcases isSign with rfl | rfl | rfl
  · cases cs with
    | nil => rfl
    | cons c cs =>
        obtain ⟨hplus, hminus⟩ := unsigned c rfl
        simp [signLength, hplus, hminus]
  · rfl
  · rfl

theorem length_le_integerLength {sign digits : List Char} (isSign : IsSign sign)
    (some : digits ≠ []) (all : digits.all Char.isDigit = true) (rest : List Char) :
    (sign ++ digits).length ≤ integerLength (sign ++ digits ++ rest) := by
  have hrun := length_le_runLength all rest
  have hpos : 0 < digits.length := List.length_pos_iff.mpr some
  unfold integerLength
  dsimp only
  rw [List.append_assoc, isSign.signLength_append (unsigned_of_all all some rest), List.drop_left,
    if_neg (by omega), List.length_append]
  omega

theorem length_le_hexadecimalLength {sign digits : List Char} {x : Char} (isSign : IsSign sign)
    (mark : x = 'x' ∨ x = 'X') (some : digits ≠ []) (all : digits.all isHexDigit = true)
    (rest : List Char) :
    (sign ++ '0' :: x :: digits).length ≤
      hexadecimalLength (sign ++ '0' :: x :: digits ++ rest) := by
  have hrun := length_le_runLength all rest
  have hpos : 0 < digits.length := List.length_pos_iff.mpr some
  have hsign : signLength (sign ++ '0' :: x :: (digits ++ rest)) = sign.length :=
    isSign.signLength_append (by simp)
  unfold hexadecimalLength
  simp only [List.append_assoc, List.cons_append, hsign, List.drop_left, if_pos mark]
  rw [if_neg (by omega)]
  simp only [List.length_append, List.length_cons]
  omega

theorem IntegerForm.length_le {text : List Char} (h : IntegerForm text) (rest : List Char) :
    text.length ≤ integerLength (text ++ rest) ∨
      text.length ≤ hexadecimalLength (text ++ rest) := by
  cases h with
  | decimal isSign some all => exact .inl (length_le_integerLength isSign some all rest)
  | hexadecimal isSign mark some all =>
      exact .inr (length_le_hexadecimalLength isSign mark some all rest)

theorem ExponentForm.length_le {exponent : List Char} (h : ExponentForm exponent)
    (rest : List Char) : exponent.length ≤ exponentLength (exponent ++ rest) := by
  obtain ⟨mark, isSign, some, all⟩ := h
  rename_i e sign digits
  have hrun := length_le_runLength all rest
  have hpos : 0 < digits.length := List.length_pos_iff.mpr some
  rw [List.cons_append, exponentLength, if_pos mark]
  dsimp only
  rw [List.append_assoc, isSign.signLength_append (unsigned_of_all all some rest), List.drop_left,
    if_neg (by omega), List.length_cons, List.length_append]
  omega

/-- An exponent starts with a letter, so digits and a point end before it. -/
theorem ExponentForm.head {exponent : List Char} (h : ExponentForm exponent) (rest : List Char) :
    ∀ c ∈ (exponent ++ rest).head?, c.isDigit = false ∧ c ≠ '.' := by
  obtain ⟨rfl | rfl, -, -, -⟩ := h
  · rintro _ ⟨⟩
    decide
  · rintro _ ⟨⟩
    decide

theorem FloatForm.length_le {text : List Char} (h : FloatForm text) (rest : List Char) :
    text.length ≤ floatLength (text ++ rest) := by
  cases h with
  | @point sign whole fraction exponent isSign allWhole allFraction some last =>
      have hunsigned : ∀ c ∈ (whole ++ '.' :: (fraction ++ (exponent ++ rest))).head?,
          c ≠ '+' ∧ c ≠ '-' := by
        cases whole with
        | nil => simp
        | cons d ds => exact unsigned_of_all allWhole (List.cons_ne_nil d ds) _
      have hwhole : runLength Char.isDigit (whole ++ '.' :: (fraction ++ (exponent ++ rest))) =
          whole.length := runLength_append (List.all_eq_true.mp allWhole) (by simp)
      have hlast : fraction.length + exponent.length ≤
          runLength Char.isDigit (fraction ++ (exponent ++ rest)) + exponentLength
            ((fraction ++ (exponent ++ rest)).drop
              (runLength Char.isDigit (fraction ++ (exponent ++ rest)))) := by
        rcases last with rfl | last
        · have hfraction := length_le_runLength allFraction ([] ++ rest)
          simp only [List.length_nil]
          omega
        · rw [runLength_append (List.all_eq_true.mp allFraction) fun c hc =>
            (last.head rest c hc).1, List.drop_left]
          have hexponent := last.length_le rest
          omega
      have hbeside : ¬(whole.length = 0 ∧
          runLength Char.isDigit (fraction ++ (exponent ++ rest)) = 0) := by
        rintro ⟨hzero, hzero'⟩
        have hfraction := length_le_runLength allFraction (exponent ++ rest)
        rcases some with some | some
        · exact some (List.length_eq_zero_iff.mp hzero)
        · exact some (List.length_eq_zero_iff.mp (by omega))
      unfold floatLength
      simp only [List.append_assoc, List.cons_append, isSign.signLength_append hunsigned,
        List.drop_left, hwhole, if_neg hbeside, List.length_append, List.length_cons]
      omega
  | @plain sign whole exponent isSign some all last =>
      have hwhole : runLength Char.isDigit (whole ++ (exponent ++ rest)) = whole.length :=
        runLength_append (List.all_eq_true.mp all) fun c hc => (last.head rest c hc).1
      have hexponent := last.length_le rest
      have hpos : 0 < exponent.length := by
        cases last
        exact Nat.succ_pos _
      have hne : whole.length ≠ 0 := fun hzero => some (List.length_eq_zero_iff.mp hzero)
      unfold floatLength
      simp only [List.append_assoc, isSign.signLength_append (unsigned_of_all all some _),
        List.drop_left, hwhole]
      split
      · rename_i after heq
        exact absurd rfl (last.head rest '.' (by rw [heq]; rfl)).2
      · rw [if_neg (by omega)]
        simp only [List.length_append]
        omega

theorem IdentifierForm.length_le {text : List Char} (h : IdentifierForm text)
    (rest : List Char) : text.length ≤ identifierLength (text ++ rest) := by
  obtain ⟨c, cs, rfl, hstart, hpart⟩ := h
  have hrun := length_le_runLength (List.all_eq_true.mpr hpart) rest
  rw [List.cons_append, identifierLength, if_pos hstart, List.length_cons]
  omega

/-! ### The order in which the forms are tried -/

/-- Behind the mark of a hexadecimal number there is neither a point nor an exponent. -/
theorem floatLength_of_hexadecimalLength {cs : List Char} (h : 0 < hexadecimalLength cs) :
    floatLength cs = 0 ∧ integerLength cs ≤ hexadecimalLength cs := by
  unfold hexadecimalLength floatLength integerLength at *
  dsimp only at h ⊢
  split at h
  case h_2 => cases h
  case h_1 x digits heq =>
    split at h
    case isFalse => cases h
    case isTrue mark =>
      split at h
      case isTrue => cases h
      case isFalse hrun =>
        have hone : runLength Char.isDigit ('0' :: x :: digits) = 1 := by
          rcases mark with rfl | rfl <;> rfl
        have hexponent : exponentLength (x :: digits) = 0 := by
          rcases mark with rfl | rfl <;> rfl
        have hpoint : x ≠ '.' := by
          rcases mark with rfl | rfl <;> decide
        simp only [heq, hone, if_pos mark, if_neg hrun, List.drop_succ_cons, List.drop_zero]
        constructor
        · split
          · rename_i heq'
            exact absurd (List.cons.inj heq').1 hpoint
          · simp [hexponent]
        · simp only [Nat.one_ne_zero, if_false]
          omega

/-- A floating-point number is longer than the integer that it begins with. -/
theorem integerLength_lt_floatLength {cs : List Char} (h : 0 < floatLength cs) :
    integerLength cs < floatLength cs := by
  unfold floatLength integerLength at *
  dsimp only at h ⊢
  split at h
  · split at h
    case isTrue => cases h
    case isFalse hbeside =>
      rw [if_neg hbeside]
      split <;> omega
  · split at h
    case isTrue => cases h
    case isFalse hboth =>
      rw [if_neg hboth]
      split <;> omega

/-- What begins as an identifier begins as no number. -/
theorem noNumber_of_identifierLength {cs : List Char} (h : 0 < identifierLength cs) :
    hexadecimalLength cs = 0 ∧ floatLength cs = 0 ∧ integerLength cs = 0 := by
  cases cs with
  | nil => cases h
  | cons c cs =>
      rw [identifierLength] at h
      split at h
      case isFalse => cases h
      case isTrue hstart =>
        obtain ⟨-, hnumber, hpoint, -⟩ := startsPlain_of_isIdentifierStart hstart
        exact ⟨hexadecimalLength_of_startsNoNumber hnumber cs,
          floatLength_of_startsNoNumber hnumber cs (absurd · hpoint),
          integerLength_of_startsNoNumber hnumber cs⟩

/-- How much is read at the start of a text that starts no string literal. -/
def plainLength (cs : List Char) : Nat :=
  (plain? cs).elim 0 Prod.snd

/-- What is read is the longest text of all forms. -/
theorem lengths_le_plainLength (cs : List Char) :
    hexadecimalLength cs ≤ plainLength cs ∧ floatLength cs ≤ plainLength cs ∧
      integerLength cs ≤ plainLength cs ∧ identifierLength cs ≤ plainLength cs := by
  have hident (number : ¬(hexadecimalLength cs = 0 ∧ floatLength cs = 0 ∧ integerLength cs = 0)) :
      identifierLength cs = 0 :=
    Nat.eq_zero_of_not_pos fun hpos => number (noNumber_of_identifierLength hpos)
  unfold plainLength plain?
  split
  case isTrue hhex =>
    obtain ⟨hfloat, hint⟩ := floatLength_of_hexadecimalLength hhex
    have := hident (by omega)
    simp only [Option.elim_some]
    omega
  split
  case isTrue hfloat =>
    have hint := integerLength_lt_floatLength hfloat
    have := hident (by omega)
    simp only [Option.elim_some]
    omega
  split
  case isTrue hint =>
    have := hident (by omega)
    simp only [Option.elim_some]
    omega
  split
  case isTrue =>
    simp only [Option.elim_some]
    omega
  · omega

theorem one_le_plainLength {c : Char} {kind : TokenKind} (h : TokenKind.ofSymbol? c = some kind)
    (rest : List Char) : 1 ≤ plainLength (c :: rest) := by
  cases hplain : plain? (c :: rest) with
  | some found =>
      rw [plainLength, hplain]
      exact plain?_pos hplain
  | none =>
      obtain ⟨hhex, hfloat, hint, hident⟩ := lengths_le_plainLength (c :: rest)
      rw [plainLength, hplain, Option.elim_none] at hhex hfloat hint hident
      simp [plain?, Nat.not_lt.mpr hhex, Nat.not_lt.mpr hfloat, Nat.not_lt.mpr hint,
        Nat.not_lt.mpr hident, h] at hplain

/-- No lexeme at the start of a text is longer than what is read there. -/
theorem IsLexeme.length_le {kind : TokenKind} {text : List Char} (h : IsLexeme kind text)
    (rest : List Char) : text.length ≤ plainLength (text ++ rest) := by
  obtain ⟨hhex, hfloat, hint, hident⟩ := lengths_le_plainLength (text ++ rest)
  cases h with
  | identifier form => exact Nat.le_trans (form.length_le rest) hident
  | integer form =>
      rcases form.length_le rest with hle | hle
      · exact Nat.le_trans hle hint
      · exact Nat.le_trans hle hhex
  | float form => exact Nat.le_trans (form.length_le rest) hfloat
  | symbol symbol => exact one_le_plainLength symbol rest

/-! ### Kinds -/

theorem IsLexeme.length_pos {kind : TokenKind} {text : List Char} (h : IsLexeme kind text) :
    0 < text.length := by
  refine List.length_pos_iff.mpr ?_
  cases h with
  | identifier form =>
      obtain ⟨c, cs, rfl, -⟩ := form
      exact List.cons_ne_nil c cs
  | integer form =>
      cases form with
      | decimal isSign some all => simp [some]
      | hexadecimal isSign mark some all => simp
  | float form =>
      cases form with
      | point isSign allWhole allFraction some last => simp
      | plain isSign some all last => simp [some]
  | symbol symbol => exact List.cons_ne_nil _ _

/-- A lexeme on its own is read as one of its kind. -/
theorem IsLexeme.plain?_kind {kind : TokenKind} {text : List Char} (h : IsLexeme kind text) :
    (plain? text).map Prod.fst = some kind := by
  have hpos := h.length_pos
  cases h with
  | identifier form =>
      have hident := form.length_le []
      rw [List.append_nil] at hident
      obtain ⟨hhex, hfloat, hint⟩ :=
        noNumber_of_identifierLength (Nat.lt_of_lt_of_le hpos hident)
      rw [plain?, if_neg (by omega), if_neg (by omega), if_neg (by omega), if_pos (by omega)]
      rfl
  | integer form =>
      have hnumber := form.length_le []
      rw [List.append_nil] at hnumber
      unfold plain?
      split
      · rfl
      split
      · -- A floating-point number would be longer than the whole text.
        rename_i hfloat
        have hlt := integerLength_lt_floatLength hfloat
        have hle := floatLength_le text
        omega
      · rw [if_pos (by omega)]
        rfl
  | float form =>
      have hfloat := form.length_le []
      rw [List.append_nil] at hfloat
      have hhex : ¬0 < hexadecimalLength text := fun hhex => by
        have := (floatLength_of_hexadecimalLength hhex).1
        omega
      rw [plain?, if_neg hhex, if_pos (by omega)]
      rfl
  | @symbol kind c symbol =>
      obtain ⟨-, hnumber, hstart, -⟩ := startsPlain_of_ofSymbol? symbol
      simp [plain?, hexadecimalLength_of_startsNoNumber hnumber,
        floatLength_of_startsNoNumber hnumber [] (by simp),
        integerLength_of_startsNoNumber hnumber, identifierLength, hstart, symbol]

/-- What is read at the start of a text is the longest lexeme there. -/
theorem isLongest_of_plain? {cs : List Char} {kind : TokenKind} {n : Nat}
    (h : plain? cs = some (kind, n)) : IsLongest cs kind (cs.take n) where
  starts := List.take_prefix n cs
  isLexeme := isLexeme_of_plain? h
  ofKind := by
    intro other hother
    exact Option.some.inj (hother.plain?_kind.symm.trans (isLexeme_of_plain? h).plain?_kind)
  longest := by
    rintro other longer ⟨rest, rfl⟩ hlonger
    have hle := hlonger.length_le rest
    rwa [plainLength, h, Option.elim_some, ← List.length_take_of_le (plain?_le h)] at hle

/-- Nothing is read just where no lexeme starts. -/
theorem plain?_eq_none_iff {cs : List Char} :
    plain? cs = none ↔ ∀ kind text, text <+: cs → ¬IsLexeme kind text := by
  constructor
  · rintro hnone kind text ⟨rest, rfl⟩ htext
    have hle := htext.length_le rest
    have hpos := htext.length_pos
    rw [plainLength, hnone, Option.elim_none] at hle
    omega
  · intro h
    cases hplain : plain? cs with
    | none => rfl
    | some found => exact absurd (isLexeme_of_plain? hplain) (h _ _ (List.take_prefix _ cs))

end Proto2.Lexeme

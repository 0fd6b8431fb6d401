import Proto2.Proofs.Number.Hexadecimal
import Proto2.Proofs.Number.Positional
import Proto2.Proofs.Token.Spelled

/-!
The numbers that integer literals denote.

A literal denotes its sign times the number that its digits denote in base ten or, behind a mark, in
base sixteen.  The number printed for an integer and its hexadecimal spellings are, wherever they
stand, one token that denotes the integer.
-/

namespace Proto2

namespace IntegerLiteral

/-- What a sign stands for. -/
def signFactor (sign : List Char) : Int :=
  if sign = ['-'] then -1 else 1

/-- The literal denotes the number: a sign, or none, times the number that the digits denote. -/
inductive Denotes : List Char → Int → Prop
  | decimal {sign digits : List Char} {n : Nat} (isSign : Lexeme.IsSign sign)
      (magnitude : Numeral.Denotes 10 digits n) : Denotes (sign ++ digits) (signFactor sign * n)
  | hexadecimal {sign digits : List Char} {x : Char} {n : Nat} (isSign : Lexeme.IsSign sign)
      (mark : x = 'x' ∨ x = 'X') (magnitude : Numeral.Denotes 16 digits n) :
      Denotes (sign ++ '0' :: x :: digits) (signFactor sign * n)

/-- The text is the number as it is printed, or a hexadecimal literal that denotes it. -/
def IsSpelling (n : Int) (text : List Char) : Prop :=
  Numeral.isWritable n = true ∧ text = Numeral.text n ∨ IsHexadecimal text ∧ Denotes text n

/-! ### Reading -/

theorem read_signed {sign body : List Char} {n : Nat} (isSign : Lexeme.IsSign sign)
    (unsigned : ∀ c ∈ body.head?, IntegerLiteral.isSign c = false)
    (magnitude : readMagnitude body = .ok n) :
    read (sign ++ body) = .ok (signFactor sign * n) := by
  have hnegative : ((sign ++ body).head? == some '-') = decide (sign = ['-']) := by
    rcases isSign with rfl | rfl | rfl
    · have hhead : body.head? ≠ some '-' := fun h => absurd (unsigned '-' h) (by decide)
      simpa using hhead
    · rfl
    · rfl
  rw [read, dropWhile_isSign isSign unsigned, magnitude, hnegative, signFactor]
  by_cases h : sign = ['-'] <;> simp [h, Except.map]

theorem readMagnitude_of_decimal {digits : List Char} {n : Nat} (h : Numeral.Denotes 10 digits n)
    (bounded : digits.length ≤ Numeral.digitLimit) : readMagnitude digits = .ok n := by
  have hall : ∀ c ∈ digits, c.isDigit = true := fun c hc =>
    Numeral.char_isDigit_iff.mpr (h.isDigit c hc)
  rw [readMagnitude_of_digits h.1 hall,
    Numeral.read_of_isPlainDigit h.1 fun c hc => Numeral.isPlainDigit_ten (hall c hc),
    if_neg (by omega), h.ofDigits_digitValue?]

theorem readMagnitude_of_hexadecimal {digits : List Char} {x : Char} {n : Nat}
    (mark : x = 'x' ∨ x = 'X') (h : Numeral.Denotes 16 digits n) :
    readMagnitude ('0' :: x :: digits) = .ok n := by
  rw [readMagnitude, if_pos mark,
    Numeral.read_of_isPlainDigit h.1 fun c hc =>
      Numeral.isPlainDigit_sixteen (Numeral.isHexDigit_iff.mpr (h.isDigit c hc)),
    if_neg (by omega), h.ofDigits_digitValue?]

theorem Denotes.read_eq {lexeme : List Char} {n : Int} (h : Denotes lexeme n)
    (bounded : Bounded lexeme) : read lexeme = .ok n := by
  cases h with
  | decimal isSign h =>
      have hall := fun c hc => Numeral.char_isDigit_iff.mpr (h.isDigit c hc)
      rw [bounded_decimal_iff isSign hall] at bounded
      exact read_signed isSign (fun c hc => isSign_of_isDigit (hall c (List.mem_of_mem_head? hc)))
        (readMagnitude_of_decimal h bounded)
  | hexadecimal isSign mark h =>
      exact read_signed isSign (by simp [IntegerLiteral.isSign])
        (readMagnitude_of_hexadecimal mark h)

/-- Integer lexemes denote a number. -/
theorem exists_denotes {lexeme : List Char} (form : Lexeme.IntegerForm lexeme) :
    ∃ n, Denotes lexeme n := by
  cases form with
  | decimal isSign nonempty all =>
      obtain ⟨n, hn⟩ := Numeral.exists_denotes nonempty fun c hc =>
        Numeral.char_isDigit_iff.mp (List.all_eq_true.mp all c hc)
      exact ⟨_, .decimal isSign hn⟩
  | hexadecimal isSign mark nonempty all =>
      obtain ⟨n, hn⟩ := Numeral.exists_denotes nonempty fun c hc =>
        Numeral.isHexDigit_iff.mp (List.all_eq_true.mp all c hc)
      exact ⟨_, .hexadecimal isSign mark hn⟩

theorem read_eq_ok_iff {lexeme : List Char} {n : Int} (form : Lexeme.IntegerForm lexeme)
    (bounded : Bounded lexeme) : read lexeme = .ok n ↔ Denotes lexeme n := by
  refine ⟨fun h => ?_, fun h => h.read_eq bounded⟩
  obtain ⟨m, hm⟩ := exists_denotes form
  obtain rfl : n = m := Except.ok.inj (h.symm.trans (hm.read_eq bounded))
  exact hm

/-! ### Spelling -/

theorem denotes_toDigits (n : Nat) : Numeral.Denotes 16 (Nat.toDigits 16 n) n := by
  obtain ⟨m, hm⟩ := Numeral.exists_denotes Nat.toDigits_ne_nil fun c hc =>
    Numeral.isHexDigit_iff.mp (Numeral.isHexDigit_of_mem_toDigits hc)
  obtain rfl : m = n := by rw [← hm.ofDigits_digitValue?, Numeral.ofDigits_toDigits]
  exact hm

/-- Every number has hexadecimal spellings: a minus if it is negative, either mark, and the digits
of its magnitude. -/
theorem isSpelling_toDigits (n : Int) {x : Char} (mark : x = 'x' ∨ x = 'X') :
    IsSpelling n ((if n < 0 then ['-'] else []) ++ '0' :: x :: Nat.toDigits 16 n.natAbs) := by
  have hsign : Lexeme.IsSign (if n < 0 then ['-'] else []) := by
    split
    · exact .inr (.inr rfl)
    · exact .inl rfl
  have hvalue : signFactor (if n < 0 then ['-'] else []) * n.natAbs = n := by
    split
    · simp only [signFactor, if_true]
      omega
    · simp only [signFactor, List.nil_eq, List.cons_ne_nil, if_false]
      omega
  refine .inr ⟨⟨x, _, dropWhile_isSign hsign (by simp [isSign]), mark⟩, ?_⟩
  have h := Denotes.hexadecimal hsign mark (denotes_toDigits n.natAbs)
  rwa [hvalue] at h

theorem Denotes.spells {text : List Char} {n : Int} (h : Denotes text n)
    (hexadecimal : IsHexadecimal text) : Lexeme.Spells text .integer text := by
  cases h with
  | decimal isSign h =>
      exact absurd hexadecimal (not_isHexadecimal_of_digits isSign fun c hc =>
        Numeral.char_isDigit_iff.mpr (h.isDigit c hc))
  | hexadecimal isSign mark h =>
      exact Lexeme.spells_hexadecimal isSign mark h.1 fun c hc =>
        Numeral.isHexDigit_iff.mpr (h.isDigit c hc)

theorem IsSpelling.spells {n : Int} {text : List Char} (h : IsSpelling n text) :
    Lexeme.Spells text .integer text := by
  rcases h with ⟨-, rfl⟩ | ⟨hexadecimal, h⟩
  · exact Numeral.spells_text n
  · exact h.spells hexadecimal

theorem IsSpelling.read_eq {n : Int} {text : List Char} (h : IsSpelling n text) :
    read text = .ok n := by
  rcases h with ⟨writable, rfl⟩ | ⟨hexadecimal, h⟩
  · exact read_text writable
  · exact h.read_eq (.inl hexadecimal)

end IntegerLiteral

/-- White space and the punctuation other than the dot end a number. -/
theorem TokenKind.integer_mayPrecede {c : Char}
    (h : Lexeme.isSpace c = true ∨ c ≠ '.' ∧ (ofSymbol? c).isSome) :
    integer.mayPrecede c = true := by
  rcases h with hspace | ⟨hdot, hsymbol⟩
  · exact Lexeme.forall_isSpace (by decide) hspace
  · obtain ⟨kind, hkind⟩ := Option.isSome_iff_exists.mp hsymbol
    refine Lexeme.mayPrecede_of_ofSymbol? hkind ?_ integer
    rintro rfl
    unfold ofSymbol? at hkind
    split at hkind <;> first | exact hdot rfl | cases hkind

/-- An integer token, unless it is decimal and too long, denotes its sign times the value of its
digits and nothing else; and where the lexer comes to an integer as it is printed or to a
hexadecimal spelling of it, with white space, punctuation other than the dot or nothing behind it,
that is one integer token, which denotes the integer. -/
theorem integer_tokens_denoted (file : String) (source : List Char) :
    (∀ t ∈ (Lexed.ofText file source).tokens, t.kind = .integer →
      IntegerLiteral.Bounded t.lexeme.toList →
      (∃ n, IntegerLiteral.Denotes t.lexeme.toList n) ∧
        ∀ n, IntegerLiteral.read t.lexeme.toList = .ok n ↔
          IntegerLiteral.Denotes t.lexeme.toList n) ∧
    ∀ (n : Int) (text behind : List Char) (start : Nat), IntegerLiteral.IsSpelling n text →
      Lexed.Reaches file source start → source.drop start = text ++ behind →
      (∀ c ∈ behind.head?, Lexeme.isSpace c = true ∨ c ≠ '.' ∧ (TokenKind.ofSymbol? c).isSome) →
      ∃ t, Lexed.StandsAlone file source start (start + text.length) t ∧ t.kind = .integer ∧
        t.lexeme = String.ofList text ∧ IntegerLiteral.read t.lexeme.toList = .ok n ∧
        Lexed.Reaches file source (start + text.length) := by
  constructor
  · intro t mem kind bounded
    have hform := (Lexed.isScanned_of_mem mem (by simp [kind])).integerForm kind
    exact ⟨IntegerLiteral.exists_denotes hform, fun n =>
      IntegerLiteral.read_eq_ok_iff hform bounded⟩
  · intro n text behind start spelling reaches hdrop follows
    obtain ⟨t, alone, kind, lexeme, reached⟩ := reaches.exists_standsAlone spelling.spells hdrop
      fun c hc => TokenKind.integer_mayPrecede (follows c hc)
    refine ⟨t, alone, kind, lexeme, ?_, reached⟩
    rw [lexeme, String.toList_ofList, spelling.read_eq]

/-- A negative number in capital hexadecimal digits, with a semicolon behind it. -/
theorem integer_tokens_denoted_negative :
    ∃ t, Lexed.StandsAlone "f.proto" "-0X1F;".toList 0 5 t ∧ t.kind = .integer ∧
      IntegerLiteral.read t.lexeme.toList = .ok (-31) ∧
      ∀ n, IntegerLiteral.read t.lexeme.toList = .ok n ↔
        IntegerLiteral.Denotes t.lexeme.toList n := by
  have hspelling : IntegerLiteral.IsSpelling (-31) "-0X1F".toList := by
    have hdigits : Numeral.Denotes 16 ['1', 'F'] 31 :=
      ⟨by decide, [1, 15], .cons (by decide) (.cons (by decide) .nil), by decide⟩
    exact .inr ⟨⟨'X', ['1', 'F'], by decide, .inr rfl⟩,
      .hexadecimal (.inr (.inr rfl)) (.inr rfl) hdigits⟩
  have hreaches : Lexed.Reaches "f.proto" "-0X1F;".toList 0 :=
    ⟨[], List.nil_prefix, by simp, Nat.le_refl 0, Nat.zero_le _, .nil _⟩
  obtain ⟨ofTokens, ofTexts⟩ := integer_tokens_denoted "f.proto" "-0X1F;".toList
  have hfollows : ∀ c ∈ [';'].head?, Lexeme.isSpace c = true ∨
      c ≠ '.' ∧ (TokenKind.ofSymbol? c).isSome := by
    intro c hc
    obtain rfl : ';' = c := Option.some.inj hc
    decide
  obtain ⟨t, alone, kind, lexeme, value, -⟩ := ofTexts (-31) "-0X1F".toList [';'] 0 hspelling
    hreaches (by decide) hfollows
  obtain ⟨before, after, htokens, -⟩ := alone.others
  have hmem : t ∈ (Lexed.ofText "f.proto" "-0X1F;".toList).tokens := by
    rw [htokens]
    exact List.mem_append_right before List.mem_cons_self
  have hbounded : IntegerLiteral.Bounded t.lexeme.toList :=
    .inl ⟨'X', ['1', 'F'], by rw [lexeme]; decide, .inr rfl⟩
  exact ⟨t, alone, kind, value, (ofTokens t hmem kind hbounded).2⟩

end Proto2

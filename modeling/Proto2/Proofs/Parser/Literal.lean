import Proto2.Proofs.Parser.Basic
import Proto2.Parser.Literal

/-!
Literals in a list of tokens.
-/

namespace Proto2

namespace Token

/-- The text that a string token denotes. -/
def stringValue (t : Token) : Except LexicalCause String :=
  (StringBody.decode t.lexeme.toList).map String.ofList

/-- The number that an integer token denotes. -/
def integerValue (t : Token) : Except Numeral.ReadError Int :=
  IntegerLiteral.read t.lexeme.toList

/-- The number that a floating-point token denotes. -/
def floatValue (t : Token) : Binary64 :=
  Binary64.read t.lexeme.toList

end Token

/-- String tokens, as many as follow one another, and the texts they denote. -/
inductive StringsAt : List Token → List String → List Token → Prop
  | nil {ts : List Token} (stop : NotAtKind .string ts) : StringsAt ts [] ts
  | cons {t : Token} {s : String} {ss : List String} {ts us : List Token}
      (kind : t.kind = .string) (value : t.stringValue = .ok s) (tail : StringsAt ts ss us) :
      StringsAt (t :: ts) (s :: ss) us

theorem StringsAt.length_le {ts us : List Token} {ss : List String} (h : StringsAt ts ss us) :
    ss.length + us.length ≤ ts.length := by
  induction h with
  | nil => simp
  | cons kind value tail ih =>
      simp only [List.length_cons]
      omega

namespace Parser

instance tokenDriven_decodeString (t : Token) : TokenDriven (decodeString t) := by
  unfold decodeString
  split <;> infer_instance

instance tokenDriven_decodeInteger (t : Token) : TokenDriven (decodeInteger t) := by
  unfold decodeInteger
  split <;> infer_instance

instance tokenDriven_stringLiteral : TokenDriven stringLiteral := by
  unfold stringLiteral
  infer_instance

instance tokenDriven_integerLiteral : TokenDriven integerLiteral := by
  unfold integerLiteral
  infer_instance

instance tokenDriven_floatLiteral : TokenDriven floatLiteral := by
  unfold floatLiteral
  infer_instance

instance tokenDriven_stringLiterals (n : Nat) : TokenDriven (stringLiterals n) := by
  induction n with
  | zero =>
      unfold stringLiterals
      infer_instance
  | succ n ih =>
      unfold stringLiterals
      infer_instance

instance tokenDriven_adjacentStrings : TokenDriven adjacentStrings := by
  unfold adjacentStrings
  infer_instance

@[simp] theorem reads_decodeString {t : Token} {s : String} {ts us : List Token} :
    Reads (decodeString t) ts s us ↔ t.stringValue = .ok s ∧ us = ts := by
  simp only [decodeString, Token.stringValue]
  cases StringBody.decode t.lexeme.toList with
  | ok cs => simp [Except.map, eq_comm]
  | error e => simp [Except.map]

@[simp] theorem reads_decodeInteger {t : Token} {n : Int} {ts us : List Token} :
    Reads (decodeInteger t) ts n us ↔ t.integerValue = .ok n ∧ us = ts := by
  simp only [decodeInteger, Token.integerValue]
  cases IntegerLiteral.read t.lexeme.toList with
  | ok m => simp [eq_comm]
  | error e => simp

theorem reads_stringLiteral {t : Token} {ts us : List Token} {s : String}
    (kind : t.kind = .string) :
    Reads stringLiteral (t :: ts) s us ↔ t.stringValue = .ok s ∧ us = ts := by
  rw [stringLiteral, reads_bind_next_cons (isEnd_eq_false_of_kind kind (by decide)),
    reads_decodeString]

theorem reads_integerLiteral {t : Token} {ts us : List Token} {n : Int}
    (kind : t.kind = .integer) :
    Reads integerLiteral (t :: ts) n us ↔ t.integerValue = .ok n ∧ us = ts := by
  rw [integerLiteral, reads_bind_next_cons (isEnd_eq_false_of_kind kind (by decide)),
    reads_decodeInteger]

theorem reads_floatLiteral {t : Token} {ts us : List Token} {x : Binary64}
    (kind : t.kind = .float) :
    Reads floatLiteral (t :: ts) x us ↔ x = t.floatValue ∧ us = ts := by
  rw [floatLiteral, reads_bind_next_cons (isEnd_eq_false_of_kind kind (by decide)), reads_pure]
  rfl

theorem reads_stringLiterals {n : Nat} {ts us : List Token} {ss : List String} :
    Reads (stringLiterals n) ts ss us ↔ ss.length < n ∧ StringsAt ts ss us := by
  induction n generalizing ts us ss with
  | zero => simp [stringLiterals]
  | succ n ih =>
      simp only [stringLiterals, reads_bind, reads_isAt, reads_ite, ih, reads_pure]
      constructor
      · rintro ⟨b, _, ⟨rfl, ⟨rfl, t, rest, rfl, hk⟩ | ⟨rfl, hstop⟩⟩, hr⟩
        · obtain ⟨-, s, _, hs, rs, _, ⟨hn, tail⟩, rfl, rfl⟩ | ⟨h, -⟩ := hr
          · rw [reads_stringLiteral hk] at hs
            obtain ⟨hs, rfl⟩ := hs
            exact ⟨Nat.succ_lt_succ hn, .cons hk hs tail⟩
          · exact absurd rfl h
        · obtain ⟨h, -⟩ | ⟨-, rfl, rfl⟩ := hr
          · cases h
          · exact ⟨Nat.succ_pos _, .nil hstop⟩
      · rintro ⟨hn, hs⟩
        cases hs with
        | nil stop => exact ⟨false, _, ⟨rfl, .inr ⟨rfl, stop⟩⟩, .inr ⟨by simp, rfl, rfl⟩⟩
        | @cons t s rs ts _ kind value tail =>
            exact ⟨true, _, ⟨rfl, .inl ⟨rfl, by simpa using kind⟩⟩, .inl ⟨rfl, s, ts,
              (reads_stringLiteral kind).mpr ⟨value, rfl⟩, rs, us,
              ⟨Nat.lt_of_succ_lt_succ hn, tail⟩, rfl, rfl⟩⟩

/-- Adjacent strings denote one text. -/
theorem reads_adjacentStrings {t : Token} {ts us : List Token} {text : String}
    (kind : t.kind = .string) :
    Reads adjacentStrings (t :: ts) text us ↔
      ∃ ss, StringsAt (t :: ts) ss us ∧ text = String.join ss := by
  simp only [adjacentStrings, reads_bind, reads_stringLiteral kind, reads_budget,
    reads_stringLiterals, reads_pure]
  constructor
  · rintro ⟨s, _, ⟨hs, rfl⟩, _, _, ⟨rfl, rfl⟩, ss, _, ⟨-, tail⟩, rfl, rfl⟩
    exact ⟨_, .cons kind hs tail, rfl⟩
  · rintro ⟨ss, h, rfl⟩
    cases h with
    | nil stop => simp [kind] at stop
    | @cons _ s rs _ _ _ value tail =>
        have := tail.length_le
        exact ⟨s, ts, ⟨value, rfl⟩, _, _, ⟨rfl, rfl⟩, rs, us, ⟨by omega, tail⟩, rfl, rfl⟩

end Parser

end Proto2

import Proto2.Proofs.Literal.Integer
import Proto2.Proofs.Parser.Literal
import Proto2.Proofs.Parser.Name
import Proto2.Proofs.Token.Lexed

/-!
Why parsers fail.

A parser that fails reports an error of the text: of its characters, of its grammar, or against a
rule of the model.  The only other failures are due to integers with more decimal digits than are
converted.  `Diagnosed text p l Q` says that `p`, on what is left of the text, fails for one of
these reasons or succeeds as `Q` describes.

What else could go wrong does not.  A token is never missing, since there is the end of the input
or a lexical error behind every other one; and the rounds of a repetition do not run out, since
each of them takes a token.
-/

namespace Proto2

/-! ### Failures -/

/-- The failure is an error of the text: of its characters, of its grammar, or against a rule of
the model. -/
def Failure.IsDiagnostic : Failure → Prop
  | .parse _ => True
  | .build (.invalid _) => True
  | _ => False

/-- The failure is due to an integer among the tokens that has too many decimal digits to be
converted: as it is written, or in the words for an error about it. -/
inductive Failure.IsOverlong (text : List Token) : Failure → Prop
  | unread {t : Token} (mem : t ∈ text) (kind : t.kind = .integer)
      (long : ¬ IntegerLiteral.Bounded t.lexeme.toList) :
      IsOverlong text
        (.numeral (.tooManyDigits (t.lexeme.toList.dropWhile IntegerLiteral.isSign).length))
  | unwritten {t : Token} {n : Int} (mem : t ∈ text) (kind : t.kind = .integer)
      (value : t.integerValue = .ok n) (long : Numeral.isWritable n = false) :
      IsOverlong text (.build (.unwritable {}))

namespace Lexed

/-! ### What is left of a text -/

/-- The tokens are some of those of a text, in which integers have their form. -/
structure LeftOf (text : List Token) (l : Lexed) : Prop where
  wellFormed : l.WellFormed
  subset : l.tokens ⊆ text
  integers : ∀ t ∈ text, t.kind = .integer → Lexeme.IntegerForm t.lexeme.toList

/-- Where the tokens are over, there is a lexical error. -/
theorem WellFormed.tokens_ne_nil {l : Lexed} (h : l.WellFormed) (none : l.failure = none) :
    l.tokens ≠ [] := by
  obtain ⟨ts, -, ⟨e, htokens, -, -⟩ | ⟨-, hsome⟩⟩ := h
  · simp [htokens]
  · simp [none] at hsome

theorem WellFormed.getLast? {l : Lexed} (h : l.WellFormed) (none : l.failure = none) :
    ∃ e, l.tokens.getLast? = some e ∧ e.kind = .endOfInput := by
  obtain ⟨ts, -, ⟨e, htokens, he, -⟩ | ⟨-, hsome⟩⟩ := h
  · exact ⟨e, by simp [htokens], he⟩
  · simp [none] at hsome

theorem WellFormed.tail {t : Token} {ts : List Token} {failure : Option LexicalError}
    (h : WellFormed ⟨t :: ts, failure⟩) (notEnd : t.kind ≠ .endOfInput) :
    WellFormed ⟨ts, failure⟩ := by
  obtain ⟨us, hscanned, ⟨e, htokens, he, hnone⟩ | ⟨htokens, hsome⟩⟩ := h
  · cases us with
    | nil =>
        obtain ⟨rfl, -⟩ := List.cons.inj htokens
        exact absurd he notEnd
    | cons u us =>
        obtain ⟨rfl, rfl⟩ := List.cons.inj htokens
        exact ⟨us, fun v hv => hscanned v (List.mem_cons_of_mem _ hv), .inl ⟨e, rfl, he, hnone⟩⟩
  · refine ⟨ts, fun v hv => hscanned v ?_, .inr ⟨rfl, hsome⟩⟩
    exact htokens ▸ List.mem_cons_of_mem _ hv

theorem LeftOf.tail {text ts : List Token} {t : Token} {failure : Option LexicalError}
    (h : LeftOf text ⟨t :: ts, failure⟩) (notEnd : t.kind ≠ .endOfInput) :
    LeftOf text ⟨ts, failure⟩ :=
  ⟨h.wellFormed.tail notEnd, List.Subset.trans (List.subset_cons_self _ _) h.subset, h.integers⟩

theorem leftOf_ofText (file : String) (source : List Char) :
    LeftOf (ofText file source).tokens (ofText file source) := by
  refine ⟨wellFormed_ofText file source, List.Subset.refl _, fun t ht kind => ?_⟩
  obtain ⟨ts, hscanned, ⟨e, htokens, he, -⟩ | ⟨htokens, -⟩⟩ := wellFormed_ofText file source
  · rcases List.mem_append.mp (htokens ▸ ht) with ht | ht
    · exact (hscanned t ht).integerForm kind
    · rw [List.mem_singleton.mp ht, he] at kind
      cases kind
  · exact (hscanned t (htokens ▸ ht)).integerForm kind

end Lexed

namespace Parser

/-- On what is left of the text, the parser fails with an error of the text or for an integer in
it that is too long, or succeeds and leaves some of it, as described. -/
def Diagnosed {α : Type} (text : List Token) (p : Parser α) (l : Lexed)
    (Q : α → Lexed → Prop) : Prop :=
  l.LeftOf text →
    match p.outcome l with
    | .ok (a, l') => l'.LeftOf text ∧ Q a l'
    | .error failure => failure.IsDiagnostic ∨ failure.IsOverlong text

/-- If it does not fail so, the parser succeeds and takes a token at least. -/
def Takes {α : Type} (text : List Token) (p : Parser α) (l : Lexed) : Prop :=
  Diagnosed text p l fun _ l' => l'.tokens.length < l.tokens.length

section Diagnosed

variable {α β : Type} {text : List Token} {p : Parser α} {l : Lexed} {Q R : α → Lexed → Prop}

namespace Diagnosed

/-! ### Parsers put together -/

theorem mono (h : Diagnosed text p l Q) (weaker : ∀ a l', Q a l' → R a l') :
    Diagnosed text p l R := by
  intro hl
  have := h hl
  cases houtcome : p.outcome l with
  | error failure => simpa [houtcome] using this
  | ok r =>
      simp only [houtcome] at this ⊢
      exact ⟨this.1, weaker _ _ this.2⟩

theorem pure {a : α} (h : Q a l) : Diagnosed text (pure a) l Q :=
  fun hl => ⟨hl, h⟩

theorem fail {g : Grammar} {found : Token} {cause : GrammarCause} :
    Diagnosed text (fail g found cause) l Q :=
  fun _ => .inl trivial

/-- One parser after another. -/
theorem bind {f : α → Parser β} [∀ a, TokenDriven (f a)] {R : β → Lexed → Prop}
    (h : Diagnosed text p l Q) (h' : ∀ a l', Q a l' → Diagnosed text (f a) l' R) :
    Diagnosed text (p >>= f) l R := by
  intro hl
  have hp := h hl
  rw [outcome_bind]
  cases houtcome : p.outcome l with
  | error failure => simpa [houtcome] using hp
  | ok r =>
      simp only [houtcome] at hp
      exact h' _ _ hp.2 hp.1

theorem ite {c : Prop} [Decidable c] {q : Parser α} (h : c → Diagnosed text p l Q)
    (h' : ¬ c → Diagnosed text q l Q) : Diagnosed text (if c then p else q) l Q := by
  split
  case isTrue hc => exact h hc
  case isFalse hc => exact h' hc

end Diagnosed

/-! ### Single tokens -/

theorem outcome_peek (n : Nat) (l : Lexed) :
    (peek n).outcome l =
      match l.tokens[n]? with
      | some t => .ok (t, l)
      | none =>
        match l.failure with
        | some e => .error (.parse (.lexical e))
        | none =>
          match l.tokens.getLast? with
          | some t => .ok (t, l)
          | none => .error .noToken := by
  obtain ⟨tokens, failure⟩ := l
  simp only [outcome, run_peek, TokenStream.ofLexed]
  cases tokens[n]? <;> cases failure <;> cases tokens.getLast? <;> rfl

/-- Behind the last token, the end of the input is seen. -/
theorem diagnosed_peek (n : Nat) :
    Diagnosed text (peek n) l fun t l' =>
      l' = l ∧ (l.tokens[n]? = some t ∨ t.kind = .endOfInput) := by
  intro hl
  rw [outcome_peek]
  cases htoken : l.tokens[n]? with
  | some t => exact ⟨hl, rfl, .inl rfl⟩
  | none =>
      cases hfailure : l.failure with
      | some e => exact .inl trivial
      | none =>
          -- Without an error the tokens close with the end of the input, which is seen again.
          obtain ⟨e, hlast, he⟩ := hl.wellFormed.getLast? hfailure
          simp only [hlast]
          exact ⟨hl, trivial, .inr he⟩

theorem diagnosed_peek_zero :
    Diagnosed text (peek 0) l fun t l' => l' = l ∧ ∃ rest, l.tokens = t :: rest := by
  intro hl
  rw [outcome_peek]
  cases htokens : l.tokens with
  | cons t rest => exact ⟨hl, rfl, rest, rfl⟩
  | nil =>
      cases hfailure : l.failure with
      | some e => exact .inl trivial
      | none => exact absurd htokens (hl.wellFormed.tokens_ne_nil hfailure)

/-- The next token is consumed, unless it is the end of the input. -/
theorem diagnosed_next :
    Diagnosed text next l fun t l' =>
      t ∈ text ∧ ∃ rest, l.tokens = t :: rest ∧
        l'.tokens = if t.isEnd then l.tokens else rest := by
  intro hl
  obtain ⟨tokens, failure⟩ := l
  cases tokens with
  | nil =>
      cases failure with
      | some e => exact .inl trivial
      | none => exact absurd rfl (hl.wellFormed.tokens_ne_nil rfl)
  | cons t rest =>
      have hmem : t ∈ text := hl.subset List.mem_cons_self
      show (Lexed.LeftOf text (TokenStream.consume _ t).left) ∧ _
      simp only [TokenStream.consume]
      split
      case isTrue hend => exact ⟨hl, hmem, rest, rfl, rfl⟩
      case isFalse hend =>
        exact ⟨hl.tail (by simpa [Token.isEnd] using hend), hmem, rest, rfl, rfl⟩

theorem diagnosed_next_le :
    Diagnosed text next l fun t l' =>
      t ∈ text ∧ l'.tokens.length ≤ l.tokens.length := by
  refine diagnosed_next.mono fun t l' h => ⟨h.1, ?_⟩
  obtain ⟨-, rest, hl, hl'⟩ := h
  rw [hl']
  split
  · exact Nat.le_refl _
  · simp [hl]

/-- Of tokens that start with one that is not the end of the input, this one is consumed. -/
theorem diagnosed_next_of_cons {t : Token} {rest : List Token} (cons : l.tokens = t :: rest)
    (notEnd : t.isEnd = false) :
    Diagnosed text next l fun u l' =>
      u = t ∧ t ∈ text ∧ l'.tokens.length < l.tokens.length := by
  refine diagnosed_next.mono fun u l' h => ?_
  obtain ⟨hmem, rest', hl, hl'⟩ := h
  obtain ⟨rfl, rfl⟩ := List.cons.inj (cons.symm.trans hl)
  rw [hl', notEnd]
  exact ⟨rfl, hmem, by simp [hl]⟩

theorem takes_next {kind : TokenKind} {t : Token} {rest : List Token}
    (cons : l.tokens = t :: rest) (eq : t.kind = kind) (some : kind ≠ .endOfInput) :
    Takes text next l :=
  (diagnosed_next_of_cons cons (isEnd_eq_false_of_kind eq some)).mono fun _ _ h => h.2.2

theorem diagnosed_budget :
    Diagnosed text budget l fun n l' => n = l.tokens.length + 1 ∧ l' = l :=
  fun hl => ⟨hl, rfl, rfl⟩

theorem diagnosed_isAt {kind : TokenKind} :
    Diagnosed text (isAt kind) l fun b l' =>
      l' = l ∧ ∃ t rest, l.tokens = t :: rest ∧ b = decide (t.kind = kind) := by
  unfold isAt
  refine .bind diagnosed_peek_zero ?_
  rintro t _ ⟨rfl, rest, hcons⟩
  exact .pure ⟨rfl, t, rest, hcons, rfl⟩

theorem diagnosed_isAtWord {word : String} :
    Diagnosed text (isAtWord word) l fun b l' =>
      l' = l ∧ ∃ t rest, l.tokens = t :: rest ∧ b = t.isWord word := by
  unfold isAtWord
  refine .bind diagnosed_peek_zero ?_
  rintro t _ ⟨rfl, rest, hcons⟩
  exact .pure ⟨rfl, t, rest, hcons, rfl⟩

/-- An optional token is consumed, or nothing is. -/
theorem diagnosed_accept? {kind : TokenKind} (some : kind ≠ .endOfInput) :
    Diagnosed text (accept? kind) l fun o l' =>
      (o.isSome = true ∧ l'.tokens.length < l.tokens.length) ∨ (o = none ∧ l' = l) := by
  unfold accept?
  refine .bind diagnosed_isAt ?_
  rintro b _ ⟨rfl, t, rest, hcons, rfl⟩
  refine .ite (fun hkind => ?_) fun _ => .pure (.inr ⟨rfl, rfl⟩)
  have hend := isEnd_eq_false_of_kind (of_decide_eq_true hkind) some
  refine .bind (diagnosed_next_of_cons hcons hend) ?_
  rintro u l' ⟨rfl, -, hlt⟩
  exact .pure (.inl ⟨rfl, hlt⟩)

theorem diagnosed_acceptWord? {word : String} :
    Diagnosed text (acceptWord? word) l fun o l' =>
      (o.isSome = true ∧ l'.tokens.length < l.tokens.length) ∨ (o = none ∧ l' = l) := by
  unfold acceptWord?
  refine .bind diagnosed_isAtWord ?_
  rintro b _ ⟨rfl, t, rest, hcons, rfl⟩
  refine .ite (fun hword => ?_) fun _ => .pure (.inr ⟨rfl, rfl⟩)
  refine .bind (diagnosed_next_of_cons hcons (isEnd_eq_false_of_isWord hword)) ?_
  rintro u l' ⟨rfl, -, hlt⟩
  exact .pure (.inl ⟨rfl, hlt⟩)

theorem diagnosed_accepts {kind : TokenKind} (some : kind ≠ .endOfInput) :
    Diagnosed text (accepts kind) l fun b l' =>
      (b = true ∧ l'.tokens.length < l.tokens.length) ∨ (b = false ∧ l' = l) := by
  unfold accepts
  refine .bind (diagnosed_accept? some) ?_
  rintro o l' (⟨hsome, hlt⟩ | ⟨rfl, rfl⟩)
  · exact .pure (.inl ⟨hsome, hlt⟩)
  · exact .pure (.inr ⟨rfl, rfl⟩)

theorem diagnosed_acceptsWord {word : String} :
    Diagnosed text (acceptsWord word) l fun b l' =>
      (b = true ∧ l'.tokens.length < l.tokens.length) ∨ (b = false ∧ l' = l) := by
  unfold acceptsWord
  refine .bind diagnosed_acceptWord? ?_
  rintro o l' (⟨hsome, hlt⟩ | ⟨rfl, rfl⟩)
  · exact .pure (.inl ⟨hsome, hlt⟩)
  · exact .pure (.inr ⟨rfl, rfl⟩)

theorem diagnosed_skip {kind : TokenKind} (some : kind ≠ .endOfInput) :
    Diagnosed text (accept? kind) l fun _ l' => l'.tokens.length ≤ l.tokens.length := by
  refine (diagnosed_accept? some).mono ?_
  rintro o l' (⟨-, hlt⟩ | ⟨-, rfl⟩) <;> omega

theorem diagnosed_skips {kind : TokenKind} (some : kind ≠ .endOfInput) :
    Diagnosed text (accepts kind) l fun _ l' => l'.tokens.length ≤ l.tokens.length := by
  refine (diagnosed_accepts some).mono ?_
  rintro b l' (⟨-, hlt⟩ | ⟨-, rfl⟩) <;> omega

theorem diagnosed_skipsWord {word : String} :
    Diagnosed text (acceptsWord word) l fun _ l' => l'.tokens.length ≤ l.tokens.length := by
  refine diagnosed_acceptsWord.mono ?_
  rintro b l' (⟨-, hlt⟩ | ⟨-, rfl⟩) <;> omega

theorem diagnosed_expect {g : Grammar} {kind : TokenKind} {what : String}
    (some : kind ≠ .endOfInput) :
    Diagnosed text (expect g kind what) l fun t l' =>
      t ∈ text ∧ t.kind = kind ∧ l'.tokens.length < l.tokens.length := by
  unfold expect
  refine .bind diagnosed_peek_zero ?_
  rintro t _ ⟨rfl, rest, hcons⟩
  refine .ite (fun hkind => ?_) fun _ => .fail
  refine (diagnosed_next_of_cons hcons (isEnd_eq_false_of_kind hkind some)).mono ?_
  rintro u l' ⟨rfl, hmem, hlt⟩
  exact ⟨hmem, hkind, hlt⟩

theorem takes_expect {g : Grammar} {kind : TokenKind} {what : String}
    (some : kind ≠ .endOfInput) : Takes text (expect g kind what) l :=
  (diagnosed_expect some).mono fun _ _ h => h.2.2

theorem takes_expectWord {g : Grammar} {word : String} : Takes text (expectWord g word) l := by
  unfold expectWord
  refine .bind diagnosed_peek_zero ?_
  rintro t _ ⟨rfl, rest, hcons⟩
  refine .ite (fun hword => ?_) fun _ => .fail
  exact (diagnosed_next_of_cons hcons (isEnd_eq_false_of_isWord hword)).mono fun _ _ h => h.2.2

theorem takes_identifier {g : Grammar} {what : String} : Takes text (identifier g what) l := by
  unfold identifier
  exact .bind (takes_expect (by decide)) fun _ _ h => .pure h

/-! ### Repetitions -/

section Repetitions

variable {item : Parser α} [TokenDriven item] {P : α → Prop} {n : Nat}

/-- Items of which each takes a token are read in as many rounds as there are tokens. -/
theorem diagnosed_itemsWithin {close : TokenKind} (some : close ≠ .endOfInput)
    (each : ∀ l', l'.tokens.length ≤ l.tokens.length →
      Diagnosed text item l' fun a l'' => l''.tokens.length < l'.tokens.length ∧ P a)
    (rounds : l.tokens.length < n) :
    Diagnosed text (itemsWithin close item n) l fun as l' =>
      l'.tokens.length < l.tokens.length ∧ ∀ a ∈ as, P a := by
  -- A round takes a token, so there is a round left as long as there are tokens.
  induction n generalizing l with
  | zero => omega
  | succ n ih =>
      rw [itemsWithin]
      refine .bind (diagnosed_accepts some) ?_
      rintro b l' (⟨rfl, hlt⟩ | ⟨rfl, rfl⟩)
      · exact .pure ⟨hlt, List.forall_mem_nil _⟩
      · refine .bind (each l' (Nat.le_refl _)) ?_
        rintro a l'' ⟨hlt, ha⟩
        refine .bind (ih (fun l₃ h₃ => each l₃ (by omega)) (by omega)) ?_
        rintro as l₃ ⟨hlt', has⟩
        exact .pure ⟨by omega, List.forall_mem_cons.mpr ⟨ha, has⟩⟩

theorem diagnosed_itemsUntil {close : TokenKind} (some : close ≠ .endOfInput)
    (each : ∀ l', l'.tokens.length ≤ l.tokens.length →
      Diagnosed text item l' fun a l'' => l''.tokens.length < l'.tokens.length ∧ P a) :
    Diagnosed text (itemsUntil close item) l fun as l' =>
      l'.tokens.length < l.tokens.length ∧ ∀ a ∈ as, P a := by
  unfold itemsUntil
  refine .bind diagnosed_budget ?_
  rintro _ _ ⟨rfl, rfl⟩
  exact diagnosed_itemsWithin some each (Nat.lt_succ_self _)

theorem takes_itemsUntil {close : TokenKind} (some : close ≠ .endOfInput)
    (each : ∀ l', l'.tokens.length ≤ l.tokens.length → Takes text item l') :
    Takes text (itemsUntil close item) l :=
  (diagnosed_itemsUntil (P := fun _ => True) some fun l' hle =>
    (each l' hle).mono fun _ _ h => ⟨h, trivial⟩).mono fun _ _ h => h.1

theorem takes_separatedWithin
    (each : ∀ l', l'.tokens.length ≤ l.tokens.length → Takes text item l')
    (rounds : l.tokens.length < n) : Takes text (separatedWithin item n) l := by
  induction n generalizing l with
  | zero => omega
  | succ n ih =>
      rw [separatedWithin]
      refine .bind (each l (Nat.le_refl _)) fun a l₁ h₁ => ?_
      refine .bind (diagnosed_accepts (by decide)) ?_
      rintro b l₂ (⟨rfl, h₂⟩ | ⟨rfl, rfl⟩)
      · refine .bind (ih (fun l₃ h₃ => each l₃ (by omega)) (by omega)) fun as l₃ h₃ => ?_
        exact .pure (by omega)
      · exact .pure h₁

theorem takes_separated
    (each : ∀ l', l'.tokens.length ≤ l.tokens.length → Takes text item l') :
    Takes text (separated item) l := by
  unfold separated
  refine .bind diagnosed_budget ?_
  rintro _ _ ⟨rfl, rfl⟩
  exact takes_separatedWithin each (Nat.lt_succ_self _)

end Repetitions

/-! ### Names -/

theorem diagnosed_nameParts {n : Nat} (rounds : l.tokens.length < n) :
    Diagnosed text (nameParts n) l fun _ l' => l'.tokens.length ≤ l.tokens.length := by
  induction n generalizing l with
  | zero => omega
  | succ n ih =>
      rw [nameParts]
      refine .bind diagnosed_isAt ?_
      rintro b _ ⟨rfl, dot, rest, hcons, rfl⟩
      refine .ite (fun hdot => ?_) fun _ => .pure (Nat.le_refl _)
      have hend := isEnd_eq_false_of_kind (of_decide_eq_true hdot) (by decide)
      refine .bind (diagnosed_peek 1) ?_
      rintro part _ ⟨rfl, -⟩
      refine .ite (fun _ => ?_) fun _ => .pure (Nat.le_refl _)
      refine .bind (diagnosed_next_of_cons hcons hend) ?_
      rintro _ l₁ ⟨-, -, h₁⟩
      refine .bind diagnosed_next_le ?_
      rintro _ l₂ ⟨-, h₂⟩
      refine .bind (ih (by omega)) fun _ l₃ h₃ => ?_
      exact .pure (by omega)

theorem takes_qualifiedName {g : Grammar} {what : String} :
    Takes text (qualifiedName g what) l := by
  unfold qualifiedName
  refine .bind (diagnosed_skips (by decide)) fun _ l₁ h₁ => ?_
  refine .bind takes_identifier fun _ l₂ h₂ => ?_
  refine .bind diagnosed_budget ?_
  rintro _ _ ⟨rfl, rfl⟩
  refine .bind (diagnosed_nameParts (Nat.lt_succ_self _)) fun _ l₃ h₃ => ?_
  exact .pure (by omega)

/-! ### Literals -/

/-- A string with a backslash that begins no escape is an error of the text. -/
theorem diagnosed_decodeString (t : Token) :
    Diagnosed text (decodeString t) l fun _ l' => l' = l := by
  unfold decodeString
  split
  · exact .pure rfl
  · exact fun _ => .inl trivial

/-- An integer is read, or it has too many digits. -/
theorem diagnosed_decodeInteger {t : Token} (mem : t ∈ text) (kind : t.kind = .integer) :
    Diagnosed text (decodeInteger t) l fun n l' => l' = l ∧ t.integerValue = .ok n := by
  intro hl
  unfold decodeInteger
  rcases IntegerLiteral.read_cases (hl.integers t mem kind) with ⟨-, n, hn⟩ | ⟨hlong, hread⟩
  · rw [hn]
    exact ⟨hl, rfl, hn⟩
  · rw [hread]
    exact .inr (.unread mem kind hlong)

section Literals

variable {t : Token} {rest : List Token}

theorem takes_stringLiteral (cons : l.tokens = t :: rest) (kind : t.kind = .string) :
    Takes text stringLiteral l := by
  unfold stringLiteral
  refine .bind (diagnosed_next_of_cons cons (isEnd_eq_false_of_kind kind (by decide))) ?_
  rintro _ l' ⟨rfl, -, hlt⟩
  refine (diagnosed_decodeString _).mono ?_
  rintro _ _ rfl
  exact hlt

theorem takes_integerLiteral (cons : l.tokens = t :: rest) (kind : t.kind = .integer) :
    Takes text integerLiteral l := by
  unfold integerLiteral
  refine .bind (diagnosed_next_of_cons cons (isEnd_eq_false_of_kind kind (by decide))) ?_
  rintro _ l' ⟨rfl, hmem, hlt⟩
  refine (diagnosed_decodeInteger hmem kind).mono ?_
  rintro _ _ ⟨rfl, -⟩
  exact hlt

theorem takes_floatLiteral (cons : l.tokens = t :: rest) (kind : t.kind = .float) :
    Takes text floatLiteral l := by
  unfold floatLiteral
  refine .bind (diagnosed_next_of_cons cons (isEnd_eq_false_of_kind kind (by decide))) ?_
  rintro _ l' ⟨rfl, -, hlt⟩
  exact .pure hlt

theorem diagnosed_stringLiterals {n : Nat} (rounds : l.tokens.length < n) :
    Diagnosed text (stringLiterals n) l fun _ l' => l'.tokens.length ≤ l.tokens.length := by
  induction n generalizing l with
  | zero => omega
  | succ n ih =>
      rw [stringLiterals]
      refine .bind diagnosed_isAt ?_
      rintro b _ ⟨rfl, t, rest, hcons, rfl⟩
      refine .ite (fun hkind => ?_) fun _ => .pure (Nat.le_refl _)
      refine .bind (takes_stringLiteral hcons (of_decide_eq_true hkind)) fun _ l₁ h₁ => ?_
      refine .bind (ih (by omega)) fun _ l₂ h₂ => ?_
      exact .pure (by omega)

theorem takes_adjacentStrings (cons : l.tokens = t :: rest) (kind : t.kind = .string) :
    Takes text adjacentStrings l := by
  unfold adjacentStrings
  refine .bind (takes_stringLiteral cons kind) fun _ l₁ h₁ => ?_
  refine .bind diagnosed_budget ?_
  rintro _ _ ⟨rfl, rfl⟩
  refine .bind (diagnosed_stringLiterals (Nat.lt_succ_self _)) fun _ l₂ h₂ => ?_
  exact .pure (by omega)

end Literals

end Diagnosed

end Parser

end Proto2

import Proto2.Proofs.Literal.Integer
import Proto2.Proofs.Literal.StringBody
import Proto2.Proofs.Setting.Complete
import Proto2.Proofs.Token.Lexed

/-!
What the parser of settings accepts.

A text is read as a setting to its end exactly if its tokens are derived by the grammar and each
literal among them denotes something: every backslash in a string begins an escape, and no
decimal integer is too long.  What is read is the longest reading.
-/

namespace Proto2

/-! ### Readable literals -/

/-- A literal that can be interpreted: a string in which every backslash begins an escape, or an
integer that is hexadecimal or not too long. -/
def Token.IsReadable (t : Token) : Prop :=
  (t.kind = .string → StringBody.Valid t.lexeme.toList) ∧
    (t.kind = .integer → IntegerLiteral.Bounded t.lexeme.toList)

theorem Token.hasValue_iff {t : Token} (scanned : Lexed.IsScanned t) :
    t.HasValue ↔ t.IsReadable := by
  have hstring : (∃ s, t.stringValue = .ok s) ↔ StringBody.Valid t.lexeme.toList := by
    rw [← StringBody.decode_ok_iff, Token.stringValue]
    cases StringBody.decode t.lexeme.toList <;> simp [Except.map]
  have hinteger (hk : t.kind = .integer) :
      (∃ n, t.integerValue = .ok n) ↔ IntegerLiteral.Bounded t.lexeme.toList := by
    rw [← IntegerLiteral.read_ok_iff (scanned.integerForm hk), Token.integerValue]
  rw [Token.HasValue, Token.IsReadable, hstring]
  constructor
  · exact fun h => ⟨h.1, fun hk => (hinteger hk).mp (h.2 hk)⟩
  · exact fun h => ⟨h.1, fun hk => (hinteger hk).mpr (h.2 hk)⟩

/-- A phrase in which all strings and integers are interpreted, given the categories of which
that is known. -/
def Phrase.interprets (among : List Category) : Phrase → Bool
  | .empty => true
  | .terminal (.kind k) => k ≠ .string && k ≠ .integer
  | .terminal _ => true
  | .category c => c ∈ among
  | .both p q => p.interprets among && q.interprets among
  | .either p q => p.interprets among && q.interprets among
  | .many p => p.interprets among

theorem Derives.readable_of_mem {readable : Token → Prop} (among : List Category) {p : Phrase}
    {ts : List Token} (closed : ∀ c ∈ among, c.rule.interprets among = true)
    (h : Derives readable p ts) (interprets : p.interprets among = true) :
    ∀ t ∈ ts, t.kind = .string ∨ t.kind = .integer → readable t := by
  induction h with
  | empty => simp
  | @terminal x t admitted =>
      intro u hu hk
      cases List.mem_singleton.mp hu
      cases x with
      | kind k =>
          cases admitted
          simp only [Phrase.interprets, Bool.and_eq_true, decide_eq_true_eq] at interprets
          exact absurd hk (not_or.mpr interprets)
      | literal k => exact admitted.2
      | word among => simp [admitted.1] at hk
      | identifierExcept words => simp [admitted.1] at hk
  | @category c ts _ ih =>
      refine ih (closed c ?_)
      simpa [Phrase.interprets] using interprets
  | both _ _ ih₁ ih₂ =>
      simp only [Phrase.interprets, Bool.and_eq_true] at interprets
      intro t ht
      rcases List.mem_append.mp ht with ht | ht
      · exact ih₁ interprets.1 t ht
      · exact ih₂ interprets.2 t ht
  | left _ ih =>
      simp only [Phrase.interprets, Bool.and_eq_true] at interprets
      exact ih interprets.1
  | right _ ih =>
      simp only [Phrase.interprets, Bool.and_eq_true] at interprets
      exact ih interprets.2
  | none => simp
  | more _ _ ih₁ ih₂ =>
      intro t ht
      rcases List.mem_append.mp ht with ht | ht
      · exact ih₁ interprets t ht
      · exact ih₂ interprets t ht

/-- The categories of the grammar of options. -/
def Category.options : List Category :=
  [.name, .constant, .namePart, .setting, .value, .list, .aggregate, .entry, .key,
    .bracketedSettings]

/-- In the grammar of options, literals are readable just if all strings and integers are. -/
theorem Derives.iff_of_options {readable : Token → Prop} {c : Category} {ts : List Token}
    (option : c ∈ Category.options)
    (other : ∀ t : Token, t.kind ≠ .string → t.kind ≠ .integer → readable t) :
    Derives readable (.category c) ts ↔
      Derives (fun _ => True) (.category c) ts ∧ ∀ t ∈ ts, readable t := by
  constructor
  · intro h
    refine ⟨h.mono fun _ _ _ => trivial, fun t ht => ?_⟩
    by_cases hk : t.kind = .string ∨ t.kind = .integer
    · exact h.readable_of_mem Category.options (by decide)
        (by simpa [Phrase.interprets] using option) t ht hk
    · exact other t (not_or.mp hk).1 (not_or.mp hk).2
  · rintro ⟨h, readable⟩
    exact h.mono fun t ht _ => readable t ht

/-! ### Texts read to their end -/

/-- The next token is the end of the input. -/
def TokenStream.AtEnd (s : TokenStream) : Prop :=
  ∃ e, s.left = ⟨[e], none⟩ ∧ e.isEnd = true

/-- On the text, the parser succeeds with the given result and stops at the end. -/
def Parser.ReadsToEnd {α : Type} (p : Parser α) (file : String) (source : List Char) (a : α) :
    Prop :=
  ∃ s, p.run (.ofText file source) = .ok a s ∧ s.AtEnd

namespace Parser

variable {α : Type} {p : Parser α} [TokenDriven p] {file : String} {source : List Char} {a : α}

theorem ReadsToEnd.reads (h : ReadsToEnd p file source a) :
    ∃ ts e, TokensOf file source ts e ∧ ∃ e', e'.isEnd = true ∧ Reads p (ts ++ [e]) a [e'] := by
  obtain ⟨s, hrun, e', hleft, he'⟩ := h
  have hrun : p (.ofText file source) = .ok a s := hrun
  have hnone : (Lexed.ofText file source).failure = none :=
    (TokenDriven.failure_eq _ a s hrun).symm.trans (congrArg Lexed.failure hleft)
  obtain ⟨ts, e, tokens⟩ := Lexed.exists_tokensOf hnone
  have houtcome := TokenDriven.outcome_eq (p := p) (.ofText file source)
  rw [hrun, outcomeOf, hleft, TokenStream.ofText, TokenStream.left_ofLexed, tokens.1] at houtcome
  exact ⟨ts, e, tokens, e', he', houtcome.symm⟩

theorem ReadsToEnd.of_reads {ts : List Token} {e : Token} (tokens : TokensOf file source ts e)
    (h : Reads p (ts ++ [e]) a [e]) : ReadsToEnd p file source a := by
  have houtcome := TokenDriven.outcome_eq (p := p) (.ofText file source)
  rw [TokenStream.ofText, TokenStream.left_ofLexed, tokens.1] at houtcome
  obtain ⟨s, hrun, hleft⟩ := outcomeOf_eq_ok.mp (houtcome.trans h)
  refine ⟨s, ?_, e, hleft, tokens.2⟩
  rw [TokenStream.ofText, tokens.1]
  exact hrun

end Parser

theorem Token.hasValue_of_other (t : Token) (string : t.kind ≠ .string)
    (integer : t.kind ≠ .integer) : t.HasValue :=
  ⟨fun h => absurd h string, fun h => absurd h integer⟩

/-- The tokens of a text are derived by a category of the grammar of options with literals that
denote something if and only if they are derived and all literals are readable. -/
theorem TokensOf.derives_iff {file : String} {source : List Char} {ts : List Token} {e : Token}
    {c : Category} (tokens : TokensOf file source ts e) (option : c ∈ Category.options) :
    Derives Token.HasValue (.category c) ts ↔
      Derives (fun _ => True) (.category c) ts ∧ ∀ t ∈ ts, t.IsReadable := by
  rw [Derives.iff_of_options option Token.hasValue_of_other]
  refine and_congr_right fun _ => forall₂_congr fun t ht => ?_
  exact Token.hasValue_iff (tokens.isScanned t ht)

/-- A reading that ends where the tokens end takes all of them. -/
theorem Begins.derives_to_end {readable : Token → Prop} {p : Phrase} {ts : List Token}
    {e e' : Token} (h : Begins readable p (ts ++ [e]) [e']) : e' = e ∧ Derives readable p ts := by
  obtain ⟨d, heq, derived⟩ := h
  obtain ⟨rfl, he⟩ := List.append_inj' heq rfl
  cases he
  exact ⟨rfl, derived⟩

namespace Parser

variable {α : Type} {p : Parser α} [TokenDriven p] {At : List Token → α → List Token → Prop}
  {c : Category} {file : String} {source : List Char}

theorem readsToEnd_iff (reads : ∀ {ts a us}, Reads p ts a us ↔ At ts a us)
    (begins : ∀ {ts a us}, At ts a us → Begins Token.HasValue (.category c) ts us) (a : α) :
    ReadsToEnd p file source a ↔ ∃ ts e, TokensOf file source ts e ∧ At (ts ++ [e]) a [e] := by
  constructor
  · intro h
    obtain ⟨ts, e, tokens, e', -, hreads⟩ := h.reads
    have hat := reads.mp hreads
    obtain ⟨rfl, -⟩ := (begins hat).derives_to_end
    exact ⟨ts, e', tokens, hat⟩
  · rintro ⟨ts, e, tokens, hat⟩
    exact .of_reads tokens (reads.mpr hat)

theorem exists_readsToEnd_iff (option : c ∈ Category.options)
    (reads : ∀ {ts a us}, Reads p ts a us ↔ At ts a us)
    (begins : ∀ {ts a us}, At ts a us → Begins Token.HasValue (.category c) ts us)
    (complete : ∀ {ts e}, e.isEnd = true → Derives Token.HasValue (.category c) ts →
      ∃ a, At (ts ++ [e]) a [e]) :
    (∃ a, ReadsToEnd p file source a) ↔
      ∃ ts e, TokensOf file source ts e ∧ Derives (fun _ => True) (.category c) ts ∧
        ∀ t ∈ ts, t.IsReadable := by
  constructor
  · rintro ⟨a, h⟩
    obtain ⟨ts, e, tokens, hat⟩ := (readsToEnd_iff reads begins a).mp h
    exact ⟨ts, e, tokens, (tokens.derives_iff option).mp (begins hat).derives⟩
  · rintro ⟨ts, e, tokens, h⟩
    obtain ⟨a, hat⟩ := complete tokens.2 ((tokens.derives_iff option).mpr h)
    exact ⟨a, (readsToEnd_iff reads begins a).mpr ⟨ts, e, tokens, hat⟩⟩

end Parser

theorem notAtKind_of_isEnd {e : Token} {kind : TokenKind} (h : e.isEnd = true)
    (other : kind ≠ .endOfInput) : NotAtKind kind [e] := by
  have he : e.kind = .endOfInput := by simpa [Token.isEnd] using h
  simpa [he] using other.symm

/-- A text is read to its end as a setting, or as settings between brackets, if and only if its
tokens are derived by the grammar, with an escape behind every backslash in a string and no
decimal integer too long.  What is read is the longest reading of the tokens. -/
theorem settings_accepted_iff_derived (file : String) (source : List Char) :
    ((∃ s, Parser.ReadsToEnd Parser.setting file source s) ↔
      ∃ ts e, TokensOf file source ts e ∧ Derives (fun _ => True) (.category .setting) ts ∧
        ∀ t ∈ ts, t.IsReadable) ∧
    (∀ s, Parser.ReadsToEnd Parser.setting file source s ↔
      ∃ ts e, TokensOf file source ts e ∧ Stands (.setting s) (ts ++ [e]) [e]) ∧
    ((∃ ss, Parser.ReadsToEnd Parser.bracketedSettings file source ss) ↔
      ∃ ts e, TokensOf file source ts e ∧
        Derives (fun _ => True) (.category .bracketedSettings) ts ∧ ∀ t ∈ ts, t.IsReadable) ∧
    (∀ ss, Parser.ReadsToEnd Parser.bracketedSettings file source ss ↔
      ∃ ts e, TokensOf file source ts e ∧ BracketedAt (ts ++ [e]) ss [e]) := by
  have complete : ∀ {ts e}, Token.isEnd e = true →
      Derives Token.HasValue (.category .setting) ts → ∃ s, Stands (.setting s) (ts ++ [e]) [e] :=
    fun he h => h.stands_setting (notAtKind_of_isEnd he (by decide))
      (notAtKind_of_isEnd he (by decide))
  refine ⟨?_, ?_, ?_, ?_⟩
  · exact Parser.exists_readsToEnd_iff (by decide) Parser.reads_setting Stands.begins complete
  · exact Parser.readsToEnd_iff Parser.reads_setting Stands.begins
  · exact Parser.exists_readsToEnd_iff (by decide) Parser.reads_bracketedSettings
      BracketedAt.begins fun _ h => h.bracketedAt _
  · exact Parser.readsToEnd_iff Parser.reads_bracketedSettings BracketedAt.begins

end Proto2

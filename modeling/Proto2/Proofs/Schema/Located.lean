import Proto2.Proofs.Schema.Along
import Proto2.Proofs.Setting.Accepts
import Proto2.Proofs.Token.Account

/-!
Where errors are reported.

An error with a place is reported at a token of the text, or it is the lexical error behind the
tokens.  So its place is as exact as theirs are, and what ends before it are the tokens that the
parser has found viable: no error is reported later than it could have been.
-/

namespace Proto2

namespace Lexed

variable {file : String} {source : List Char} {n : Nat} {l : Lexed} {e : ParseError}
  {us vs : List Token}

/-- Only the last token can be the end of the input, and there is no error behind it. -/
theorem Covers.last_of_end (h : Covers file source n l) {before after : List Token} {t : Token}
    (tokens : l.tokens = before ++ t :: after) (isEnd : t.kind = .endOfInput) :
    after = [] ∧ l.failure = none := by
  induction h generalizing before with
  | ended =>
      cases before with
      | nil =>
          cases tokens
          exact ⟨rfl, rfl⟩
      | cons u before => simp at tokens
  | failed => simp at tokens
  | push _ hne _ _ ih =>
      cases before with
      | nil =>
          cases tokens
          exact absurd isEnd hne
      | cons u before => exact ih (List.cons.inj tokens).2

/-- The tokens of the text that end at a position or before it, the end of the input apart. -/
def tokensUpTo (l : Lexed) (p : Position) : List Token :=
  l.tokens.filter fun t => t.kind ≠ .endOfInput ∧ t.span.stop.offset ≤ p.offset

/-- The tokens that end before an error are those in front of which it does not stand. -/
theorem Covers.tokensUpTo_eq (h : Covers file source n l) (tokens : l.tokens = us ++ vs)
    (stands : e.StandsAt vs l.failure) : l.tokensUpTo e.span.start = us := by
  have hbefore : ∀ t ∈ us, t.kind ≠ .endOfInput ∧ t.span.stop.offset ≤ e.span.start.offset := by
    intro t ht
    obtain ⟨before, after, rfl⟩ := List.append_of_mem ht
    rw [List.append_assoc, List.cons_append] at tokens
    rcases stands with ⟨u, rest, rfl, hspan⟩ | ⟨e', rfl, hfailure, rfl⟩
    · constructor
      · intro hend
        have hlast := (h.last_of_end tokens hend).1
        simp at hlast
      · have hpairwise := h.pairwise
        rw [tokens, List.pairwise_append] at hpairwise
        rw [hspan]
        exact List.rel_of_pairwise_cons hpairwise.2.1 (by simp)
    · constructor
      · intro hend
        rw [(h.last_of_end tokens hend).2] at hfailure
        cases hfailure
      · exact (h.failure hfailure).2.2 t (by simp [tokens])
  have hbehind : ∀ t ∈ vs, t.kind ≠ .endOfInput → e.span.start.offset < t.span.stop.offset := by
    intro t ht hne
    rcases stands with ⟨u, rest, rfl, hspan⟩ | ⟨e', rfl, -, -⟩
    · rw [hspan]
      have hlt := h.start_lt_stop t (by simp [tokens, ht]) hne
      rcases List.mem_cons.mp ht with rfl | ht
      · exact hlt
      · have hpairwise := h.pairwise
        rw [tokens, List.pairwise_append] at hpairwise
        have hle : u.span.stop.offset ≤ t.span.start.offset :=
          List.rel_of_pairwise_cons hpairwise.2.1 ht
        obtain ⟨m, -, hu⟩ := h.follows u (by simp [tokens])
        have hforwards := hu.isExact.forwards
        omega
    · cases ht
  rw [tokensUpTo, tokens, List.filter_append]
  have hall : us.filter (fun t => t.kind ≠ .endOfInput ∧
      t.span.stop.offset ≤ e.span.start.offset) = us :=
    List.filter_eq_self.mpr fun t ht => decide_eq_true (hbefore t ht)
  have hnone : vs.filter (fun t => t.kind ≠ .endOfInput ∧
      t.span.stop.offset ≤ e.span.start.offset) = [] := by
    refine List.filter_eq_nil_iff.mpr fun t ht hkept => ?_
    obtain ⟨hne, hle⟩ := of_decide_eq_true hkept
    have hlt := hbehind t ht hne
    omega
  rw [hall, hnone, List.append_nil]

end Lexed

/-- The outcome of a parser that goes along a phrase. -/
theorem Parser.Along.inPlace {α : Type} {g : Phrase} {p : Parser α} {l : Lexed} {Q : α → Prop}
    {failure : Failure} (along : Along g p l Q) (outcome : p.outcome l = .error failure) :
    failure.InPlace g l := by
  unfold Along at along
  rw [outcome] at along
  exact along

/-- Errors are never reported late.  The tokens that end at or before the place of an error begin a
sequence that the grammar of files derives. -/
theorem error_reported_in_time {fileName source : String} {e : ParseError}
    (refused : SchemaFile.parse fileName source = .error (.parse e)) :
    ∃ rest, (∀ t ∈ rest, Lexed.IsScanned t) ∧
      Derives Token.IsReadable (.category .file)
        ((Lexed.ofText fileName source.toList).tokensUpTo e.span.start ++ rest) := by
  have houtcome := SchemaFile.outcome_of_parse_error refused
  obtain ⟨us, vs, htokens, ⟨rest, hscanned, hderives⟩, hstands⟩ :=
    Parser.along_file.inPlace houtcome
  have hcovers := Lexed.covers_ofText fileName source.toList
  have hupTo := hcovers.tokensUpTo_eq htokens hstands
  refine ⟨rest, hscanned, ?_⟩
  rw [hupTo]
  refine hderives.mono fun t ht => (Token.hasValue_iff ?_).mp
  rcases List.mem_append.mp ht with ht | ht
  · -- The tokens before the error are read from the text.
    obtain ⟨ts, hts, htext⟩ := Lexed.wellFormed_ofText fileName source.toList
    rw [← hupTo, Lexed.tokensUpTo, List.mem_filter] at ht
    obtain ⟨hmem, hkept⟩ := ht
    rcases htext with ⟨eof, heq, hend, -⟩ | ⟨heq, -⟩
    · rw [heq, List.mem_append, List.mem_singleton] at hmem
      rcases hmem with hmem | rfl
      · exact hts t hmem
      · exact absurd hend (of_decide_eq_true hkept).1
    · exact hts t (heq ▸ hmem)
  · exact hscanned t ht

/-- The character behind the name is met while looking whether a value of the enum starts there. -/
theorem error_reported_in_time_in_enum :
    let source := "enum A \x7b option $ = 1; \x7d"
    let e := ParseError.lexical
      ⟨⟨"a.proto", ⟨16, 1, 17⟩, ⟨17, 1, 18⟩⟩, .unexpectedCharacter '$'⟩
    let upTo := (Lexed.ofText "a.proto" source.toList).tokensUpTo e.span.start
    SchemaFile.parse "a.proto" source = .error (.parse e) ∧
      upTo.map (·.lexeme) = ["enum", "A", "\x7b", "option"] ∧
      ∃ rest, (∀ t ∈ rest, Lexed.IsScanned t) ∧
        Derives Token.IsReadable (.category .file) (upTo ++ rest) := by
  intro source e upTo
  have hparse : SchemaFile.parse "a.proto" source = .error (.parse e) :=
    SchemaFile.parse_eq_error (by decide +kernel)
  exact ⟨hparse, by decide +kernel, error_reported_in_time hparse⟩

/-! ### Exact positions -/

/-- What is left to read of the stream is of the text. -/
structure TokenStream.IsOf (s : TokenStream) (l : Lexed) : Prop where
  tokens : s.tokens ⊆ l.tokens
  failure : ∀ e ∈ s.failure, l.failure = some e

theorem TokenStream.isOf_ofLexed (l : Lexed) : (ofLexed l).IsOf l where
  tokens := List.Subset.refl _
  failure := fun _ he => he

section Exact

variable {file : String} {source : List Char}

theorem Lexed.isExact_of_mem {t : Token} (mem : t ∈ (ofText file source).tokens) :
    t.span.IsExact file source ∧ ∀ c ∈ t.comments, c.span.IsExact file source := by
  obtain ⟨m, -, ht⟩ := (covers_ofText file source).follows t mem
  exact ⟨ht.isExact, fun c hc => (ht.comments c hc).isExact⟩

/-- An error of a parser that goes along a phrase is reported at an exact place. -/
theorem Parser.isExact_of_run_error {α : Type} {g : Phrase} {p : Parser α} [TokenDriven p]
    {Q : α → Prop} (along : ∀ l, Along g p l Q) {s s' : TokenStream} {e : ParseError}
    (isOf : s.IsOf (Lexed.ofText file source)) (run : p.run s = .error (.parse e) s') :
    e.span.IsExact file source := by
  have houtcome := TokenDriven.outcome_eq (p := p) s
  rw [show p s = .error (.parse e) s' from run] at houtcome
  obtain ⟨us, vs, htokens, -, hstands⟩ := (along s.left).inPlace houtcome.symm
  rcases hstands with ⟨t, rest, rfl, hspan⟩ | ⟨e', -, hfailure, rfl⟩
  · have hmem : t ∈ s.tokens := by
      rw [show s.tokens = us ++ t :: rest from htokens]
      simp
    rw [hspan]
    exact (Lexed.isExact_of_mem (isOf.tokens hmem)).1
  · exact ((Lexed.covers_ofText file source).failure (isOf.failure e' hfailure)).1

end Exact

/-- Positions are exact: in the tokens of a text and the comments attached to them, in the lexical
error, and in every error that is reported when the text is parsed, or while it or what is left of
it is read as a file, a value, a setting or settings between brackets. -/
theorem positions_exact (file source : String) :
    (∀ t ∈ (Lexed.ofText file source.toList).tokens,
      t.span.IsExact file source.toList ∧ ∀ c ∈ t.comments, c.span.IsExact file source.toList) ∧
    (∀ e, (Lexed.ofText file source.toList).failure = some e →
      e.span.IsExact file source.toList) ∧
    (∀ e, SchemaFile.parse file source = .error (.parse e) →
      e.span.IsExact file source.toList) ∧
    ∀ s : TokenStream, s.IsOf (Lexed.ofText file source.toList) → ∀ e s',
      (Parser.file file).run s = .error (.parse e) s' ∨
        Parser.value.run s = .error (.parse e) s' ∨
        Parser.setting.run s = .error (.parse e) s' ∨
        Parser.bracketedSettings.run s = .error (.parse e) s' →
      e.span.IsExact file source.toList := by
  have hstream (s : TokenStream) (isOf : s.IsOf (Lexed.ofText file source.toList))
      (e : ParseError) (s' : TokenStream)
      (hrun : (Parser.file file).run s = .error (.parse e) s') :
      e.span.IsExact file source.toList :=
    Parser.isExact_of_run_error (fun _ => Parser.along_file) isOf hrun
  refine ⟨fun t => Lexed.isExact_of_mem, fun e he => ?_, fun e hparse => ?_,
    fun s isOf e s' hrun => ?_⟩
  · exact ((Lexed.covers_ofText file source.toList).failure he).1
  · rw [SchemaFile.parse] at hparse
    split at hparse
    · cases hparse
    · rename_i failure s' hrun
      cases hparse
      exact hstream _ (TokenStream.isOf_ofLexed _) e s' hrun
  · rcases hrun with hrun | hrun | hrun | hrun
    · exact hstream s isOf e s' hrun
    · exact Parser.isExact_of_run_error (fun _ => Parser.along_value) isOf hrun
    · exact Parser.isExact_of_run_error (fun _ => Parser.along_setting) isOf hrun
    · exact Parser.isExact_of_run_error (fun _ => Parser.along_bracketedSettings) isOf hrun

/-- A comment over two lines, and a string that is not closed behind it. -/
theorem positions_exact_behind_comment :
    let source := "enum A\n\x7b\n/* b\n*/ option 'c\n"
    let l := Lexed.ofText "a.proto" source.toList
    let e := LexicalError.mk ⟨"a.proto", ⟨24, 4, 11⟩, ⟨26, 4, 13⟩⟩ .unterminatedString
    (∃ t ∈ l.tokens, ∃ c ∈ t.comments,
      t.span.IsExact "a.proto" source.toList ∧ c.span.IsExact "a.proto" source.toList) ∧
    (l.failure = some e ∧ SchemaFile.parse "a.proto" source = .error (.parse (.lexical e)) ∧
      e.span.IsExact "a.proto" source.toList) ∧
    ∃ e s', Parser.setting.run (.ofLexed l) = .error (.parse e) s' ∧
      e.span.IsExact "a.proto" source.toList := by
  intro source l e
  obtain ⟨htokens, hlexical, hparse, hrun⟩ := positions_exact "a.proto" source
  have hcomment : ∃ t ∈ l.tokens, ∃ c ∈ t.comments, c.text = "/* b\n*/" := by decide +kernel
  have hfailure : l.failure = some e := by decide +kernel
  have hfile : SchemaFile.parse "a.proto" source = .error (.parse (.lexical e)) :=
    SchemaFile.parse_eq_error (by decide +kernel)
  have hsetting : (Parser.outcomeOf (Parser.setting.run (.ofLexed l))).map (fun _ => ()) =
      .error (.parse (.grammar .option
        ⟨.identifier, "A", ⟨"a.proto", ⟨5, 1, 6⟩, ⟨6, 1, 7⟩⟩, []⟩
        (.expected "'=' after option name"))) := by decide +kernel
  obtain ⟨s', hstopped⟩ := Parser.outcomeOf_eq_error.mp (except_map_eq_error.mp hsetting)
  obtain ⟨t, ht, c, hc, -⟩ := hcomment
  refine ⟨⟨t, ht, c, hc, (htokens t ht).1, (htokens t ht).2 c hc⟩,
    ⟨hfailure, hfile, hlexical e hfailure⟩, _, s', hstopped, ?_⟩
  exact hrun _ (TokenStream.isOf_ofLexed l) _ s' (.inr (.inr (.inl hstopped)))

end Proto2

import Proto2.Proofs.Parser.Alike
import Proto2.Proofs.Schema.Passage
import Proto2.Proofs.Token.Reached

/-!
Which bracket is named where one is not closed.

Every body, list and aggregate remembers the token that opens it.  When the input ends inside, the
token that is remembered by the innermost of them is the innermost unclosed bracket of the whole
text, so the hint points there.
-/

namespace Proto2

/-! ### Messages about brackets -/

namespace Failure

/-- The messages that a bracket is not closed. -/
def unclosedMessages : List String :=
  ["unexpected end of input", "unbalanced '['", "unbalanced '\x7b'"]

/-- Whatever follows it, the text is not the beginning of a message that a bracket is not closed. -/
def BeginsOther (text : String) : Prop :=
  ∀ m ∈ unclosedMessages, ¬ text.toList <+: m.toList

instance (text : String) : Decidable (BeginsOther text) :=
  inferInstanceAs (Decidable (∀ m ∈ unclosedMessages, ¬ text.toList <+: m.toList))

namespace BeginsOther

variable {text : String}

theorem append {rest : String} (h : BeginsOther text) : BeginsOther (text ++ rest) := by
  intro m mem longer
  rw [String.toList_append] at longer
  exact h m mem ((List.prefix_append _ _).trans longer)

theorem not_mem (h : BeginsOther text) : text ∉ unclosedMessages :=
  fun mem => h text mem (List.prefix_refl _)

/-- Of a quoted text only the quote matters. -/
theorem quoted {s : String} (single : BeginsOther (text ++ "'"))
    (double : BeginsOther (text ++ "\"")) : BeginsOther (text ++ Text.quotedString s) := by
  have heq : Text.quotedString s = String.singleton (Text.enclosingQuote s.toList) ++
      String.ofList (s.toList.flatMap (Text.quotedChar (Text.enclosingQuote s.toList)) ++
        [Text.enclosingQuote s.toList]) := by
    apply String.toList_injective
    simp [Text.quotedString, Text.quoted]
  rw [heq, ← String.append_assoc]
  refine append ?_
  unfold Text.enclosingQuote
  split
  · exact double
  · exact single

/-- A token that is not expected is the end of the input, or the message goes on differently. -/
theorem unexpected {t : Token} {place : String}
    (other : BeginsOther ("unexpected end of input" ++ place)) :
    BeginsOther ("unexpected " ++ t.describe ++ place) := by
  unfold Token.describe
  split
  case h_1 => exact other
  case h_2 =>
      have hstring : BeginsOther ("unexpected " ++ "string literal") := by decide +kernel
      exact hstring.append
  all_goals exact (quoted (by decide +kernel) (by decide +kernel)).append

theorem of_lexical (cause : LexicalCause) : BeginsOther cause.message := by
  cases cause with
  | unexpectedCharacter c => exact append (by decide +kernel)
  | invalidEscape c => exact append (by decide +kernel)
  | _ => decide +kernel

theorem of_numeral (e : Numeral.ReadError) : BeginsOther e.message := by
  cases e with
  | malformed base text => exact append (append (append (by decide +kernel)))
  | tooManyDigits count => exact append (append (append (append (by decide +kernel))))

theorem of_model (e : ModelError) : BeginsOther e.message := by
  cases e with
  | illegalTag owner tag => exact append (by decide +kernel)
  | duplicateTag scope tag => exact append (append (append (by decide +kernel)))
  | duplicateValueName scope name => exact append (append (append (by decide +kernel)))
  | illegalRange start stop => exact append (append (append (by decide +kernel)))
  | multipleOptions name => exact append (by decide +kernel)

theorem of_build (e : BuildError) : BeginsOther e.message := by
  cases e with
  | invalid e => exact of_model e
  | unwritable e =>
      cases e
      decide +kernel
  | unknownLabel text =>
      have hquoted : BeginsOther ("" ++ Text.quotedString text) :=
        quoted (by decide +kernel) (by decide +kernel)
      rw [String.empty_append] at hquoted
      exact hquoted.append

end BeginsOther

/-- Only two causes have such a message. -/
theorem unclosed_of_mem {found : Token} {cause : GrammarCause}
    (mem : cause.message found ∈ unclosedMessages) :
    (∃ opened, cause = .unclosedBody opened) ∨
      ∃ bracket opened, cause = .unbalanced bracket opened := by
  have habsurd (other : BeginsOther (cause.message found)) : False := other.not_mem mem
  cases cause with
  | unclosedBody opened => exact .inl ⟨opened, rfl⟩
  | unbalanced bracket opened => exact .inr ⟨bracket, opened, rfl⟩
  | notADeclaration => exact (habsurd (.unexpected (by decide +kernel))).elim
  | misplaced body name =>
      exact (habsurd (.append (.append (.append (.unexpected (by decide +kernel)))))).elim
  | expected what => exact (habsurd (.append (.append (.append (by decide +kernel))))).elim
  | duplicatePackage package =>
      have hother : BeginsOther "duplicate package declaration" := by decide +kernel
      exact (habsurd hother).elim
  | notAValue => exact (habsurd (.append (by decide +kernel))).elim
  | missingColon key => exact (habsurd (.append (.append (.append (by decide +kernel))))).elim

/-- A failure with such a message is an error of the grammar. -/
theorem grammar_of_mem {failure : Failure} (mem : failure.message ∈ unclosedMessages) :
    ∃ g found cause, failure = .parse (.grammar g found cause) ∧
      cause.message found ∈ unclosedMessages := by
  cases failure with
  | parse e =>
      cases e with
      | lexical e => exact absurd mem (BeginsOther.of_lexical e.cause).not_mem
      | grammar g found cause => exact ⟨g, found, cause, rfl, mem⟩
  | build e => exact absurd mem (BeginsOther.of_build e).not_mem
  | numeral e => exact absurd mem (BeginsOther.of_numeral e).not_mem
  | noToken => exact absurd mem (by decide +kernel)
  | outOfBudget => exact absurd mem (by decide +kernel)

end Failure

/-! ### The innermost bracket of a text -/

/-- A bracket of a text is written as it is shown. -/
theorem Lexed.IsScanned.lexeme_of_closer {t : Token} (h : IsScanned t)
    (opens : t.kind.closer?.isSome = true) : t.lexeme = t.kind.shown := by
  obtain ⟨c, cs, s, hscan, hkind, hlexeme⟩ := h
  rw [hkind] at opens
  have hstring : s.kind ≠ .string := fun h => by
    rw [h] at opens
    cases opens
  have hform := (isLongest_of_scan hscan hstring).isLexeme
  rw [hkind, hlexeme]
  generalize s.kind = kind, s.lexeme = text at hform opens
  cases hform with
  | identifier | integer | float => cases opens
  | symbol symbol =>
      unfold TokenKind.ofSymbol? at symbol
      split at symbol <;> cases symbol <;> rfl

/-- Where the input ends the whole text has been passed over, so the bracket that waits there is the
innermost unclosed one of the text. -/
theorem Brackets.EndsWithin.isInnermost {file : String} {source : List Char} {o e : Token}
    (h : EndsWithin [] (Lexed.ofText file source).tokens o e) :
    (Lexed.ofText file source).failure = none ∧
      IsInnermost (Lexed.ofText file source).tokens o := by
  obtain ⟨passed, rest, outer, htokens, hend, hwaits⟩ := h
  have hkind : e.kind = .endOfInput := of_decide_eq_true hend
  have hmem : e ∈ (Lexed.ofText file source).tokens := by
    rw [htokens]
    simp
  have hnone := Lexed.failure_eq_none hmem hkind
  obtain ⟨ts, eof, htext⟩ := Lexed.exists_tokensOf hnone
  have hsuffix : e :: rest <:+ ts ++ [eof] := by
    rw [htext.1] at htokens
    exact ⟨passed, htokens.symm⟩
  obtain ⟨-, rfl⟩ := htext.eq_of_suffix hsuffix hkind
  refine ⟨hnone, isInnermost_iff.mpr ⟨outer, ?_⟩⟩
  rw [htokens, unclosed_append_of_eq hwaits, unclosed_singleton, step_other (by rw [hkind]; rfl)]

/-- Hints about unclosed brackets name the right bracket.  When a source is refused with the message
that the input ends too early or that a bracket is unbalanced, it has no lexical error, and the hint
points to its innermost unclosed bracket: a brace in the first case, and in the second case the
bracket that the message shows. -/
theorem unclosed_bracket_named {fileName source : String} {failure : Failure}
    (refused : SchemaFile.parse fileName source = .error failure)
    (message : failure.message ∈ Failure.unclosedMessages) :
    ∃ e o, failure = .parse e ∧ (Lexed.ofText fileName source.toList).failure = none ∧
      Brackets.IsInnermost (Lexed.ofText fileName source.toList).tokens o ∧
      (e.message = "unexpected end of input" ∧ o.kind = .openBrace ∧
          e.hint? = some ("missing '\x7d' for '\x7b' at " ++ o.span.format) ∨
        e.message = "unbalanced " ++ Text.quotedString o.kind.shown ∧
          e.hint? = some ("opened at " ++ o.span.format)) := by
  have hpasses : Parser.Passes 0 [] [] (Parser.file fileName)
      (Lexed.ofText fileName source.toList) := Parser.passes_file
  rw [Parser.Passes, Parser.Proceeds, SchemaFile.outcome_of_parse_error refused] at hpasses
  obtain ⟨g, found, cause, rfl, hmessage⟩ := Failure.grammar_of_mem message
  obtain ⟨opened, rfl⟩ | ⟨bracket, opened, rfl⟩ := Failure.unclosed_of_mem hmessage
  · obtain ⟨o, hwithin, hkind, rfl⟩ := hpasses.2
    obtain ⟨hnone, hinnermost⟩ := hwithin.isInnermost
    exact ⟨_, o, rfl, hnone, hinnermost, .inl ⟨rfl, hkind, rfl⟩⟩
  · obtain ⟨o, hwithin, rfl, rfl⟩ := hpasses.2
    obtain ⟨hnone, hinnermost⟩ := hwithin.isInnermost
    obtain ⟨before, behind, outer, htokens, hopens, -⟩ := id hinnermost
    have hmem : o ∈ (Lexed.ofText fileName source.toList).tokens := by
      rw [htokens]
      simp
    have hscanned : Lexed.IsScanned o := by
      refine Lexed.isScanned_of_mem hmem fun hkind => ?_
      rw [hkind] at hopens
      cases hopens
    refine ⟨_, o, rfl, hnone, hinnermost, .inr ⟨?_, rfl⟩⟩
    rw [← hscanned.lexeme_of_closer hopens]
    rfl

/-- The brackets around the name of the extension and around the inner list are closed, and the one
of the list between them is not. -/
theorem unclosed_bracket_named_in_list :
    let source := "message A \x7b option a = \x7b [c]: [x, [y],"
    let e : ParseError := .grammar .option
      ⟨.endOfInput, "", ⟨"a.proto", ⟨38, 1, 39⟩, ⟨38, 1, 39⟩⟩, []⟩
      (.unbalanced "[" ⟨"a.proto", ⟨30, 1, 31⟩, ⟨31, 1, 32⟩⟩)
    SchemaFile.parse "a.proto" source = .error (.parse e) ∧
      e.text = "a.proto:1:39: unbalanced '['\nhint: opened at a.proto:1:31" ∧
      ∃ o, Brackets.IsInnermost (Lexed.ofText "a.proto" source.toList).tokens o ∧
        e.message = "unbalanced " ++ Text.quotedString o.kind.shown ∧
        e.hint? = some ("opened at " ++ o.span.format) := by
  intro source e
  have hparse : SchemaFile.parse "a.proto" source = .error (.parse e) :=
    SchemaFile.parse_eq_error (by decide +kernel)
  refine ⟨hparse, by decide +kernel, ?_⟩
  obtain ⟨_, o, heq, -, hinnermost, ⟨hmessage, -⟩ | hnamed⟩ :=
    unclosed_bracket_named hparse (by decide +kernel)
  · cases heq
    exact absurd hmessage (by decide +kernel)
  · cases heq
    exact ⟨o, hinnermost, hnamed⟩

end Proto2

import Proto2.Proofs.Schema.Progress
import Proto2.Proofs.Schema.Valid

/-!
Reading the pieces of declarations: option statements, fields, extension ranges and the values
of enums.  What is built on the way is built exactly if it is legal.
-/

namespace Proto2.Parser

variable {α : Type} {ts us : List Token} {t : Token}

instance tokenDriven_documentation : TokenDriven documentation := by
  unfold documentation
  infer_instance

instance tokenDriven_semicolon : TokenDriven semicolon := by
  unfold semicolon
  infer_instance

instance tokenDriven_tagNumber : TokenDriven tagNumber := by
  unfold tagNumber
  infer_instance

instance tokenDriven_optionStatement : TokenDriven optionStatement := by
  unfold optionStatement
  infer_instance

instance tokenDriven_trailingSettings : TokenDriven trailingSettings := by
  unfold trailingSettings
  infer_instance

instance tokenDriven_field : TokenDriven field := by
  unfold field
  infer_instance

instance tokenDriven_extensionRange (doc : String) : TokenDriven (extensionRange doc) := by
  unfold extensionRange
  infer_instance

instance tokenDriven_extensionRanges : TokenDriven extensionRanges := by
  unfold extensionRanges
  infer_instance

instance tokenDriven_enumValue : TokenDriven enumValue := by
  unfold enumValue
  infer_instance

theorem reads_bind_documentation {f : String → Parser α} [∀ d, TokenDriven (f d)] {a : α} :
    Reads (documentation >>= f) ts a us ↔
      ∃ t rest, ts = t :: rest ∧ Reads (f t.documentation) ts a us := by
  simp only [documentation, reads_bind, reads_peek_zero, reads_pure]
  constructor
  · rintro ⟨_, _, ⟨t, _, ⟨rfl, rest, rfl⟩, rfl, rfl⟩, h⟩
    exact ⟨t, rest, rfl, h⟩
  · rintro ⟨t, rest, rfl, h⟩
    exact ⟨_, _, ⟨t, _, ⟨rfl, rest, rfl⟩, rfl, rfl⟩, h⟩

theorem reads_semicolon {u : Unit} : Reads semicolon ts u us ↔ TokenAt .semicolon ts us := by
  simp only [semicolon, reads_bind, reads_expect (by decide : TokenKind.semicolon ≠ _),
    reads_pure, TokenAt]
  constructor
  · rintro ⟨t, _, h, -, rfl⟩
    exact ⟨t, h⟩
  · rintro ⟨t, h⟩
    exact ⟨t, us, h, trivial, rfl⟩

theorem reads_tagNumber {n : Int} :
    Reads tagNumber ts n us ↔ ∃ t, ts = t :: us ∧ t.kind = .integer ∧ t.integerValue = .ok n := by
  simp only [tagNumber, reads_bind, reads_expect (by decide : TokenKind.integer ≠ _),
    reads_decodeInteger]
  constructor
  · rintro ⟨t, _, ⟨rfl, hk⟩, hv, rfl⟩
    exact ⟨t, rfl, hk, hv⟩
  · rintro ⟨t, rfl, hk, hv⟩
    exact ⟨t, us, ⟨rfl, hk⟩, hv, rfl⟩

theorem reads_optionStatement {s : Setting} :
    Reads optionStatement ts s us ↔ OptionAt ts s us := by
  simp only [optionStatement, reads_bind, reads_expectWord, reads_setting, reads_semicolon,
    reads_pure]
  constructor
  · rintro ⟨word, ms, ⟨rfl, hw⟩, s, ns, hs, _, _, ⟨semi, rfl, hsemi⟩, rfl, rfl⟩
    exact .mk hw hs hsemi
  · rintro ⟨hw, hs, hsemi⟩
    exact ⟨_, _, ⟨rfl, hw⟩, s, _, hs, .unit, us, ⟨_, rfl, hsemi⟩, rfl, rfl⟩

theorem reads_trailingSettings {ss : List Setting} :
    Reads trailingSettings ts ss us ↔ TrailingAt ts ss us := by
  simp only [trailingSettings, reads_if_isAt, reads_bracketedSettings, reads_pure]
  constructor
  · rintro (⟨-, h⟩ | ⟨stop, rfl, rfl⟩)
    · exact .some h
    · exact .none stop
  · intro h
    cases h with
    | none stop => exact .inr ⟨stop, rfl, rfl⟩
    | some settings =>
        refine .inl ⟨?_, settings⟩
        obtain ⟨opening, ms, closing, rfl, ho, -⟩ := settings
        simpa using ho

/-- Where a field starts, the parser reads exactly the legal field that stands there. -/
theorem reads_field (kind : t.kind = .identifier) {f : Field} :
    Reads field (t :: ts) f us ↔ FieldAt (t :: ts) f us ∧ f.IsValid := by
  rw [field, reads_bind_documentation]
  simp only [reads_bind, reads_next, reads_qualifiedName,
    reads_identifier, reads_expect (by decide : TokenKind.equals ≠ _), reads_tagNumber,
    reads_trailingSettings, reads_semicolon, reads_ofBuild, Field.build_eq_ok]
  constructor
  · rintro ⟨_, _, ⟨⟩, _, _, ⟨_, ⟨⟩, rfl⟩, type, _, htype, _, _, ⟨name, rfl, hname, rfl⟩, equals, _,
      ⟨rfl, he⟩, tag, _, ⟨number, rfl, hnumber, hvalue⟩, options, _, hoptions, _, _,
      ⟨semi, rfl, hsemi⟩, ⟨⟨label, hlabel, rfl⟩, hvalid⟩, rfl⟩
    rw [isEnd_eq_false_of_kind kind (by decide)] at htype
    exact ⟨.mk kind hlabel htype hname he hnumber hvalue hoptions hsemi, hvalid⟩
  · rintro ⟨h, hvalid⟩
    cases h with
    | mk _ known typeName nameKind equalsKind numberKind value settings semiKind =>
        refine ⟨t, ts, rfl, t, ts, ⟨ts, rfl, ?_⟩, _, _, typeName, _, _, ⟨_, rfl, nameKind, rfl⟩, _, _,
          ⟨rfl, equalsKind⟩, _, _, ⟨_, rfl, numberKind, value⟩, _, _, settings, .unit, us,
          ⟨_, rfl, semiKind⟩, ⟨⟨_, known, rfl⟩, hvalid⟩, rfl⟩
        rw [isEnd_eq_false_of_kind kind (by decide)]
        rfl

theorem reads_extensionRange {doc : String} {r : ExtensionRange} :
    Reads (extensionRange doc) ts r us ↔ RangeAt doc ts r us ∧ r.IsValid := by
  simp only [extensionRange, reads_bind (p := tagNumber), reads_tagNumber,
    reads_if_acceptsWord, reads_ofBuild, ExtensionRange.build_eq_ok]
  constructor
  · rintro ⟨n, _, ⟨number, rfl, hk, hv⟩, ⟨word, _, rfl, hw, ⟨max, _, rfl, hm, ⟨rfl, hvalid⟩, rfl⟩ |
      ⟨-, m, _, ⟨last, rfl, hlk, hlv⟩, ⟨rfl, hvalid⟩, rfl⟩⟩ | ⟨stop, ⟨rfl, hvalid⟩, rfl⟩⟩
    · exact ⟨.onwards hk hv hw hm, hvalid⟩
    · exact ⟨.between hk hv hw hlk hlv, hvalid⟩
    · exact ⟨.single hk hv stop, hvalid⟩
  · rintro ⟨h, hvalid⟩
    cases h with
    | single kind value stop =>
        exact ⟨_, _, ⟨_, rfl, kind, value⟩, .inr ⟨stop, ⟨rfl, hvalid⟩, rfl⟩⟩
    | between kind value isWord lastKind lastValue =>
        refine ⟨_, _, ⟨_, rfl, kind, value⟩, .inl ⟨_, _, rfl, isWord, .inr ⟨?_, _, _,
          ⟨_, rfl, lastKind, lastValue⟩, ⟨rfl, hvalid⟩, rfl⟩⟩⟩
        simp [Token.isWord, lastKind]
    | onwards kind value isWord isGreatest =>
        exact ⟨_, _, ⟨_, rfl, kind, value⟩, .inl ⟨_, _, rfl, isWord, .inl ⟨_, _, rfl, isGreatest,
          ⟨rfl, hvalid⟩, rfl⟩⟩⟩

theorem reads_extensionRanges {rs : List ExtensionRange} :
    Reads extensionRanges ts rs us ↔ RangesAt ts rs us ∧ ∀ r ∈ rs, r.IsValid := by
  have progress : ∀ doc ts r us, Reads (extensionRange doc) ts r us → us.length < ts.length :=
    fun doc ts r us h => RangeAt.length_lt (reads_extensionRange.mp h).1
  have step : ∀ doc, Reads (extensionRange doc) =
      fun ts r us => RangeAt doc ts r us ∧ r.IsValid := by
    intro doc
    funext ts r us
    exact propext reads_extensionRange
  rw [extensionRanges, reads_bind_documentation]
  simp only [reads_bind, reads_expectWord,
    reads_separated (progress _), step, Separated.and_iff, reads_semicolon, reads_pure]
  constructor
  · rintro ⟨_, _, rfl, word, _, ⟨⟨⟩, hw⟩, rs, _, ⟨hrs, hvalid⟩, _, _, ⟨semi, rfl, hsemi⟩, rfl, rfl⟩
    exact ⟨.mk hw hrs hsemi, hvalid⟩
  · rintro ⟨h, hvalid⟩
    cases h with
    | mk isWord ranges semiKind =>
        exact ⟨_, _, rfl, _, _, ⟨rfl, isWord⟩, rs, _, ⟨ranges, hvalid⟩, .unit, us,
          ⟨_, rfl, semiKind⟩, rfl, rfl⟩

theorem reads_enumValue {v : EnumValue} :
    Reads enumValue ts v us ↔ EnumValueAt ts v us ∧ v.IsValid := by
  rw [enumValue, reads_bind_documentation]
  simp only [reads_bind, reads_identifier,
    reads_expect (by decide : TokenKind.equals ≠ _), reads_tagNumber, reads_trailingSettings,
    reads_semicolon, reads_ofBuild, EnumValue.build_eq_ok]
  constructor
  · rintro ⟨_, _, rfl, _, _, ⟨name, ⟨⟩, hname, rfl⟩, equals, _, ⟨rfl, he⟩, tag, _,
      ⟨number, rfl, hnumber, hvalue⟩, options, _, hoptions, _, _, ⟨semi, rfl, hsemi⟩,
      ⟨rfl, hvalid⟩, rfl⟩
    exact ⟨.mk hname he hnumber hvalue hoptions hsemi, hvalid⟩
  · rintro ⟨h, hvalid⟩
    cases h with
    | mk kind equalsKind numberKind value settings semiKind =>
        exact ⟨_, _, rfl, _, _, ⟨_, rfl, kind, rfl⟩, _, _, ⟨rfl, equalsKind⟩, _, _,
          ⟨_, rfl, numberKind, value⟩, _, _, settings, .unit, us, ⟨_, rfl, semiKind⟩,
          ⟨rfl, hvalid⟩, rfl⟩

end Proto2.Parser

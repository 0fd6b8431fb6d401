import Proto2.Corpus.Schema
import Proto2.Proofs.Corpus.Values

/-!
Random settings.

A setting has one of three forms, and its value is any value.  Behind a field or a value of an
enum, settings are enclosed in brackets.
-/

namespace Proto2.Corpus

open Generator (Yields)

variable {σ : Type} {d : DrawSource σ} {cs : Line} {v : Value}

/-- The text is that of the setting, whatever it stands behind. -/
def SettingText (cs : Line) (s : Setting) : Prop :=
  ∀ p : Pen, (∀ c, p.Fits c) → Lays p cs (.behind .integer) fun ts us =>
    ValueStops us → Stands (.setting s) ts us

/-- An equals sign and a value, behind an option name. -/
theorem lays_assigned (h : ValueText cs v) :
    Lays (.behind .identifier) (' ' :: '=' :: ' ' :: cs) (.behind .integer) fun ts us =>
      ∃ equals ms, ts = equals :: ms ∧ equals.kind = .equals ∧
        (ValueStops us → Stands (.value v) ms us) := by
  have hequals := Lays.symbol (p := .gap) (c := '=') rfl (Pen.fits_gap _)
    (Lays.space (p := .behind .equals) (h .gap Pen.fits_gap))
  refine (Lays.space (p := .behind .identifier) hequals).mono ?_
  rintro _ us ⟨equals, ms, rfl, hequals, hvalue⟩
  exact ⟨equals, ms, rfl, hequals, fun stops => (hvalue stops).1⟩

/-- A setting whose name has one part. -/
theorem settingText_of_part {name : String} {custom : Bool}
    (part : NamePart.Legible ⟨name, custom⟩) (h : ValueText cs v) :
    SettingText (optionNameText name custom ++ ' ' :: '=' :: ' ' :: cs)
      (Setting.ofParts ⟨name, custom⟩ [] v) := by
  intro p fits
  refine ((lays_optionName part fun c _ => fits c).append (lays_assigned h)).mono ?_
  rintro ts us ⟨_, hpart, equals, ms, rfl, hequals, hvalue⟩ stops
  exact .setting hpart (.nil (by simp [hequals])) hequals (hvalue stops)

/-- A setting of a part of a custom option. -/
theorem settingText_of_parts {outer : String} {inner : Line} (part : NamePart.Legible ⟨outer, true⟩)
    (form : Lexeme.IdentifierForm inner) (h : ValueText cs v) :
    SettingText (optionNameText outer true ++ '.' :: (inner ++ ' ' :: '=' :: ' ' :: cs))
      (Setting.ofParts ⟨outer, true⟩ [⟨String.ofList inner, false⟩] v) := by
  intro p fits
  have hfits : ∀ c ∈ inner.head?, (Pen.behind .dot).Fits c := fun c hc =>
    Pen.fits_behind (by simp [TokenKind.mayPrecede, form.head_not_isDigit c hc])
  have hinner := Lays.symbol (p := .behind .identifier) (c := '.') rfl (Pen.fits_behind rfl)
    (Lays.token form.spells hfits (lays_assigned h))
  refine ((lays_optionName part fun c _ => fits c).append hinner).mono ?_
  rintro ts us ⟨_, hpart, dot, _, rfl, hdot, t, _, rfl, ht, equals, ms, rfl, hequals, hvalue⟩ stops
  have hmore : NamePartAt (t :: equals :: ms) _ _ := .builtIn (Token.kind_of_written ht)
  rw [Token.lexeme_of_written ht] at hmore
  exact .setting hpart (.cons hdot hmore (.nil (by simp [hequals]))) hequals (hvalue stops)

theorem legible_of_form {name : Line} (form : Lexeme.IdentifierForm name) :
    NamePart.Legible ⟨String.ofList name, false⟩ := by
  show Lexeme.IdentifierForm (String.ofList name).toList
  rwa [String.toList_ofList]

theorem legible_of_forms {parts : List Line} (some : parts ≠ [])
    (forms : ∀ part ∈ parts, Lexeme.IdentifierForm part) :
    NamePart.Legible ⟨String.ofList (Text.joined ['.'] parts), true⟩ :=
  isName_joined some forms

theorem yields_option (inRange : d.InRange) :
    Yields d option fun cs => ∃ s, SettingText cs s := by
  refine .bind (.any _) fun k _ => ?_
  split
  · refine .bind yields_identifier fun name hname => .bind (yields_value inRange 2)
      fun text htext => .pure ?_
    obtain ⟨v, hv⟩ := htext
    have hsetting := settingText_of_part (legible_of_form hname) hv
    exact ⟨_, by simpa [optionNameText] using hsetting⟩
  split
  · refine .bind yields_identifier fun first hfirst => .bind yields_identifier fun second hsecond =>
      .bind (yields_value inRange 2) fun text htext => .pure ?_
    obtain ⟨v, hv⟩ := htext
    have hlegible := legible_of_forms (List.cons_ne_nil first [second]) (by simp [hfirst, hsecond])
    have hsetting := settingText_of_part hlegible hv
    exact ⟨_, by simpa [optionNameText, Text.joined] using hsetting⟩
  · refine .bind yields_identifier fun outer houter => .bind yields_identifier fun inner hinner =>
      .bind (yields_value inRange 2) fun text htext => .pure ?_
    obtain ⟨v, hv⟩ := htext
    have hlegible := legible_of_forms (List.cons_ne_nil outer []) (by simp [houter])
    have hsetting := settingText_of_parts hlegible hinner hv
    exact ⟨_, by simpa [optionNameText, Text.joined] using hsetting⟩

/-! ### Settings behind declarations -/

/-- The text is that of the settings behind a declaration, if there are any. -/
def TrailingText (cs : Line) (ss : List Setting) : Prop :=
  Lays (.behind .integer) cs (.behind .integer) fun ts us =>
    AtKind .semicolon us → TrailingAt ts ss us

theorem trailingText_nil : TrailingText [] [] := by
  refine (Lays.done _).mono ?_
  rintro ts us rfl hsemi
  exact .none (.of_atKind hsemi (by decide))

theorem trailingText_bracketed {texts : List Line} {ss : List Setting}
    (h : List.Forall₂ SettingText texts ss) :
    TrailingText (' ' :: '[' :: (Text.joined [',', ' '] texts ++ [']'])) ss := by
  have hitems : List.Forall₂ (fun l s => Lays .gap l (.behind .integer) fun ts us =>
      ValueEnds us → Stands (.setting s) ts us) texts ss :=
    h.imp fun l s hs => (hs .gap Pen.fits_gap).mono fun ts us h ends => h (valueStops_of_ends ends)
  have hlaid := lays_enclosed (p := .gap) listing_settings (fun _ => rfl)
    (rfl : TokenKind.ofSymbol? '[' = some .openBracket)
    (rfl : TokenKind.ofSymbol? ']' = some .closeBracket) (Pen.fits_gap _) hitems
  refine (Lays.space (p := .behind .integer) hlaid).mono ?_
  rintro _ us ⟨o, ms, c, rfl, ho, hc, hsettings⟩ -
  exact .some ⟨o, ms, c, rfl, ho, hsettings, hc⟩

/-- A mark: an option that is set to true. -/
theorem settingText_true {name : Line} (form : Lexeme.IdentifierForm name) :
    SettingText (name ++ " = true".toList) ⟨String.ofList name, .bool true, false⟩ := by
  have hsetting := settingText_of_part (legible_of_form form) (.bool (.inl rfl))
  simpa [optionNameText, Setting.ofParts] using hsetting

theorem yields_fieldOptions (inRange : d.InRange) :
    Yields d fieldOptions fun cs => ∃ ss, TrailingText cs ss := by
  refine .bind (.any _) fun present _ => ?_
  split
  · refine .bind (.any _) fun count _ => .bind (.times (yields_option inRange) count)
      fun chosen hchosen => .bind (.any _) fun marked _ => .pure ?_
    have hall : ∀ l ∈ chosen ++ if marked then ["deprecated = true".toList] else [],
        ∃ s, SettingText l s := by
      intro l hl
      rcases List.mem_append.mp hl with hl | hl
      · exact hchosen.2 l hl
      · split at hl
        · rw [List.mem_singleton.mp hl]
          have hform : Lexeme.IdentifierForm "deprecated".toList := isIdentifier_of rfl rfl rfl
          exact ⟨_, settingText_true hform⟩
        · cases hl
    obtain ⟨ss, hss⟩ := exists_forall₂ hall
    exact ⟨ss, trailingText_bracketed hss⟩
  · exact .pure ⟨[], trailingText_nil⟩

end Proto2.Corpus

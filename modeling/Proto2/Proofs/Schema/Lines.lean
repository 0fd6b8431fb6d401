import Proto2.Proofs.Layout.Sections
import Proto2.Proofs.Schema.Legible
import Proto2.Proofs.Schema.Valid
import Proto2.Proofs.Setting.Printed

/-!
Printed statements.

Option statements, fields, values of enums, and extension ranges: the text of one bears tokens
in which it stands, provided that it is legible and that its tag is legal.  A legal tag is short
enough to be read again, and the documentation of a declaration is what the lines above its
first word give.
-/

namespace Proto2

/-! ### Tags -/

/-- What lies between two numbers that may be written may be written. -/
theorem Numeral.isWritable_of_le {n : Int} (hleast : Tag.least ≤ n) (hgreatest : n ≤ Tag.greatest) :
    isWritable n = true := by
  simp only [Tag.least, Tag.greatest] at hleast hgreatest
  exact isWritable_of_natAbs_lt (by omega)

theorem Tag.isWritable {n : Int} (h : Tag.isValid n = true) : Numeral.isWritable n = true := by
  have hbounds : least ≤ n ∧ n ≤ greatest := by
    simp only [isValid, Bool.or_eq_true, Bool.and_eq_true, decide_eq_true_eq] at h
    simp only [reservedStart, reservedStop, least, greatest] at h ⊢
    omega
  exact Numeral.isWritable_of_le hbounds.1 hbounds.2

theorem lays_number {p : Pen} {n : Int} (writable : Numeral.isWritable n = true)
    (fits : ∀ c, p.Fits c) :
    Lays p (Numeral.text n) (.behind .integer) fun ts us =>
      ∃ t, ts = t :: us ∧ t.kind = .integer ∧ t.integerValue = .ok n := by
  refine (Lays.single (Numeral.spells_text n) fits).mono ?_
  rintro _ us ⟨t, rfl, kind, lexeme⟩
  refine ⟨t, rfl, kind, ?_⟩
  rw [Token.integerValue, lexeme, String.toList_ofList, IntegerLiteral.read_text writable]

/-! ### Ends and starts of statements -/

/-- The semicolon that ends a line. -/
theorem lays_semicolon (kind : TokenKind) :
    Lays (.behind kind) [';', '\n'] .line fun ts us => TokenAt .semicolon ts us := by
  have hfits : (Pen.behind kind).Fits ';' := Pen.fits_behind (by cases kind <;> rfl)
  refine (Lays.symbol rfl hfits (Lays.newline (.done _))).mono ?_
  rintro ts us ⟨t, ms, rfl, ht, rfl⟩
  exact ⟨t, rfl, ht⟩

/-- A declaration that starts with the given word, below its documentation. -/
theorem Lays.declared {doc w : String} {cs : List Char} {q : Pen}
    {R : List Token → List Token → Prop} (normal : Documentation.IsNormal doc)
    (form : IsIdentifier w) (h : Lays (.behind .identifier) cs q R) :
    Lays .line (Layout.commentLines doc ++ (w.toList ++ cs)) q fun ts us =>
      ∃ t ms, ts = t :: ms ∧ t.kind = .identifier ∧ t.lexeme = w ∧ t.documentation = doc ∧
        R ms us := by
  have hword := Lays.token (p := .under (Documentation.written doc)) form.spells
    (fun c _ => Pen.fits_under _ c) h
  refine (Lays.documented hword).mono ?_
  rintro ts us ⟨t, ms, rfl, ht, hms⟩
  have hlexeme := Token.lexeme_of_written ht
  rw [String.ofList_toList] at hlexeme
  have hdoc : t.documentation = doc :=
    Documentation.ofComments_written normal (Token.comments_of_written ht)
  exact ⟨t, ms, rfl, Token.kind_of_written ht, hlexeme, hdoc, hms⟩

theorem Token.isWord_of {t : Token} {w : String} (kind : t.kind = .identifier)
    (lexeme : t.lexeme = w) : t.isWord w = true := by
  simp [isWord, kind, lexeme]

/-! ### Settings behind declarations -/

theorem listing_settings :
    Listing (fun s ts us => Stands (.setting s) ts us) (fun ss ts us => SettingsAt ts ss us)
      .closeBracket where
  closes := .inl rfl
  nil := .nil
  more h ht hs := .cons h (.inl ⟨_, rfl, ht⟩) hs
  last h hc := .cons h (.inr ⟨rfl, .of_atKind hc (by decide)⟩) .nil

/-- Settings in brackets, if there are any. -/
theorem lays_trailingSettings {ss : List Setting} (legible : LegibleSettings ss) :
    Lays (.behind .integer) (Layout.trailingSettings ss) (.behind .integer) fun ts us =>
      AtKind .semicolon us → TrailingAt ts ss us := by
  unfold Layout.trailingSettings
  cases ss with
  | nil =>
      refine (Lays.done _).mono ?_
      rintro ts us rfl ends
      exact .none (.of_atKind ends (by decide))
  | cons s ss =>
      have hlaid := lays_bracketed (p := .gap) listing_settings (fun _ => rfl)
        (rfl : TokenKind.ofSymbol? '[' = some .openBracket)
        (rfl : TokenKind.ofSymbol? ']' = some .closeBracket) (Pen.fits_gap _)
        fun s hs => (legible s hs).lays fun c _ => Pen.fits_line c
      refine (Lays.space (p := .behind .integer) hlaid).mono ?_
      rintro _ us ⟨o, ms, c, rfl, ho, hc, hsettings⟩ -
      exact .some ⟨o, ms, c, rfl, ho, hsettings, hc⟩

/-- The tokens start with an equals sign, a tag and settings, up to a semicolon. -/
def TaggedAt (tag : Int) (options : List Setting) (ts us : List Token) : Prop :=
  ∃ equals number ms semi, ts = equals :: number :: ms ∧ equals.kind = .equals ∧
    number.kind = .integer ∧ number.integerValue = .ok tag ∧
    TrailingAt ms options (semi :: us) ∧ semi.kind = .semicolon

/-- An equals sign, a tag in whatever notation and settings, up to the end of the line. -/
theorem lays_tagged {tag : Int} {options : List Setting} {number settings : List Char}
    (hnumber : Lays .gap number (.behind .integer) fun ts us =>
      ∃ t, ts = t :: us ∧ t.kind = .integer ∧ t.integerValue = .ok tag)
    (hsettings : Lays (.behind .integer) settings (.behind .integer) fun ts us =>
      AtKind .semicolon us → TrailingAt ts options us) :
    Lays (.behind .identifier) (' ' :: '=' :: ' ' :: (number ++ (settings ++ [';', '\n']))) .line
      (TaggedAt tag options) := by
  have htag := hnumber.append (hsettings.append (lays_semicolon .integer))
  have hequals := Lays.symbol (p := .gap) (c := '=') rfl (Pen.fits_gap _)
    (Lays.space (p := .behind .equals) htag)
  refine (Lays.space (p := .behind .identifier) hequals).mono ?_
  rintro ts us ⟨equals, _, rfl, hequals, _, ⟨number, rfl, hkind, hvalue⟩, ms, hsettings, semi,
    rfl, hsemi⟩
  exact ⟨equals, number, _, semi, rfl, hequals, hkind, hvalue, hsettings ⟨semi, us, rfl, hsemi⟩,
    hsemi⟩

/-- A tag and settings as they are printed. -/
theorem lays_printedTag {tag : Int} {options : List Setting} (valid : Tag.isValid tag = true)
    (legible : LegibleSettings options) :
    Lays (.behind .identifier)
      (' ' :: '=' :: ' ' ::
        (Numeral.text tag ++ (Layout.trailingSettings options ++ [';', '\n']))) .line
      (TaggedAt tag options) :=
  lays_tagged (lays_number (Tag.isWritable valid) Pen.fits_gap) (lays_trailingSettings legible)

/-! ### Statements -/

theorem Layout.optionStatement_eq (s : Setting) :
    optionStatement s = "option ".toList ++ s.text ++ ";\n".toList := rfl

/-- The line of an option statement. -/
theorem lays_optionLine {s : Setting} {cs : List Char}
    (h : Lays .gap cs (.behind .integer) fun ts us => ValueEnds us → Stands (.setting s) ts us) :
    Lays .line ("option".toList ++ ' ' :: (cs ++ [';', '\n'])) .line
      fun ts us => OptionAt ts s us := by
  have hform : IsIdentifier "option" := isIdentifier_of rfl rfl rfl
  have hword := Lays.token (p := .line) hform.spells (fun c _ => Pen.fits_line c)
    (Lays.space (p := .behind .identifier) (h.append (lays_semicolon .integer)))
  refine hword.mono ?_
  rintro ts us ⟨word, ms, rfl, ht, _, hsetting, semi, rfl, hsemi⟩
  exact .mk (Token.isWord_of_written ht) (hsetting ⟨semi, us, rfl, by simp [hsemi]⟩) hsemi

/-- The text of an option statement. -/
theorem Setting.Legible.laysStatement {s : Setting} (h : s.Legible) :
    Lays .line (Layout.optionStatement s) .line fun ts us => OptionAt ts s us := by
  have htext : Layout.optionStatement s = "option".toList ++ ' ' :: (s.text ++ [';', '\n']) := by
    rw [Layout.optionStatement_eq]
    simp
  rw [htext]
  exact lays_optionLine (h.lays fun c _ => Pen.fits_gap c)

theorem Label.isIdentifier_text (l : Label) : IsIdentifier l.text := by
  cases l with
  | required => exact isIdentifier_of rfl rfl rfl
  | optional => exact isIdentifier_of rfl rfl rfl
  | repeated => exact isIdentifier_of rfl rfl rfl

theorem NameEnds.of_kind {t : Token} {ts : List Token} {kind : TokenKind} (h : t.kind = kind)
    (other : kind ≠ .dot) : NameEnds (t :: ts) :=
  ⟨t, ts, rfl, fun hdot => absurd (h.symm.trans hdot) other⟩

/-- The line of a field, below whatever comments. -/
theorem lays_fieldLine (comments : List (Bool × String)) (label : Label) {type : String}
    {name cs : List Char} {tag : Int} {options : List Setting} (typeName : IsName type)
    (form : Lexeme.IdentifierForm name)
    (h : Lays (.behind .identifier) cs .line (TaggedAt tag options)) :
    Lays (.under comments) (label.text.toList ++ ' ' :: (type.toList ++ ' ' :: (name ++ cs)))
      .line fun ts us => ∃ t rest, ts = t :: rest ∧
        t.comments.map (fun c => (c.block, c.text)) = comments ∧
        FieldAt ts ⟨label, type, String.ofList name, tag, t.documentation, options⟩ us := by
  have hname := Lays.token (p := .gap) form.spells (fun c _ => Pen.fits_gap c) h
  have htype := (lays_name (p := .gap) typeName Pen.fits_gap).append
    (Lays.space (p := .behind .identifier) hname)
  have hlabel := Lays.token (p := .under comments) label.isIdentifier_text.spells
    (fun c _ => Pen.fits_under _ c) (Lays.space (p := .behind .identifier) htype)
  refine hlabel.mono ?_
  rintro ts us ⟨first, _, rfl, hfirst, _, htype, name, _, rfl, hname, equals, number, ms, semi,
    rfl, hequals, hnumber, hvalue, hsettings, hsemi⟩
  have hknown : Label.ofText? first.lexeme = some label := by
    rw [Token.lexeme_of_written hfirst, String.ofList_toList, Label.ofText?_text]
  have hkind := Token.kind_of_written hname
  have hat := FieldAt.mk (Token.kind_of_written hfirst) hknown (htype (.of_kind hkind (by decide)))
    hkind hequals hnumber hvalue hsettings hsemi
  rw [Token.lexeme_of_written hname] at hat
  exact ⟨first, _, rfl, Token.comments_of_written hfirst, hat⟩

/-- The text of a field. -/
theorem Field.Legible.lays {f : Field} (h : f.Legible) (valid : f.IsValid) :
    Lays .line f.text .line fun ts us => FieldAt ts f us := by
  have hfield := Lays.documented (lays_fieldLine (Documentation.written f.documentation) f.label
    h.type h.name (lays_printedTag valid h.options))
  have htext : f.text = Layout.commentLines f.documentation ++ (f.label.text.toList ++ ' ' ::
      (f.type.toList ++ ' ' :: (f.name.toList ++ ' ' :: '=' :: ' ' :: (Numeral.text f.tag ++
        (Layout.trailingSettings f.options ++ [';', '\n']))))) := by
    simp [Field.text]
  rw [htext]
  refine hfield.mono ?_
  rintro ts us ⟨t, rest, rfl, hcomments, hat⟩
  have hdoc : t.documentation = f.documentation :=
    Documentation.ofComments_written h.documentation hcomments
  rwa [hdoc, String.ofList_toList] at hat

/-- The line of a value of an enum, below whatever comments. -/
theorem lays_enumValueLine (comments : List (Bool × String)) {name cs : List Char} {tag : Int}
    {options : List Setting} (form : Lexeme.IdentifierForm name)
    (h : Lays (.behind .identifier) cs .line (TaggedAt tag options)) :
    Lays (.under comments) (name ++ cs) .line fun ts us => ∃ t rest, ts = t :: rest ∧
      t.comments.map (fun c => (c.block, c.text)) = comments ∧
      EnumValueAt ts ⟨String.ofList name, tag, t.documentation, options⟩ us := by
  have hname := Lays.token (p := .under comments) form.spells (fun c _ => Pen.fits_under _ c) h
  refine hname.mono ?_
  rintro ts us ⟨name, _, rfl, hname, equals, number, ms, semi, rfl, hequals, hnumber, hvalue,
    hsettings, hsemi⟩
  have hat := EnumValueAt.mk (Token.kind_of_written hname) hequals hnumber hvalue hsettings hsemi
  rw [Token.lexeme_of_written hname] at hat
  exact ⟨name, _, rfl, Token.comments_of_written hname, hat⟩

/-- The text of a value of an enum. -/
theorem EnumValue.Legible.lays {v : EnumValue} (h : v.Legible) (valid : v.IsValid) :
    Lays .line v.text .line fun ts us => EnumValueAt ts v us := by
  have hvalue := Lays.documented (lays_enumValueLine (Documentation.written v.documentation) h.name
    (lays_printedTag valid h.options))
  have htext : v.text = Layout.commentLines v.documentation ++ (v.name.toList ++ ' ' :: '=' ::
      ' ' :: (Numeral.text v.tag ++ (Layout.trailingSettings v.options ++ [';', '\n']))) := by
    simp [EnumValue.text]
  rw [htext]
  refine hvalue.mono ?_
  rintro ts us ⟨t, rest, rfl, hcomments, hat⟩
  have hdoc : t.documentation = v.documentation :=
    Documentation.ofComments_written h.documentation hcomments
  rwa [hdoc, String.ofList_toList] at hat

end Proto2

import Proto2.Proofs.Corpus.Lines
import Proto2.Proofs.Number.Hexadecimal

/-!
Random fields.

The tags of fields that are drawn one after the other are legal and increase, so no two of them
are the same.  A bound on what they can grow to says how many may be drawn.
-/

namespace Proto2.Corpus

open Generator (Yields)

variable {σ : Type} {d : DrawSource σ}

/-! ### Tags -/

theorem isValid_legalTag {n : Nat} (least : 1 ≤ n) (greatest : n ≤ 536870911) :
    Tag.isValid (legalTag n) = true := by
  simp only [Tag.isValid, Bool.or_eq_true, Bool.and_eq_true, decide_eq_true_eq]
  simp only [Tag.least, Tag.greatest, Tag.reservedStart, Tag.reservedStop, legalTag]
  split <;> omega

theorem le_legalTag (n : Nat) : n ≤ legalTag n := by
  unfold legalTag
  split <;> omega

theorem legalTag_le (n : Nat) : legalTag n ≤ max n 20000 := by
  unfold legalTag
  split <;> omega

theorem yields_tag (inRange : d.InRange) {least : Nat} (positive : 1 ≤ least)
    (room : max least 20000 + 3 ≤ 536870911) :
    Yields d (tag least) fun n =>
      least ≤ n ∧ n ≤ max least 20000 + 3 ∧ Tag.isValid n = true := by
  refine .bind (.between inRange (by decide : 0 ≤ 3)) fun gap hgap => .pure ⟨?_, ?_, ?_⟩
  · exact Nat.le_trans (Nat.le_add_right least gap) (le_legalTag _)
  · have hle := legalTag_le (least + gap)
    omega
  · exact isValid_legalTag (by omega) (by omega)

/-- The text of a tag in decimal or, now and then, in hexadecimal. -/
theorem lays_tagText {n : Nat} (valid : Tag.isValid n = true) (hexadecimal : Bool) :
    Lays .gap (if hexadecimal then hexNumber n else number n) (.behind .integer) fun ts us =>
      ∃ t, ts = t :: us ∧ t.kind = .integer ∧ t.integerValue = .ok (n : Int) := by
  cases hexadecimal with
  | false => exact lays_number (Tag.isWritable valid) Pen.fits_gap
  | true =>
      have hspells := Lexeme.spells_hexadecimal (.inl rfl) (.inl rfl) Nat.toDigits_ne_nil
        fun c (hc : c ∈ Nat.toDigits 16 n) => Numeral.isHexDigit_of_mem_toDigits hc
      refine (Lays.single hspells Pen.fits_gap).mono ?_
      rintro _ us ⟨t, rfl, kind, lexeme⟩
      refine ⟨t, rfl, kind, ?_⟩
      rw [Token.integerValue, lexeme, String.toList_ofList, List.nil_append,
        IntegerLiteral.read_hexadecimal]

/-! ### Fields -/

theorem yields_fieldType : Yields d fieldType fun cs => IsName (String.ofList cs) := by
  have hscalars : ∀ cs ∈ "int32".toList :: scalarTypes,
      Lexeme.isIdentifierStart (cs.headD ' ') = true ∧
        cs.tail.all Lexeme.isIdentifierPart = true := by decide +kernel
  refine .bind (.any _) fun scalar _ => ?_
  split
  · refine .oneOf fun cs hcs => ?_
    have hform := identifierForm_of_parts (hscalars cs hcs).1 (hscalars cs hcs).2
    exact isName_of_form hform
  · exact yields_dottedName 3

theorem yields_label :
    Yields d (Generator.oneOf "required".toList ["optional".toList, "repeated".toList])
      fun cs => ∃ label : Label, cs = label.text.toList := by
  refine .oneOf fun cs hcs => ?_
  simp only [List.mem_cons, List.not_mem_nil, or_false] at hcs
  rcases hcs with rfl | rfl | rfl
  · exact ⟨.required, rfl⟩
  · exact ⟨.optional, rfl⟩
  · exact ⟨.repeated, rfl⟩

/-- A field stands in its lines, with the tag that was drawn. -/
theorem yields_field (inRange : d.InRange) {least : Nat} (positive : 1 ≤ least)
    (room : max least 20000 + 3 ≤ 536870911) (indent : Nat) :
    Yields d (field least indent) fun r => least ≤ r.1 ∧ r.1 ≤ max least 20000 + 3 ∧
      LaysLines r.2 fun ts us => ∃ f : Field, FieldAt ts f us ∧ f.tag = r.1 ∧ f.IsValid := by
  refine .bind yields_label fun label hlabel => .bind yields_fieldType fun type htype =>
    .bind (yields_tag inRange positive room) fun tag htag => .bind (.any _) fun hexadecimal _ =>
    .bind (yields_fieldOptions inRange) fun options hoptions =>
    .bind (yields_documentation indent) fun doc hdoc => .bind yields_identifier fun name hname =>
    .pure ?_
  obtain ⟨label, rfl⟩ := hlabel
  obtain ⟨hleast, hmost, hvalid⟩ := htag
  obtain ⟨ss, hss⟩ := hoptions
  refine ⟨hleast, hmost, .documented hdoc fun comments => ?_⟩
  have htagged := lays_tagged (lays_tagText hvalid hexadecimal) hss
  have hline := (lays_fieldLine comments label htype hname htagged).spaces indent
  refine (hline.of_eq (by simp [spaces])).mono ?_
  rintro ts us ⟨t, rest, rfl, -, hat⟩
  exact ⟨_, hat, rfl, hvalid⟩

/-! ### Many fields -/

/-- The fields may stand in one declaration, and their tags start at the given number. -/
structure FieldsFrom (least : Nat) (fs : List Field) : Prop where
  valid : ∀ f ∈ fs, f.IsValid
  least : ∀ f ∈ fs, (least : Int) ≤ f.tag
  tags : (fs.map (·.tag)).Nodup

namespace FieldsFrom

theorem nil (least : Nat) : FieldsFrom least [] :=
  ⟨by simp, by simp, by simp⟩

theorem cons {least tag : Nat} {f : Field} {fs : List Field} (h : FieldsFrom (tag + 1) fs)
    (valid : f.IsValid) (drawn : f.tag = tag) (hleast : least ≤ tag) :
    FieldsFrom least (f :: fs) := by
  refine ⟨List.forall_mem_cons.mpr ⟨valid, h.valid⟩, ?_, ?_⟩
  · intro g hg
    rcases List.mem_cons.mp hg with rfl | hg
    · omega
    · have htag := h.least g hg
      omega
  · rw [List.map_cons, List.nodup_cons]
    refine ⟨fun hmem => ?_, h.tags⟩
    obtain ⟨g, hg, htag⟩ := List.mem_map.mp hmem
    have hmore := h.least g hg
    omega

end FieldsFrom

theorem yields_fields (inRange : d.InRange) (indent count least : Nat) (positive : 1 ≤ least)
    (room : max least 20000 + 4 * count ≤ 536870911) :
    Yields d (fields indent count least) (LaysBody FieldAt (FieldsFrom least)) := by
  induction count generalizing least with
  | zero => exact .pure (.nil (.nil least))
  | succ count ih =>
      refine .bind (yields_field inRange positive (by omega) indent) fun r hr => ?_
      obtain ⟨tag, first⟩ := r
      obtain ⟨hleast, hmost, hfirst⟩ := hr
      refine .bind (ih (tag + 1) (by omega) (by omega)) fun rest hrest => .pure ?_
      refine LaysLines.mono (hfirst.append hrest) ?_
      rintro ts us ⟨ms, ⟨f, hf, htag, hvalid⟩, fs, hfs, hfrom⟩
      exact ⟨f :: fs, .cons hf hfs, hfrom.cons hvalid htag hleast⟩

/-! ### Extensions -/

/-- An extension stands in its lines, wherever it is declared. -/
theorem yields_extension (inRange : d.InRange) (indent : Nat) (scope : Scope) :
    Yields d (extension indent) fun ls =>
      LaysLines ls fun ts us => ∃ e : Extend, ExtendAt scope ts e us ∧ e.IsValid := by
  refine .bind (yields_dottedName 3) fun target htarget =>
    .bind (yields_documentation indent) fun doc hdoc =>
    .bind (.between inRange (by decide : 1 ≤ 3)) fun count hcount =>
    .bind (yields_fields inRange (indent + 2) count 100 (by decide) (by omega))
    fun body hbody => .pure ?_
  have hname := (lays_name (p := .gap) htarget Pen.fits_gap).weaken (Pen.behind_allows _)
  have hblock := laysLines_block (w := "extend") (isIdentifier_of rfl rfl rfl) hname hdoc
    ((hbody.map fun ts f us h => ExtendItemAt.field h).closed _) indent
  refine (hblock.of_eq (by simp)).mono ?_
  rintro ts us ⟨word, ns, opening, ms, closing, _, rfl, hword, hname, hopening, hitems, hclosing,
    fs, rfl, hfields⟩
  exact ⟨_, .of_fields hword (hname (.of_kind hopening (by decide))) hopening hitems hclosing,
    hfields.valid, hfields.tags⟩

end Proto2.Corpus

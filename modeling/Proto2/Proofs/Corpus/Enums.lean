import Proto2.Proofs.Corpus.Fields

/-!
Random enums.

The name of a value ends in its place, and in a message in the place of its enum behind that, so
no two values next to one another have the same name.  A number that ends a text is read back from
it.
-/

namespace Proto2.Corpus

open Generator (Yields)

variable {σ : Type} {d : DrawSource σ}

/-! ### Numbers at the end of a text -/

/-- The number that the digits at the end of a text denote. -/
def trailingNumber (cs : Line) : Nat :=
  Nat.ofDigitChars 10 (cs.reverse.takeWhile Char.isDigit).reverse 0

theorem trailingNumber_append (stem : Line) {mark : Char} (other : mark.isDigit = false)
    (n : Nat) : trailingNumber (stem ++ mark :: number n) = n := by
  have hdigits : ∀ c ∈ (number n).reverse, c.isDigit = true :=
    fun c hc => Numeral.isDigit_of_mem_natText (List.mem_reverse.mp hc)
  rw [trailingNumber, List.reverse_append, List.reverse_cons, List.append_assoc,
    List.takeWhile_append_of_pos hdigits, List.singleton_append,
    List.takeWhile_cons_of_neg (by simp [other]), List.append_nil, List.reverse_reverse]
  exact Nat.ofDigitChars_ten_toDigits

theorem number_eq_of_append {stem stem' : Line} {mark : Char} (other : mark.isDigit = false)
    {m n : Nat} (h : stem ++ mark :: number m = stem' ++ mark :: number n) : m = n := by
  rw [← trailingNumber_append stem other m, h, trailingNumber_append stem' other n]

/-- The name ends in its place and then in the given text. -/
def HasPlace (ending : Line) (place : Nat) (name : String) : Prop :=
  ∃ stem : Line, name = String.ofList (stem ++ '_' :: number place ++ ending)

theorem HasPlace.unique {ending : Line} {p q : Nat} {name : String} (h : HasPlace ending p name)
    (h' : HasPlace ending q name) : p = q := by
  obtain ⟨stem, rfl⟩ := h
  obtain ⟨stem', heq⟩ := h'
  exact number_eq_of_append rfl (List.append_cancel_right (String.ofList_injective heq))

/-- What the names of values end in, in an enum that is the one at the place in a message. -/
def nestedEnding (place : Nat) : Line :=
  "_E".toList ++ number place

theorem HasPlace.unique_enum {i j p q : Nat} {name : String}
    (h : HasPlace (nestedEnding i) p name) (h' : HasPlace (nestedEnding j) q name) : i = j := by
  obtain ⟨stem, rfl⟩ := h
  obtain ⟨stem', heq⟩ := h'
  have hnames : (stem ++ '_' :: number p ++ ['_']) ++ 'E' :: number i =
      (stem' ++ '_' :: number q ++ ['_']) ++ 'E' :: number j := by
    simpa [nestedEnding] using String.ofList_injective heq
  exact number_eq_of_append rfl hnames

/-! ### Values -/

/-- The values may stand in one enum.  Their tags start at the given number, and their places at
the given place. -/
structure ValuesFrom (ending : Line) (aliased : Bool) (place least : Nat)
    (vs : List EnumValue) : Prop where
  valid : ∀ v ∈ vs, v.IsValid
  least : ∀ v ∈ vs, (least : Int) ≤ v.tag
  tags : aliased = false → (vs.map (·.tag)).Nodup
  places : ∀ v ∈ vs, ∃ p, place ≤ p ∧ HasPlace ending p v.name
  names : (vs.map (·.name)).Nodup

namespace ValuesFrom

variable {ending : Line} {aliased : Bool} {place : Nat}

theorem nil (least : Nat) : ValuesFrom ending aliased place least [] :=
  ⟨by simp, by simp, by simp, by simp, by simp⟩

theorem cons {tag gap : Nat} {v : EnumValue} {vs : List EnumValue}
    (h : ValuesFrom ending aliased (place + 1) (tag + gap) vs) (valid : v.IsValid)
    (drawn : v.tag = tag) (placed : HasPlace ending place v.name)
    (apart : aliased = false → 1 ≤ gap) : ValuesFrom ending aliased place tag (v :: vs) where
  valid := List.forall_mem_cons.mpr ⟨valid, h.valid⟩
  least := by
    refine List.forall_mem_cons.mpr ⟨by omega, fun w hw => ?_⟩
    have hleast := h.least w hw
    omega
  tags := by
    intro halias
    rw [List.map_cons, List.nodup_cons]
    refine ⟨fun hmem => ?_, h.tags halias⟩
    obtain ⟨w, hw, htag⟩ := List.mem_map.mp hmem
    have hleast := h.least w hw
    have hgap := apart halias
    omega
  places := by
    refine List.forall_mem_cons.mpr ⟨⟨place, Nat.le_refl _, placed⟩, fun w hw => ?_⟩
    obtain ⟨p, hp, hplace⟩ := h.places w hw
    exact ⟨p, by omega, hplace⟩
  names := by
    rw [List.map_cons, List.nodup_cons]
    refine ⟨fun hmem => ?_, h.names⟩
    obtain ⟨w, hw, hname⟩ := List.mem_map.mp hmem
    obtain ⟨p, hp, hplace⟩ := h.places w hw
    rw [hname] at hplace
    have hsame := hplace.unique placed
    omega

end ValuesFrom

theorem isValid_of_lt {n : Nat} (least : 1 ≤ n) (small : n < 19000) : Tag.isValid n = true := by
  have hlegal : legalTag n = n := if_neg (by omega)
  rw [← hlegal]
  exact isValid_legalTag least (by omega)

theorem yields_valueOptions (inRange : d.InRange) :
    Yields d valueOptions fun cs => ∃ ss, TrailingText cs ss := by
  refine .bind (.any _) fun present _ => ?_
  split
  · refine .bind yields_identifier fun custom hcustom => .bind (yields_value inRange 2)
      fun text htext => .pure ?_
    obtain ⟨v, hv⟩ := htext
    have hlegible := legible_of_forms (List.cons_ne_nil custom []) (by simp [hcustom])
    have hsettings := trailingText_bracketed (.cons (settingText_of_part hlegible hv) .nil)
    exact ⟨_, by simpa [optionNameText, Text.joined] using hsettings⟩
  · exact .pure ⟨[], trailingText_nil⟩

/-- Tags are the same only where they may be shared. -/
theorem yields_tagGap (inRange : d.InRange) (aliased : Bool) :
    Yields d (tagGap aliased) fun gap => gap ≤ 3 ∧ (aliased = false → 1 ≤ gap) := by
  have hbetween := Yields.between inRange (by decide : 1 ≤ 3)
  cases aliased with
  | false => exact hbetween.mono fun gap h => ⟨h.2, fun _ => h.1⟩
  | true =>
      refine .bind (.any _) fun shared _ => ?_
      split
      · exact .pure (by decide)
      · exact hbetween.mono fun gap h => ⟨h.2, by simp⟩

theorem identifierForm_valueName {stem ending : Line} (form : Lexeme.IdentifierForm stem)
    (parts : ∀ c ∈ ending, Lexeme.isIdentifierPart c = true) (place : Nat) :
    Lexeme.IdentifierForm (capitals stem ++ '_' :: number place ++ ending) := by
  obtain ⟨c, rest, heq, hc, hrest⟩ := identifierForm_capitals form
  refine ⟨c, rest ++ '_' :: number place ++ ending, by simp [heq], hc, fun e he => ?_⟩
  simp only [List.mem_append, List.mem_cons] at he
  rcases he with (he | rfl | he) | he
  · exact hrest e he
  · rfl
  · exact Lexeme.isIdentifierPart_of_isDigit (Numeral.isDigit_of_mem_natText he)
  · exact parts e he

theorem yields_enumValues (inRange : d.InRange) {ending : Line}
    (parts : ∀ c ∈ ending, Lexeme.isIdentifierPart c = true) (aliased : Bool)
    (indent count place tag : Nat) (positive : 1 ≤ tag) (room : tag + 3 * count < 19000) :
    Yields d (enumValues ending aliased indent count place tag)
      (LaysBody EnumValueAt (ValuesFrom ending aliased place tag)) := by
  induction count generalizing place tag with
  | zero => exact .pure (.nil (.nil tag))
  | succ count ih =>
      have hvalid := isValid_of_lt positive (by omega)
      refine .bind yields_identifier fun stem hstem => .bind (yields_valueOptions inRange)
        fun options hoptions => .bind (yields_documentation indent) fun doc hdoc =>
        .bind (yields_tagGap inRange aliased) fun gap hgap =>
        .bind (ih (place + 1) (tag + gap) (by omega) (by omega)) fun rest hrest => .pure ?_
      obtain ⟨ss, hss⟩ := hoptions
      have hform := identifierForm_valueName hstem parts place
      have hline : LaysLines (doc ++ [spaces indent ++ (capitals stem ++ '_' :: number place ++
          ending) ++ " = ".toList ++ number tag ++ options ++ [';']]) fun ts us => ∃ text,
            EnumValueAt ts ⟨_, tag, text, ss⟩ us := .documented hdoc fun comments => by
        have hvalue := lays_enumValueLine comments hform
          (lays_tagged (lays_tagText hvalid false) hss)
        refine ((hvalue.spaces indent).of_eq (by simp [spaces])).mono ?_
        rintro ts us ⟨t, _, rfl, -, hat⟩
        exact ⟨_, hat⟩
      refine ((hline.append hrest).of_eq (by simp)).mono ?_
      rintro ts us ⟨ms, ⟨text, hat⟩, vs, hvs, hfrom⟩
      exact ⟨_, .cons hat hvs, hfrom.cons hvalid rfl ⟨capitals stem, rfl⟩ hgap.2⟩

/-! ### Enums -/

/-- The option that lets the values of an enum share tags. -/
def aliasSetting : Setting :=
  ⟨"allow_alias", .bool true, false⟩

theorem laysLines_alias (indent : Nat) :
    LaysLines [spaces indent ++ "  option allow_alias = true;".toList]
      fun ts us => OptionAt ts aliasSetting us := by
  have hform : Lexeme.IdentifierForm "allow_alias".toList := isIdentifier_of rfl rfl rfl
  have hline := laysLines_option (settingText_true hform) (indent + 2)
  exact hline.of_eq (by simp [spaces, List.replicate_succ'])

/-- An enum of drawn values is legal, whether or not they share tags. -/
theorem ValuesFrom.isValid {ending : Line} {aliased : Bool} {vs : List EnumValue}
    (h : ValuesFrom ending aliased 0 1 vs) (name fullName doc : String) :
    Enumeration.IsValid ⟨name, fullName, doc, if aliased then [aliasSetting] else [], vs⟩ := by
  refine ⟨h.valid, aliased, ?_, h.tags⟩
  cases aliased <;> rfl

/-- An enum stands in its lines, wherever it is declared.  The names of its values differ, and
they end in the given text. -/
theorem yields_enumeration (inRange : d.InRange) {ending : Line}
    (parts : ∀ c ∈ ending, Lexeme.isIdentifierPart c = true) (indent : Nat) (scope : Scope) :
    Yields d (enumeration ending indent) fun ls => LaysLines ls fun ts us =>
      ∃ e, EnumerationAt scope ts e us ∧ e.IsValid ∧ (e.values.map (·.name)).Nodup ∧
        ∀ v ∈ e.values, ∃ p, HasPlace ending p v.name := by
  refine .bind yields_identifier fun name hname => .bind (yields_documentation indent)
    fun doc hdoc => .bind (.any _) fun aliased _ =>
    .bind (.between inRange (by decide : 1 ≤ 8)) fun count hcount =>
    .bind (yields_enumValues inRange parts aliased (indent + 2) count 0 1 (by decide) (by omega))
    fun values hvalues => .pure ?_
  have hoptions : LaysBody OptionAt (· = if aliased then [aliasSetting] else [])
      (if aliased then [spaces indent ++ "  option allow_alias = true;".toList] else []) := by
    cases aliased with
    | false => exact .nil rfl
    | true => exact (laysLines_alias indent).mono fun ts us h => ⟨[_], .cons h .nil, rfl⟩
  have hbody := (hoptions.map fun ts s us h => EnumItemAt.option h).append
    (hvalues.map fun ts v us h => EnumItemAt.value h)
    (R := fun items => ∃ vs, ValuesFrom ending aliased 0 1 vs ∧
      items = (if aliased then [aliasSetting] else []).map .option ++ vs.map .value) (by
      rintro _ _ ⟨_, rfl, rfl⟩ ⟨vs, rfl, hvs⟩
      exact ⟨vs, hvs, rfl⟩)
  have hblock := laysLines_named (w := "enum") (isIdentifier_of rfl rfl rfl) hname hdoc
    (hbody.closed _) indent
  -- The block is compared line by line, whichever option lines there are.
  generalize (if aliased then [spaces indent ++ "  option allow_alias = true;".toList] else []) =
    optionLines at hblock ⊢
  refine (hblock.of_eq (by simp)).mono ?_
  rintro ts us ⟨word, t, opening, ms, closing, items, rfl, hword, hkind, -, hopening, hitems,
    hclosing, vs, hvs, rfl⟩
  exact ⟨_, .of_parts hword hkind hopening hitems hclosing, hvs.isValid _ _ _, hvs.names,
    fun v hv => (hvs.places v hv).imp fun p hp => hp.2⟩

/-! ### Enums in a message -/

/-- The enums may be declared in one message. -/
structure EnumsApart (es : List Enumeration) : Prop where
  valid : ∀ e ∈ es, e.IsValid
  names : (es.flatMap fun e => e.values.map (·.name)).Nodup

theorem isIdentifierPart_nestedEnding (place : Nat) :
    ∀ c ∈ nestedEnding place, Lexeme.isIdentifierPart c = true := by
  intro c hc
  rcases List.mem_append.mp hc with hc | hc
  · exact List.all_eq_true.mp (by decide : "_E".toList.all Lexeme.isIdentifierPart = true) c hc
  · exact Lexeme.isIdentifierPart_of_isDigit (Numeral.isDigit_of_mem_natText hc)

/-- Enums that are drawn for different places may be declared in one message. -/
theorem laysBody_enums {scope : Scope} {places : List Nat} {lss : List (List Line)}
    (different : places.Nodup) (h : List.Forall₂ (fun i ls => LaysLines ls fun ts us =>
      ∃ e, EnumerationAt scope ts e us ∧ e.IsValid ∧ (e.values.map (·.name)).Nodup ∧
        ∀ v ∈ e.values, ∃ p, HasPlace (nestedEnding i) p v.name) places lss) :
    LaysBody (EnumerationAt scope) (fun es => EnumsApart es ∧ ∀ e ∈ es, ∀ v ∈ e.values,
      ∃ i ∈ places, ∃ p, HasPlace (nestedEnding i) p v.name) lss.flatten := by
  induction h with
  | nil => exact .nil ⟨⟨by simp, by simp⟩, by simp⟩
  | @cons i ls places lss head tail ih =>
      obtain ⟨hfresh, hrest⟩ := List.nodup_cons.mp different
      refine LaysLines.mono (head.append (ih hrest)) ?_
      rintro ts us ⟨ms, ⟨e, he, hvalid, hnames, hplaced⟩, es, hes, hapart, hplaces⟩
      refine ⟨e :: es, .cons he hes, ⟨List.forall_mem_cons.mpr ⟨hvalid, hapart.valid⟩, ?_⟩, ?_⟩
      · rw [List.flatMap_cons, List.nodup_append]
        refine ⟨hnames, hapart.names, ?_⟩
        rintro _ hname name hname' rfl
        obtain ⟨v, hv, rfl⟩ := List.mem_map.mp hname
        obtain ⟨e', he', hname'⟩ := List.mem_flatMap.mp hname'
        obtain ⟨w, hw, hsame⟩ := List.mem_map.mp hname'
        obtain ⟨p, hp⟩ := hplaced v hv
        obtain ⟨j, hj, q, hq⟩ := hplaces e' he' w hw
        rw [hsame] at hq
        exact hfresh (hp.unique_enum hq ▸ hj)
      · refine List.forall_mem_cons.mpr ⟨fun v hv => ⟨i, by simp, hplaced v hv⟩, ?_⟩
        intro e' he' v hv
        obtain ⟨j, hj, hq⟩ := hplaces e' he' v hv
        exact ⟨j, by simp [hj], hq⟩

theorem yields_nestedEnums (inRange : d.InRange) (indent : Nat) (scope : Scope) :
    Yields d (nestedEnums indent) (LaysBody (EnumerationAt scope) EnumsApart) := by
  have henums (count : Nat) : Yields d (do
      let enums ← Generator.places count fun i => enumeration ("_E".toList ++ number i) indent
      return enums.flatten) (LaysBody (EnumerationAt scope) EnumsApart) := by
    refine .bind (.places (fun i => yields_enumeration inRange (isIdentifierPart_nestedEnding i)
      indent scope) count) fun lss hlss => .pure ?_
    exact (laysBody_enums List.nodup_range' hlss).mono fun es h => h.1
  refine .bind (.any _) fun some _ => ?_
  split
  · exact .bind (.any _) fun count _ => henums count
  · exact henums 0

end Proto2.Corpus

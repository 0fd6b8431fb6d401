import Proto2.Proofs.Corpus.Words
import Proto2.Proofs.Schema.Lines

/-!
Random values and settings stand in the tokens of their texts.

A value without parts is one token.  A list is enclosed in brackets, with a comma between each two
items.  In an aggregate only spaces stand between the entries, so there the value of one is
followed by the key of the next.
-/

namespace Proto2.Corpus

open Generator (Yields)

variable {σ : Type} {d : DrawSource σ} {cs : Line} {v : Value}

/-! ### Values that are one token -/

/-- A value that ends here goes on neither with another string nor with another part of a name. -/
def ValueStops (ts : List Token) : Prop :=
  NotAtKind .dot ts ∧ NotAtKind .string ts

theorem ValueStops.nameEnds {ts : List Token} (h : ValueStops ts) : NameEnds ts := by
  obtain ⟨⟨t, us, rfl, hdot⟩, -⟩ := h
  exact ⟨t, us, rfl, fun hkind => absurd hkind hdot⟩

theorem valueStops_of_ends {ts : List Token} (h : ValueEnds ts) : ValueStops ts :=
  ⟨h.notAtKind (by decide), h.notAtKind (by decide)⟩

/-- The text is that of the value, whatever it stands behind. -/
def ValueText (cs : Line) (v : Value) : Prop :=
  ∀ p : Pen, (∀ c, p.Fits c) → Lays p cs (.behind .integer) fun ts us => ValueStops us →
    Stands (.value v) ts us ∧ (ValueEnds us → ItemAt v ts us)

namespace ValueText

theorem plain (h : ∀ p : Pen, (∀ c, p.Fits c) → Lays p cs (.behind .integer) fun ts us =>
    ValueStops us → Stands (.value v) ts us ∧ NotAtKind .string ts) : ValueText cs v := by
  refine fun p fits => (h p fits).mono fun ts us hstands stops => ?_
  obtain ⟨stands, other⟩ := hstands stops
  exact ⟨stands, fun ends => .value (stands.startsSetting_eq_false ends) other stands⟩

theorem token {kind : TokenKind} {lexeme : List Char} (spells : Lexeme.Spells cs kind lexeme)
    (other : kind ≠ .string)
    (stands : ∀ t us, t.kind = kind → t.lexeme = String.ofList lexeme → ValueStops us →
      Stands (.value v) (t :: us) us) : ValueText cs v := by
  refine plain fun p fits => (Lays.single spells fits).mono ?_
  rintro _ us ⟨t, rfl, hkind, hlexeme⟩ stops
  exact ⟨stands t us hkind hlexeme stops, by simpa [hkind] using other⟩

theorem int {n : Int} (writable : Numeral.isWritable n = true) :
    ValueText (Numeral.text n) (.int n) := by
  refine token (Numeral.spells_text n) (by decide) fun t us hkind hlexeme _ => .int hkind ?_
  rw [Token.integerValue, hlexeme, String.toList_ofList, IntegerLiteral.read_text writable]

theorem float {whole fraction : Line} (some : whole ≠ [])
    (hwhole : ∀ c ∈ whole, c.isDigit = true) (hfraction : ∀ c ∈ fraction, c.isDigit = true) :
    ∃ v, ValueText (whole ++ '.' :: fraction) v := by
  obtain ⟨digit, digits, rfl⟩ := List.exists_cons_of_ne_nil some
  have hspells := Lexeme.spells_point (.inl rfl) (hwhole digit (by simp))
    (fun c (hc : c ∈ digits) => hwhole c (by simp [hc])) hfraction (.inl rfl)
  rw [List.append_nil, List.nil_append] at hspells
  exact ⟨.float (Binary64.read (digit :: digits ++ '.' :: fraction)),
    token hspells (by decide) fun t us hkind hlexeme _ => by
      have hstands : Stands _ (t :: us) us := .float hkind
      rwa [Token.floatValue, hlexeme, String.toList_ofList] at hstands⟩

theorem bool {word : Line} (h : word = "true".toList ∨ word = "false".toList) :
    ValueText word (.bool (String.ofList word = "true")) := by
  have hform : Lexeme.IdentifierForm word := by
    rcases h with rfl | rfl
    · exact isIdentifier_of rfl rfl rfl
    · exact isIdentifier_of rfl rfl rfl
  refine token hform.spells (by decide) fun t us hkind hlexeme _ => ?_
  have hstarts : startsBool (t :: us) = true := by
    rcases h with rfl | rfl <;> simp [startsBool, Token.isWord, hkind, hlexeme]
  rw [← hlexeme]
  exact .bool hkind hstarts

theorem constant (form : Lexeme.IdentifierForm cs) (other : cs ≠ "true".toList)
    (other' : cs ≠ "false".toList) : ∃ v, ValueText cs v := by
  refine ⟨.constant (dotted [String.ofList cs]), token form.spells (by decide) ?_⟩
  intro t us hkind hlexeme stops
  have hstarts : startsBool (t :: us) = false := by
    have hne {w : String} (h : cs ≠ w.toList) : String.ofList cs ≠ w := by
      rintro rfl
      rw [String.toList_ofList] at h
      exact h rfl
    simp [startsBool, Token.isWord, hlexeme, hne other, hne other']
  rw [← hlexeme]
  exact .constant hstarts (.relative hkind (.nil stops.nameEnds))

theorem string {body : Line} (oneLine : '\n' ∉ body)
    (closed : ∀ rest, Lexeme.quotation '"' (body ++ '"' :: rest) = .closed body)
    (valid : StringBody.Valid body) : ∃ v, ValueText ('"' :: body ++ ['"']) v := by
  obtain ⟨text, htext⟩ := StringBody.decode_ok_iff.mpr valid
  refine ⟨.string (String.join [String.ofList text]), fun p fits => ?_⟩
  refine (Lays.single (Lexeme.spells_quotation oneLine closed) fits).mono ?_
  rintro _ us ⟨t, rfl, hkind, hlexeme⟩ stops
  have hvalue : t.stringValue = .ok (String.ofList text) := by
    rw [Token.stringValue, hlexeme, String.toList_ofList, htext, Except.map]
  refine ⟨.string ⟨t, us, rfl, hkind⟩ (.cons hkind hvalue (.nil stops.2)), fun _ => ?_⟩
  have hitem : ItemAt _ (t :: us) us := .string hkind hvalue
  rwa [show String.ofList text = String.join [String.ofList text] by simp [String.join]] at hitem

end ValueText

/-! ### String literals -/

theorem ne_of_mem_alphabet {c : Char} (h : c ∈ letters ++ digits ++ "_-/ ".toList) :
    c ≠ '"' ∧ c ≠ '\\' ∧ c ≠ '\n' := by
  have hall : (letters ++ digits ++ "_-/ ".toList).all
      (fun c => c != '"' && c != '\\' && c != '\n') = true := by decide +kernel
  simpa [and_assoc] using List.all_eq_true.mp hall c h

/-- Characters that are neither quotes nor backslashes stand in a body as they are. -/
theorem quotation_append {plain : Line} (h : ∀ c ∈ plain, c ≠ '"' ∧ c ≠ '\\' ∧ c ≠ '\n')
    {rest body : Line} (closed : Lexeme.quotation '"' rest = .closed body) :
    Lexeme.quotation '"' (plain ++ rest) = .closed (plain ++ body) := by
  induction plain with
  | nil => exact closed
  | cons c plain ih =>
      obtain ⟨hquote, hbackslash, hnewline⟩ := h c (by simp)
      have hrest := ih fun c hc => h c (by simp [hc])
      rw [List.cons_append, Lexeme.quotation, if_neg hquote, if_neg hnewline, hrest]
      · rfl
      · exact fun h => absurd h hbackslash
      · exact fun _ _ h => absurd h hbackslash

theorem valid_append {plain rest : Line} (h : ∀ c ∈ plain, c ≠ '"' ∧ c ≠ '\\' ∧ c ≠ '\n')
    (valid : StringBody.Valid rest) : StringBody.Valid (plain ++ rest) := by
  induction plain with
  | nil => exact valid
  | cons c plain ih => exact .plain (h c (by simp)).2.1 (ih fun c hc => h c (by simp [hc]))

/-- Plain characters may stand before a body that is closed and valid. -/
theorem exists_valueText_string {plain tail : Line}
    (h : ∀ c ∈ plain, c ≠ '"' ∧ c ≠ '\\' ∧ c ≠ '\n') (oneLine : '\n' ∉ tail)
    (closed : ∀ rest, Lexeme.quotation '"' (tail ++ '"' :: rest) = .closed tail)
    (valid : StringBody.Valid tail) : ∃ v, ValueText ('"' :: plain ++ tail ++ ['"']) v := by
  have hline : '\n' ∉ plain ++ tail := by
    rw [List.mem_append]
    rintro (hmem | hmem)
    · exact (h _ hmem).2.2 rfl
    · exact oneLine hmem
  have hclosed : ∀ rest, Lexeme.quotation '"' (plain ++ tail ++ '"' :: rest) =
      .closed (plain ++ tail) := by
    intro rest
    rw [List.append_assoc]
    exact quotation_append h (closed rest)
  exact ValueText.string hline hclosed (valid_append h valid)

theorem yields_stringLiteral : Yields d stringLiteral fun cs => ∃ v, ValueText cs v := by
  refine .bind (.any _) fun count _ => .bind (.times (yields_pick (by simp)) count)
    fun plain hplain => .bind (.any _) fun escaped _ => .pure ?_
  have hplain := fun c hc => ne_of_mem_alphabet (hplain.2 c hc)
  cases escaped with
  | false => exact exists_valueText_string hplain (by simp) (fun _ => rfl) .nil
  | true =>
      have hvalid : StringBody.Valid "\\n\\t\\101\\x41".toList :=
        .simple rfl (.simple rfl (.octal rfl (.plain (by decide) (.plain (by decide)
          (.hexadecimal (.inl rfl) rfl (.plain (by decide) .nil))))))
      exact exists_valueText_string hplain (by decide) (fun _ => rfl) hvalid

/-! ### Values without parts -/

theorem yields_simpleValue (inRange : d.InRange) (k : Nat) :
    Yields d (simpleValue k) fun cs => ∃ v, ValueText cs v := by
  unfold simpleValue
  split
  · exact yields_stringLiteral
  split
  · refine (yields_integer inRange).mono ?_
    rintro _ ⟨n, rfl, writable⟩
    exact ⟨.int n, .int writable⟩
  split
  · refine .oneOf fun word hword => ?_
    exact ⟨_, ValueText.bool (by simpa using hword)⟩
  split
  · refine .bind (.any _) fun whole _ => .bind (.any _) fun hundredths _ => .pure ?_
    exact ValueText.float (Numeral.natText_ne_nil whole)
      (fun c hc => Numeral.isDigit_of_mem_natText hc)
      fun c hc => Numeral.isDigit_of_mem_natText hc
  · refine .bind yields_identifier fun word hword => .pure ?_
    have hother {w : Line} (c : Char) (small : c.isLower = true) (h : c ∈ w) :
        capitals word ≠ w := by
      rintro rfl
      exact not_mem_capitals word small h
    exact ValueText.constant (identifierForm_capitals hword) (hother 'e' rfl (by decide))
      (hother 'e' rfl (by decide))

/-! ### Lists -/

theorem exists_forall₂ {α β : Type} {R : α → β → Prop} {as : List α} (h : ∀ a ∈ as, ∃ b, R a b) :
    ∃ bs, List.Forall₂ R as bs := by
  induction as with
  | nil => exact ⟨[], .nil⟩
  | cons a as ih =>
      obtain ⟨b, hb⟩ := h a (by simp)
      obtain ⟨bs, hbs⟩ := ih fun a ha => h a (by simp [ha])
      exact ⟨b :: bs, .cons hb hbs⟩

theorem ValueText.list {texts : List Line} {vs : List Value}
    (h : List.Forall₂ ValueText texts vs) : ValueText (listText texts) (.list vs) := by
  have hitems : List.Forall₂ (fun l v => Lays .gap l (.behind .integer) fun ts us =>
      ValueEnds us → ItemAt v ts us) texts vs :=
    h.imp fun l v hv => (hv .gap Pen.fits_gap).mono fun ts us h ends =>
      (h (valueStops_of_ends ends)).2 ends
  refine plain fun p fits => ?_
  have hlaid := lays_enclosed listing_items (fun _ => rfl)
    (rfl : TokenKind.ofSymbol? '[' = some .openBracket)
    (rfl : TokenKind.ofSymbol? ']' = some .closeBracket) (fits _) hitems
  refine hlaid.mono ?_
  rintro _ us ⟨o, ms, c, rfl, ho, hc, hitems⟩ -
  exact ⟨.list ho hitems hc, by simp [ho]⟩

/-! ### Aggregates -/

/-- The text is that of the entry. -/
def EntryText (cs : Line) (e : String × Value) : Prop :=
  Lays .gap cs (.behind .integer) fun ts us => ValueStops us → EntryAt e ts us

theorem entryText_of_value {key : Line} (form : Lexeme.IdentifierForm key) (h : ValueText cs v) :
    EntryText (key ++ ": ".toList ++ cs) (String.ofList key, v) := by
  have hcolon := Lays.symbol (p := .behind .identifier) (c := ':') rfl (Pen.fits_behind rfl)
    (Lays.space (p := .behind .colon) (h .gap Pen.fits_gap))
  have hkey := Lays.token (p := .gap) form.spells (fun c _ => Pen.fits_gap c) hcolon
  rw [List.append_assoc]
  refine hkey.mono ?_
  rintro _ us ⟨t, _, rfl, ht, colon, ms, rfl, hcolon, hvalue⟩ stops
  have hat : KeyAt (t :: colon :: ms) _ _ := .plain (Token.kind_of_written ht)
  rw [Token.lexeme_of_written ht] at hat
  exact ⟨_, ms, hat, .colon hcolon, (hvalue stops).1⟩

/-- What stands behind an entry ends its value and does not separate it from another entry. -/
structure EntryStops (us : List Token) : Prop where
  value : ValueStops us
  comma : NotAtKind .comma us
  semicolon : NotAtKind .semicolon us

theorem entryStops_of_atKind {us : List Token} (h : AtKind .closeBrace us) : EntryStops us :=
  have hother {kind : TokenKind} (differs : TokenKind.closeBrace ≠ kind) : NotAtKind kind us :=
    .of_atKind h differs
  ⟨⟨hother (by decide), hother (by decide)⟩, hother (by decide), hother (by decide)⟩

/-- Entries start with a key. -/
theorem entryStops_of_entries {e : String × Value} {es : List (String × Value)}
    {ts us : List Token} (h : Stands (.entries (e :: es)) ts us) : EntryStops ts := by
  cases h with
  | entry key =>
      have hother {kind : TokenKind} (other : kind ≠ .identifier) (other' : kind ≠ .openBracket) :
          NotAtKind kind ts := key.notAtKind other other'
      exact ⟨⟨hother (by decide) (by decide), hother (by decide) (by decide)⟩,
        hother (by decide) (by decide), hother (by decide) (by decide)⟩

theorem stands_entries {e : String × Value} {es : List (String × Value)} {ts ms us : List Token}
    (h : ValueStops ms → EntryAt e ts ms) (stops : EntryStops ms)
    (rest : Stands (.entries es) ms us) : Stands (.entries (e :: es)) ts us := by
  obtain ⟨ns, ps, hkey, hcolon, hvalue⟩ := h stops.value
  exact .entry hkey hcolon hvalue (.inr ⟨stops.comma, .inr ⟨rfl, stops.semicolon⟩⟩) rest

/-- Entries with a space between each two. -/
theorem lays_entries {texts : List Line} {es : List (String × Value)}
    (h : List.Forall₂ EntryText texts es) :
    ∃ q : Pen, q.spaced = .gap ∧ Lays .gap (Text.joined [' '] texts) q fun ts us =>
      AtKind .closeBrace us → Stands (.entries es) ts us := by
  induction h with
  | nil =>
      refine ⟨.gap, rfl, (Lays.done _).mono ?_⟩
      rintro ts us rfl _
      exact .noEntries
  | cons head tail ih =>
      cases tail with
      | nil =>
          refine ⟨.behind .integer, rfl, ?_⟩
          rw [Text.joined, List.intercalate_singleton]
          exact head.mono fun ts us hat hclose =>
            stands_entries hat (entryStops_of_atKind hclose) .noEntries
      | @cons m _ texts _ =>
          obtain ⟨q, hq, hrest⟩ := ih
          refine ⟨q, hq, ?_⟩
          rw [Text.joined, List.intercalate_cons_of_ne_nil (List.cons_ne_nil m texts),
            List.append_assoc]
          refine (head.append (Lays.space (p := .behind .integer) hrest)).mono ?_
          rintro ts us ⟨ms, hat, hrest⟩ hclose
          have hstands := hrest hclose
          exact stands_entries hat (entryStops_of_entries hstands) hstands

theorem ValueText.aggregate {texts : List Line} {es : List (String × Value)}
    (h : List.Forall₂ EntryText texts es) :
    ValueText (aggregateText texts) (Value.ofEntries es) := by
  obtain ⟨q, hq, hentries⟩ := lays_entries h
  refine plain fun p fits => ?_
  have hclosed : Lays q [' ', '\x7d'] (.behind .closeBrace) _ :=
    Lays.space (Lays.symbol (c := '\x7d') rfl (by rw [hq]; exact Pen.fits_gap _) (.done _))
  have hbody := Lays.symbol (c := '\x7b') rfl (fits _)
    (Lays.space (p := .behind .openBrace) (hentries.append hclosed))
  have htext : aggregateText texts =
      '\x7b' :: ' ' :: (Text.joined [' '] texts ++ [' ', '\x7d']) := by
    simp [aggregateText]
  rw [htext]
  refine (hbody.mono ?_).weaken (Pen.behind_allows _)
  rintro _ us ⟨o, ms, rfl, ho, _, hentries, c, _, rfl, hc, rfl⟩ -
  exact ⟨.aggregate ho (hentries ⟨c, _, rfl, hc⟩) hc, by simp [ho]⟩

theorem yields_keys : Yields d keys fun ks => ∀ key ∈ ks, Lexeme.IdentifierForm key := by
  refine .bind (.any _) fun count _ => (Yields.places (fun place => ?_) count).mono
    fun ks => Generator.Yields.forall_mem_of_forall₂
  refine .bind yields_identifier fun word hword => .pure ?_
  obtain ⟨c, rest, rfl, hc, hrest⟩ := hword
  refine ⟨c, rest ++ '_' :: number place, rfl, hc, fun e he => ?_⟩
  rcases List.mem_append.mp he with he | he
  · exact hrest e he
  rcases List.mem_cons.mp he with rfl | he
  · rfl
  · exact Lexeme.isIdentifierPart_of_isDigit (Numeral.isDigit_of_mem_natText he)

theorem yields_entries {value : Generator σ Line}
    (h : Yields d value fun cs => ∃ v, ValueText cs v) {ks : List Line}
    (forms : ∀ key ∈ ks, Lexeme.IdentifierForm key) :
    Yields d (entries value ks) fun texts => ∃ es, List.Forall₂ EntryText texts es := by
  induction ks with
  | nil => exact .pure ⟨[], .nil⟩
  | cons key ks ih =>
      rw [entries]
      refine .bind h fun text htext => .bind (ih fun key hk => forms key (by simp [hk]))
        fun texts htexts => .pure ?_
      obtain ⟨v, hv⟩ := htext
      obtain ⟨es, hes⟩ := htexts
      exact ⟨_, .cons (entryText_of_value (forms key (by simp)) hv) hes⟩

/-! ### Values -/

/-- A value stands in the tokens of its text, however deep it goes. -/
theorem yields_value (inRange : d.InRange) (depth : Nat) :
    Yields d (value depth) fun cs => ∃ v, ValueText cs v := by
  induction depth with
  | zero => exact .bind (.any _) fun k _ => yields_simpleValue inRange k
  | succ depth ih =>
      rw [value]
      refine .bind (.any _) fun k _ => ?_
      split
      · exact yields_simpleValue inRange k
      split
      · refine .bind (.any _) fun count _ => .bind (.times ih count) fun items hitems => .pure ?_
        obtain ⟨vs, hvs⟩ := exists_forall₂ hitems.2
        exact ⟨.list vs, .list hvs⟩
      · refine .bind yields_keys fun ks hks => .bind (yields_entries ih hks)
          fun texts htexts => .pure ?_
        obtain ⟨es, hes⟩ := htexts
        exact ⟨Value.ofEntries es, .aggregate hes⟩

end Proto2.Corpus

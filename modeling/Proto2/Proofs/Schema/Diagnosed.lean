import Proto2.Proofs.Layout.Lays
import Proto2.Proofs.Layout.Lexed
import Proto2.Proofs.Schema.Files
import Proto2.Proofs.Schema.Legible
import Proto2.Proofs.Schema.Numbers
import Proto2.Proofs.Setting.Diagnosed

/-!
Why files cannot be read.

A declaration is refused with an error that shows its tag or its range, and that is where an
integer may be too long to be written.  Tags that are compared with each other are legal, and
legal tags are short.

The limit on digits is not out of reach: an option that is set to a decimal integer beyond it is
refused for that reason alone.
-/

namespace Proto2

namespace Parser

variable {text rest : List Token} {l : Lexed} {t : Token}

/-! ### Numbers and declarations -/

/-- The number is that of an integer in the text. -/
def IsIntegerOf (text : List Token) (n : Int) : Prop :=
  ∃ t ∈ text, t.kind = .integer ∧ t.integerValue = .ok n

/-- A declaration is built, or refused with an error of the text or one that shows an integer of
the text that is too long. -/
theorem diagnosed_ofBuild {α : Type} {n : Node} {built : Except BuildError α} {a : α}
    (eq : built = n.built a)
    (numbers : ∀ k ∈ n.numbers, Numeral.isWritable k = false → IsIntegerOf text k) :
    Diagnosed text (ofBuild built) l fun b l' => b = a ∧ n.Obeys ∧ l' = l := by
  intro hl
  rw [eq]
  cases hviolation : n.violation? with
  | none =>
      rw [Node.built_of_none hviolation]
      exact ⟨hl, rfl, Node.violation?_eq_none.mp hviolation, rfl⟩
  | some e =>
      rw [Node.built_of_some hviolation, BuildError.ofModelError]
      -- The words of the error show its numbers, which are among those of the declaration.
      by_cases hwritable : e.numbers.all Numeral.isWritable
      case pos =>
        rw [if_pos hwritable]
        exact .inl trivial
      case neg =>
        obtain ⟨k, hk, hlong⟩ : ∃ k ∈ e.numbers, Numeral.isWritable k = false := by
          simpa using hwritable
        have hn := (Node.violation?_eq_some.mp hviolation).numbers_subset hk
        obtain ⟨t, hmem, hkind, hvalue⟩ := numbers k hn hlong
        rw [if_neg hwritable]
        exact .inr (.unwritten hmem hkind hvalue hlong)

/-- Declarations whose numbers can be written are refused with an error of the text. -/
theorem diagnosed_ofBuild_of_isWritable {α : Type} {n : Node} {built : Except BuildError α} {a : α}
    (eq : built = n.built a) (writable : n.IsWritable) :
    Diagnosed text (ofBuild built) l fun b l' => b = a ∧ n.Obeys ∧ l' = l :=
  diagnosed_ofBuild eq fun k hk hlong => by simp [writable k hk] at hlong

theorem Tag.isWritable_of_isValid {n : Int} (h : Tag.isValid n = true) :
    Numeral.isWritable n = true := by
  obtain ⟨lower, upper, -⟩ := Tag.isValid_iff.mp h
  exact Tag.isWritable_of_le lower upper

/-! ### Pieces of declarations -/

theorem diagnosed_documentation :
    Diagnosed text documentation l fun _ l' => l' = l := by
  unfold documentation
  refine .bind diagnosed_peek_zero ?_
  rintro t _ ⟨rfl, -⟩
  exact .pure rfl

theorem takes_semicolon : Takes text semicolon l := by
  unfold semicolon
  exact .bind (takes_expect (by decide)) fun _ _ h => .pure h

theorem diagnosed_tagNumber :
    Diagnosed text tagNumber l fun n l' =>
      l'.tokens.length < l.tokens.length ∧ IsIntegerOf text n := by
  unfold tagNumber
  refine .bind (diagnosed_expect (by decide)) ?_
  rintro t l₁ ⟨hmem, hkind, h₁⟩
  refine (diagnosed_decodeInteger hmem hkind).mono ?_
  rintro n _ ⟨rfl, hvalue⟩
  exact ⟨h₁, t, hmem, hkind, hvalue⟩

theorem takes_optionStatement : Takes text optionStatement l := by
  unfold optionStatement
  refine .bind takes_expectWord fun _ l₁ h₁ => ?_
  refine .bind takes_setting fun _ l₂ h₂ => ?_
  refine .bind takes_semicolon fun _ l₃ h₃ => ?_
  exact .pure (by omega)

theorem diagnosed_trailingSettings :
    Diagnosed text trailingSettings l fun _ l' => l'.tokens.length ≤ l.tokens.length := by
  unfold trailingSettings
  refine .bind diagnosed_isAt ?_
  rintro b _ ⟨rfl, -⟩
  exact .ite (fun _ => takes_bracketedSettings.mono fun _ _ h => Nat.le_of_lt h)
    fun _ => .pure (Nat.le_refl _)

/-- A field starts with a label, so that its label is known. -/
theorem diagnosed_field (cons : l.tokens = t :: rest) (starts : startsField t = true) :
    Diagnosed text field l fun f l' => l'.tokens.length < l.tokens.length ∧ f.IsValid := by
  have hkind := kind_of_startsField starts
  obtain ⟨label, hknown⟩ : ∃ label, Label.ofText? t.lexeme = some label := by
    simpa [startsField, hkind, Option.isSome_iff_exists] using starts
  unfold field
  refine .bind diagnosed_documentation ?_
  rintro doc l' rfl
  refine .bind (diagnosed_next_of_cons cons (isEnd_eq_false_of_kind hkind (by decide))) ?_
  rintro u l₁ ⟨rfl, -, h₁⟩
  refine .bind takes_qualifiedName fun type l₂ h₂ => ?_
  refine .bind takes_identifier fun name l₃ h₃ => ?_
  refine .bind (takes_expect (by decide)) fun _ l₄ h₄ => ?_
  refine .bind diagnosed_tagNumber ?_
  rintro tag l₅ ⟨h₅, htag⟩
  refine .bind diagnosed_trailingSettings fun options l₆ h₆ => ?_
  refine .bind takes_semicolon fun _ l₇ h₇ => ?_
  refine (diagnosed_ofBuild (Field.build_eq hknown) fun k hk _ => ?_).mono ?_
  · rwa [List.mem_singleton.mp hk]
  · rintro f l₈ ⟨rfl, hobeys, rfl⟩
    exact ⟨by omega, Tag.isValid_iff.mpr hobeys⟩

theorem takes_extensionRange {doc : String} : Takes text (extensionRange doc) l := by
  -- The ends of a range are integers of the text, or the greatest tag.
  have hbuild {start stop : Int} {l' : Lexed} (hstart : IsIntegerOf text start)
      (hstop : Numeral.isWritable stop = false → IsIntegerOf text stop)
      (hlt : l'.tokens.length < l.tokens.length) :
      Diagnosed text (ofBuild (ExtensionRange.build doc start stop)) l' fun _ l'' =>
        l''.tokens.length < l.tokens.length := by
    refine (diagnosed_ofBuild ExtensionRange.build_eq fun k hk hlong => ?_).mono ?_
    · simp only [Node.numbers, List.mem_cons, List.not_mem_nil, or_false] at hk
      rcases hk with rfl | rfl
      · exact hstart
      · exact hstop hlong
    · rintro r l'' ⟨-, -, rfl⟩
      exact hlt
  unfold extensionRange
  refine .bind diagnosed_tagNumber ?_
  rintro start l₁ ⟨h₁, hstart⟩
  refine .bind diagnosed_acceptsWord ?_
  rintro b l₂ (⟨rfl, h₂⟩ | ⟨rfl, rfl⟩)
  · refine .bind diagnosed_acceptsWord ?_
    rintro b l₃ (⟨rfl, h₃⟩ | ⟨rfl, rfl⟩)
    · exact hbuild hstart (fun hlong => by simp [Tag.isWritable_greatest] at hlong) (by omega)
    · refine .bind diagnosed_tagNumber ?_
      rintro stop l₄ ⟨h₄, hstop⟩
      exact hbuild hstart (fun _ => hstop) (by omega)
  · exact hbuild hstart (fun _ => hstart) h₁

theorem takes_extensionRanges : Takes text extensionRanges l := by
  unfold extensionRanges
  refine .bind diagnosed_documentation ?_
  rintro doc _ rfl
  refine .bind takes_expectWord fun _ l₁ h₁ => ?_
  refine .bind (takes_separated fun _ _ => takes_extensionRange) fun _ l₂ h₂ => ?_
  refine .bind takes_semicolon fun _ l₃ h₃ => ?_
  exact .pure (by omega)

theorem diagnosed_enumValue :
    Diagnosed text enumValue l fun v l' => l'.tokens.length < l.tokens.length ∧ v.IsValid := by
  unfold enumValue
  refine .bind diagnosed_documentation ?_
  rintro doc l' rfl
  refine .bind takes_identifier fun name l₁ h₁ => ?_
  refine .bind (takes_expect (by decide)) fun _ l₂ h₂ => ?_
  refine .bind diagnosed_tagNumber ?_
  rintro tag l₃ ⟨h₃, htag⟩
  refine .bind diagnosed_trailingSettings fun options l₄ h₄ => ?_
  refine .bind takes_semicolon fun _ l₅ h₅ => ?_
  refine (diagnosed_ofBuild EnumValue.build_eq fun k hk _ => ?_).mono ?_
  · rwa [List.mem_singleton.mp hk]
  · rintro v l₆ ⟨rfl, hobeys, rfl⟩
    exact ⟨by omega, Tag.isValid_iff.mpr hobeys⟩

/-! ### Bodies -/

theorem diagnosed_bodyItems {α : Type} {opened : Token} {item : Token → Parser α}
    [∀ t, TokenDriven (item t)] {P : α → Prop}
    (each : ∀ l' t rest, l'.tokens.length ≤ l.tokens.length → l'.tokens = t :: rest →
      Diagnosed text (item t) l' fun a l'' => l''.tokens.length < l'.tokens.length ∧ P a) :
    Diagnosed text (bodyItems opened item) l fun as l' =>
      l'.tokens.length < l.tokens.length ∧ ∀ a ∈ as, P a := by
  unfold bodyItems
  refine diagnosed_itemsUntil (by decide) fun l' hle => ?_
  refine .bind diagnosed_peek_zero ?_
  rintro t _ ⟨rfl, rest, hcons⟩
  exact .ite (fun _ => .fail) fun _ => each _ t rest hle hcons

theorem takes_bodyItems {α : Type} {opened : Token} {item : Token → Parser α}
    [∀ t, TokenDriven (item t)]
    (each : ∀ l' t rest, l'.tokens.length ≤ l.tokens.length → l'.tokens = t :: rest →
      Takes text (item t) l') : Takes text (bodyItems opened item) l :=
  (diagnosed_bodyItems (P := fun _ => True) fun l' t rest hle hcons =>
    (each l' t rest hle hcons).mono fun _ _ h => ⟨h, trivial⟩).mono fun _ _ h => h.1

/-! ### Enums and extensions -/

theorem diagnosed_enumItem {name : String} (cons : l.tokens = t :: rest) :
    Diagnosed text (enumItem name t) l fun item l' =>
      l'.tokens.length < l.tokens.length ∧ item.IsValid := by
  have hstarts : Diagnosed text (startsEnumOption t) l fun _ l' => l' = l := by
    unfold startsEnumOption
    refine .ite (fun _ => ?_) fun _ => .pure rfl
    refine .bind (diagnosed_peek 1) ?_
    rintro _ _ ⟨rfl, -⟩
    exact .pure rfl
  unfold enumItem
  refine .ite (fun hkind => ?_) fun _ => ?_
  · exact .bind (takes_next cons hkind (by decide)) fun _ _ h =>
      .pure ⟨h, by simp [EnumItem.IsValid, EnumItem.value?]⟩
  refine .bind hstarts ?_
  rintro b _ rfl
  refine .ite (fun _ => ?_) fun _ => .ite (fun _ => ?_) fun _ => .fail
  · exact .bind takes_optionStatement fun _ _ h =>
      .pure ⟨h, by simp [EnumItem.IsValid, EnumItem.value?]⟩
  · refine .bind diagnosed_enumValue ?_
    rintro v l₁ ⟨h₁, hvalid⟩
    exact .pure ⟨h₁, by simpa [EnumItem.IsValid, EnumItem.value?] using hvalid⟩

theorem takes_enumeration {scope : Scope} : Takes text (enumeration scope) l := by
  unfold enumeration
  refine .bind diagnosed_documentation ?_
  rintro doc _ rfl
  refine .bind takes_expectWord fun _ l₁ h₁ => ?_
  refine .bind takes_identifier fun name l₂ h₂ => ?_
  refine .bind (takes_expect (by decide)) fun opened l₃ h₃ => ?_
  refine .bind (diagnosed_bodyItems fun l' t rest _ hcons => diagnosed_enumItem hcons) ?_
  rintro items l₄ ⟨h₄, hitems⟩
  refine (diagnosed_ofBuild_of_isWritable Enumeration.build_eq fun k hk => ?_).mono ?_
  · obtain ⟨v, hv, rfl⟩ := List.mem_map.mp hk
    exact Tag.isWritable_of_isValid (List.forall_mem_filterMap.mpr hitems v hv)
  · rintro e l₅ ⟨-, -, rfl⟩
    omega

theorem diagnosed_extendItem {name : String} (cons : l.tokens = t :: rest) :
    Diagnosed text (extendItem name t) l fun item l' =>
      l'.tokens.length < l.tokens.length ∧ ∀ f ∈ item, f.IsValid := by
  unfold extendItem
  refine .ite (fun hkind => ?_) fun _ => .ite (fun hstarts => ?_) fun _ => .fail
  · exact .bind (takes_next cons hkind (by decide)) fun _ _ h => .pure ⟨h, by simp⟩
  · refine .bind (diagnosed_field cons hstarts) ?_
    rintro f l₁ ⟨h₁, hvalid⟩
    exact .pure ⟨h₁, by simpa using hvalid⟩

theorem takes_extension {scope : Scope} : Takes text (extension scope) l := by
  unfold extension
  refine .bind diagnosed_documentation ?_
  rintro doc _ rfl
  refine .bind takes_expectWord fun _ l₁ h₁ => ?_
  refine .bind takes_qualifiedName fun name l₂ h₂ => ?_
  refine .bind (takes_expect (by decide)) fun opened l₃ h₃ => ?_
  refine .bind (diagnosed_bodyItems fun l' t rest _ hcons => diagnosed_extendItem hcons) ?_
  rintro items l₄ ⟨h₄, hitems⟩
  refine (diagnosed_ofBuild_of_isWritable Extend.build_eq fun k hk => ?_).mono ?_
  · obtain ⟨f, hf, rfl⟩ := List.mem_map.mp hk
    exact Tag.isWritable_of_isValid (List.forall_mem_filterMap.mpr hitems f hf)
  · rintro e l₅ ⟨-, -, rfl⟩
    omega

/-! ### Services -/

theorem takes_rpcType : Takes text rpcType l := by
  unfold rpcType
  refine .bind (takes_expect (by decide)) fun _ l₁ h₁ => ?_
  refine .bind takes_qualifiedName fun _ l₂ h₂ => ?_
  refine .bind (takes_expect (by decide)) fun _ l₃ h₃ => ?_
  exact .pure (by omega)

theorem takes_rpcItem {name : String} (cons : l.tokens = t :: rest) :
    Takes text (rpcItem name t) l := by
  unfold rpcItem
  refine .ite (fun hkind => ?_) fun _ => .ite (fun _ => ?_) fun _ => .fail
  · exact .bind (takes_next cons hkind (by decide)) fun _ _ h => .pure h
  · exact .bind takes_optionStatement fun _ _ h => .pure h

theorem diagnosed_rpcBody {name : String} :
    Diagnosed text (rpcBody name) l fun _ l' => l'.tokens.length ≤ l.tokens.length := by
  rw [rpcBody_eq]
  refine .bind (diagnosed_accept? (by decide)) ?_
  rintro o l₁ (⟨hsome, h₁⟩ | ⟨rfl, rfl⟩)
  · obtain ⟨opened, rfl⟩ := Option.isSome_iff_exists.mp hsome
    rw [rpcBodyFrom]
    refine .bind (takes_bodyItems fun l' t rest _ hcons => takes_rpcItem hcons) fun _ l₂ h₂ => ?_
    refine .bind (diagnosed_skip (by decide)) fun _ l₃ h₃ => ?_
    exact .pure (by omega)
  · rw [rpcBodyFrom]
    exact .bind takes_semicolon fun _ _ h => .pure (Nat.le_of_lt h)

theorem takes_rpc : Takes text rpc l := by
  unfold rpc
  refine .bind diagnosed_documentation ?_
  rintro doc _ rfl
  refine .bind takes_expectWord fun _ l₁ h₁ => ?_
  refine .bind takes_identifier fun _ l₂ h₂ => ?_
  refine .bind takes_rpcType fun _ l₃ h₃ => ?_
  refine .bind takes_expectWord fun _ l₄ h₄ => ?_
  refine .bind takes_rpcType fun _ l₅ h₅ => ?_
  refine .bind diagnosed_rpcBody fun _ l₆ h₆ => ?_
  exact .pure (by omega)

theorem takes_serviceItem {name : String} (cons : l.tokens = t :: rest) :
    Takes text (serviceItem name t) l := by
  unfold serviceItem
  refine .ite (fun hkind => ?_) fun _ => .ite (fun _ => ?_) fun _ => .ite (fun _ => ?_) fun _ => .fail
  · exact .bind (takes_next cons hkind (by decide)) fun _ _ h => .pure h
  · exact .bind takes_optionStatement fun _ _ h => .pure h
  · exact .bind takes_rpc fun _ _ h => .pure h

theorem takes_service {scope : Scope} : Takes text (service scope) l := by
  unfold service
  refine .bind diagnosed_documentation ?_
  rintro doc _ rfl
  refine .bind takes_expectWord fun _ l₁ h₁ => ?_
  refine .bind takes_identifier fun _ l₂ h₂ => ?_
  refine .bind (takes_expect (by decide)) fun opened l₃ h₃ => ?_
  refine .bind (takes_bodyItems fun l' t rest _ hcons => takes_serviceItem hcons) fun _ l₄ h₄ => ?_
  exact .pure (by omega)

/-! ### Messages -/

section Inner

variable {inner : Scope → Parser MessageWithExtensions} [∀ scope, TokenDriven (inner scope)]
  {scope : Scope}

omit [∀ scope, TokenDriven (inner scope)] in
theorem diagnosed_messageItem {name : String} (cons : l.tokens = t :: rest)
    (message : Takes text (inner scope) l) :
    Diagnosed text (messageItem inner scope name t) l fun item l' =>
      l'.tokens.length < l.tokens.length ∧ ∀ f ∈ item.field?, f.IsValid := by
  unfold messageItem
  refine .ite (fun hkind => ?_) fun _ => .ite (fun hstarts => ?_) fun _ => ?_
  · exact .bind (takes_next cons hkind (by decide)) fun _ _ h =>
      .pure ⟨h, by simp [MessageItem.field?]⟩
  · refine .bind (diagnosed_field cons hstarts) ?_
    rintro f l₁ ⟨h₁, hvalid⟩
    exact .pure ⟨h₁, by simpa [MessageItem.field?] using hvalid⟩
  refine .ite (fun _ => ?_) fun _ => .ite (fun _ => ?_) fun _ => .ite (fun _ => ?_) fun _ =>
    .ite (fun _ => ?_) fun _ => .ite (fun _ => ?_) fun _ => .fail
  · exact .bind message fun _ _ h => .pure ⟨h, by simp [MessageItem.field?]⟩
  · exact .bind takes_enumeration fun _ _ h => .pure ⟨h, by simp [MessageItem.field?]⟩
  · exact .bind takes_extensionRanges fun _ _ h => .pure ⟨h, by simp [MessageItem.field?]⟩
  · exact .bind takes_optionStatement fun _ _ h => .pure ⟨h, by simp [MessageItem.field?]⟩
  · exact .bind takes_extension fun _ _ h => .pure ⟨h, by simp [MessageItem.field?]⟩

/-- A message takes a token if the messages in it do, of which there are fewer tokens left. -/
theorem takes_messageWith
    (each : ∀ scope l', l'.tokens.length < l.tokens.length → Takes text (inner scope) l') :
    Takes text (messageWith inner scope) l := by
  unfold messageWith
  refine .bind diagnosed_documentation ?_
  rintro doc l' rfl
  refine .bind takes_expectWord fun _ l₁ h₁ => ?_
  refine .bind takes_identifier fun name l₂ h₂ => ?_
  refine .bind (takes_expect (by decide)) fun opened l₃ h₃ => ?_
  refine .bind (diagnosed_bodyItems fun l'' t rest hle hcons =>
    diagnosed_messageItem hcons (each _ l'' (by omega))) ?_
  rintro items l₄ ⟨h₄, hitems⟩
  refine .bind (diagnosed_ofBuild_of_isWritable Message.build_eq fun k hk => ?_) ?_
  · obtain ⟨f, hf, rfl⟩ := List.mem_map.mp hk
    exact Tag.isWritable_of_isValid (List.forall_mem_filterMap.mpr hitems f hf)
  · rintro m l₅ ⟨-, -, rfl⟩
    exact .pure (by omega)

end Inner

theorem takes_messageWithin {depth : Nat} {scope : Scope} (enough : l.tokens.length < depth) :
    Takes text (messageWithin depth scope) l := by
  induction depth generalizing l scope with
  | zero => omega
  | succ depth ih =>
      rw [messageWithin]
      exact takes_messageWith fun scope l' hlt => ih (by omega)

theorem takes_message {scope : Scope} : Takes text (message scope) l := by
  unfold message
  refine .bind diagnosed_budget ?_
  rintro _ _ ⟨rfl, rfl⟩
  exact takes_messageWithin (Nat.lt_succ_self _)

/-! ### Files -/

theorem takes_dialectStatement : Takes text dialectStatement l := by
  unfold dialectStatement
  refine .bind takes_expectWord fun _ l₁ h₁ => ?_
  refine .bind (takes_expect (by decide)) fun _ l₂ h₂ => ?_
  refine .bind (takes_expect (by decide)) fun _ l₃ h₃ => ?_
  exact takes_semicolon.mono fun _ l₄ h₄ => by omega

theorem takes_packageStatement {package : Option String} (cons : l.tokens = t :: rest)
    (isWord : t.isWord "package" = true) : Takes text (packageStatement package t) l := by
  unfold packageStatement
  cases package with
  | some declared => exact .fail
  | none =>
      have hkind := Token.kind_of_isWord isWord
      refine .bind (takes_next cons hkind (by decide)) fun _ l₁ h₁ => ?_
      refine .bind takes_qualifiedName fun _ l₂ h₂ => ?_
      refine .bind takes_semicolon fun _ l₃ h₃ => ?_
      exact .pure (by omega)

theorem takes_importStatement (cons : l.tokens = t :: rest) (isWord : t.isWord "import" = true) :
    Takes text importStatement l := by
  unfold importStatement
  have hkind := Token.kind_of_isWord isWord
  refine .bind (takes_next cons hkind (by decide)) fun _ l₁ h₁ => ?_
  refine .bind diagnosed_skipsWord fun _ l₂ h₂ => ?_
  refine .bind (takes_expect (by decide)) fun path l₃ h₃ => ?_
  refine .bind (diagnosed_decodeString path) ?_
  rintro _ _ rfl
  refine .bind takes_semicolon fun _ l₄ h₄ => ?_
  exact .pure (by omega)

theorem takes_fileItem {package : Option String} (cons : l.tokens = t :: rest) :
    Takes text (fileItem package t) l := by
  unfold fileItem
  refine .ite (fun hkind => ?_) fun _ => .ite (fun _ => ?_) fun _ => .ite (fun hword => ?_) fun _ =>
    .ite (fun hword => ?_) fun _ => .ite (fun _ => ?_) fun _ => .ite (fun _ => ?_) fun _ =>
    .ite (fun _ => ?_) fun _ => .ite (fun _ => ?_) fun _ => .ite (fun _ => ?_) fun _ => .fail
  · exact .bind (takes_next cons hkind (by decide)) fun _ _ h => .pure h
  · exact .bind takes_dialectStatement fun _ _ h => .pure h
  · exact .bind (takes_packageStatement cons hword) fun _ _ h => .pure h
  · exact takes_importStatement cons hword
  · exact .bind takes_optionStatement fun _ _ h => .pure h
  · exact .bind takes_message fun _ _ h => .pure h
  · exact .bind takes_enumeration fun _ _ h => .pure h
  · exact .bind takes_service fun _ _ h => .pure h
  · exact .bind takes_extension fun _ _ h => .pure h

theorem diagnosed_fileItemsWithin {n : Nat} {package : Option String}
    (rounds : l.tokens.length < n) :
    Diagnosed text (fileItemsWithin n package) l fun _ _ => True := by
  induction n generalizing l package with
  | zero => omega
  | succ n ih =>
      rw [fileItemsWithin]
      refine .bind diagnosed_peek_zero ?_
      rintro t _ ⟨rfl, rest, hcons⟩
      refine .ite (fun _ => .pure trivial) fun _ => ?_
      refine .bind (takes_fileItem hcons) fun item l₁ h₁ => ?_
      exact .bind (ih (by omega)) fun _ _ _ => .pure trivial

theorem diagnosed_file {fileName : String} :
    Diagnosed text (file fileName) l fun _ _ => True := by
  unfold file
  refine .bind diagnosed_budget ?_
  rintro _ _ ⟨rfl, rfl⟩
  exact .bind (diagnosed_fileItemsWithin (Nat.lt_succ_self _)) fun _ _ _ => .pure trivial

/-! ### An integer that is too long -/

section Overlong

variable {e : Numeral.ReadError} {ts ms us : List Token} {equals : Token} {first : NamePart}
  {parts : List NamePart}

theorem outcome_value_of_overlong (kind : t.kind = .integer) (value : t.integerValue = .error e) :
    Parser.value.outcome ⟨t :: us, none⟩ = .error (.numeral e) := by
  have hvalue : (decodeInteger t).outcome ⟨us, none⟩ = .error (.numeral e) := by
    rw [decodeInteger, show IntegerLiteral.read t.lexeme.toList = _ from value]
    rfl
  have hfrom (inner : Parser Value) [TokenDriven inner] :
      (valueFrom inner t).outcome ⟨t :: us, none⟩ = .error (.numeral e) := by
    simp only [valueFrom, kind]
    refine outcome_bind_of_error ?_
    rw [integerLiteral, outcome_bind_of_reads ((reads_next_of_kind (by decide) kind).mpr ⟨rfl, rfl⟩)]
    exact hvalue
  rw [Parser.value, outcome_bind_of_reads (reads_budget.mpr ⟨rfl, rfl⟩), valueWithin, valueWith_eq,
    outcome_bind_of_reads (reads_peek_zero.mpr ⟨rfl, us, rfl⟩)]
  exact hfrom _

theorem outcome_setting_of_overlong (head : NamePartAt ts first ms)
    (more : MorePartsAt ms parts (equals :: t :: us)) (equalsKind : equals.kind = .equals)
    (kind : t.kind = .integer) (value : t.integerValue = .error e) :
    setting.outcome ⟨ts, none⟩ = .error (.numeral e) := by
  have hrounds : parts.length < ms.length + 1 := by
    have := more.length_le
    omega
  rw [setting, settingWith, outcome_bind_of_reads (reads_namePart.mpr head),
    outcome_bind_of_reads (reads_budget.mpr ⟨rfl, rfl⟩),
    outcome_bind_of_reads (reads_moreNameParts.mpr ⟨hrounds, more⟩),
    outcome_bind_of_reads ((reads_expect (by decide)).mpr ⟨rfl, equalsKind⟩)]
  exact outcome_bind_of_error (outcome_value_of_overlong kind value)

/-- A file that starts with an option is not read if the value is an integer that is not. -/
theorem outcome_file_of_overlong {fileName : String} {word : Token}
    (isWord : word.isWord "option" = true) (head : NamePartAt ts first ms)
    (more : MorePartsAt ms parts (equals :: t :: us)) (equalsKind : equals.kind = .equals)
    (kind : t.kind = .integer) (value : t.integerValue = .error e) :
    (file fileName).outcome ⟨word :: ts, none⟩ = .error (.numeral e) := by
  have hitem : (fileItem none word).outcome ⟨word :: ts, none⟩ = .error (.numeral e) := by
    rw [fileItem_eq isWord, fileItemOf, optionStatement]
    refine outcome_bind_of_error ?_
    rw [outcome_bind_of_reads (reads_expectWord.mpr ⟨rfl, isWord⟩)]
    exact outcome_bind_of_error (outcome_setting_of_overlong head more equalsKind kind value)
  rw [file, outcome_bind_of_reads (reads_budget.mpr ⟨rfl, rfl⟩)]
  refine outcome_bind_of_error ?_
  rw [fileItemsWithin, outcome_bind_of_reads (reads_peek_zero.mpr ⟨rfl, ts, rfl⟩),
    if_neg (by simp [isEnd_eq_false_of_isWord isWord])]
  exact outcome_bind_of_error hitem

end Overlong

end Parser

/-- The tokens of an option that is set to a decimal integer. -/
theorem SchemaFile.exists_tokensOf_option (fileName : String) {digits : List Char}
    (some : digits ≠ []) (all : ∀ c ∈ digits, c.isDigit = true) :
    ∃ word name equals t semi e, TokensOf fileName
        ("option x = " ++ String.ofList digits ++ ";").toList [word, name, equals, t, semi] e ∧
      word.isWord "option" = true ∧ name.kind = .identifier ∧ equals.kind = .equals ∧
      t.kind = .integer ∧ t.lexeme = String.ofList digits := by
  obtain ⟨d, ds, rfl⟩ := List.exists_cons_of_ne_nil some
  obtain ⟨hd, hds⟩ := List.forall_mem_cons.mp all
  have hoption : IsIdentifier "option" := isIdentifier_of rfl rfl rfl
  have hx : IsIdentifier "x" := isIdentifier_of rfl rfl rfl
  -- The text is laid from its end to its start.
  have hend := Lays.symbol (p := .behind .integer) (c := ';') rfl (Pen.fits_behind rfl)
    (.done (.behind .semicolon))
  have hnumber := Lays.token (p := .gap) (Lexeme.spells_digits (.inl rfl) hd hds)
    (fun c _ => Pen.fits_gap c) hend
  have hequals := Lays.symbol (p := .gap) (c := '=') rfl (Pen.fits_gap _)
    (Lays.space (p := .behind .equals) hnumber)
  have hname := Lays.token (p := .gap) hx.spells (fun c _ => Pen.fits_gap c)
    (Lays.space (p := .behind .identifier) hequals)
  obtain ⟨ws, hwrites, hwritten⟩ := Lays.token (p := .line) hoption.spells
    (fun c _ => Pen.fits_line c) (Lays.space (p := .behind .identifier) hname)
  obtain ⟨ts, e, tokens, hts⟩ := hwrites.tokensOf fileName
  obtain ⟨word, _, hcons, hword, name, _, rfl, hname, equals, _, rfl, hequals, t, _, rfl, ht,
    semi, _, rfl, -, rfl⟩ := hwritten ts [] hts
  rw [List.append_nil] at hcons
  have hsource : ("option x = " ++ String.ofList (d :: ds) ++ ";").toList = "option".toList ++
      ' ' :: ("x".toList ++ ' ' :: '=' :: ' ' :: ([] ++ d :: ds ++ [';'])) := by simp
  exact ⟨word, name, equals, t, semi, e, hsource ▸ hcons ▸ tokens, Token.isWord_of_written hword,
    Token.kind_of_written hname, hequals, Token.kind_of_written ht, Token.lexeme_of_written ht⟩

/-- An option is not read if it is set to an integer with too many digits. -/
theorem SchemaFile.parse_overlong (fileName : String) {digits : List Char}
    (all : ∀ c ∈ digits, c.isDigit = true) (long : Numeral.digitLimit < digits.length) :
    SchemaFile.parse fileName ("option x = " ++ String.ofList digits ++ ";") =
      .error (.numeral (.tooManyDigits digits.length)) := by
  obtain ⟨word, name, equals, t, semi, e, tokens, isWord, nameKind, equalsKind, kind, lexeme⟩ :=
    exists_tokensOf_option fileName (List.ne_nil_of_length_pos (Nat.zero_lt_of_lt long)) all
  have hparts : MorePartsAt (equals :: t :: [semi, e]) [] (equals :: t :: [semi, e]) :=
    .nil (by simp [equalsKind])
  have hvalue : t.integerValue = .error (.tooManyDigits digits.length) := by
    rw [Token.integerValue, lexeme, String.toList_ofList, IntegerLiteral.read_overlong all long]
  rw [SchemaFile.parse_eq_outcome, tokens.1]
  exact congrArg (Except.map (·.1)) (Parser.outcome_file_of_overlong isWord (.builtIn nameKind)
    hparts equalsKind kind hvalue)

theorem SchemaFile.parse_replicate_overlong (fileName : String) {n : Nat}
    (long : Numeral.digitLimit < n) :
    SchemaFile.parse fileName ("option x = " ++ String.ofList (List.replicate n '1') ++ ";") =
      .error (.numeral (.tooManyDigits n)) := by
  rw [parse_overlong fileName (fun c hc => ?_) (by rwa [List.length_replicate]),
    List.length_replicate]
  rw [List.eq_of_mem_replicate hc]
  rfl

/-- If a text is not parsed, there is an error of its characters, of its grammar or against a rule
of the model, or an integer in it has too many digits to be converted. -/
theorem failure_is_diagnostic_or_overlong {fileName source : String} {failure : Failure}
    (refused : SchemaFile.parse fileName source = .error failure) :
    failure.IsDiagnostic ∨
      failure.IsOverlong (Lexed.ofText fileName source.toList).tokens := by
  let l := Lexed.ofText fileName source.toList
  have hfile : Parser.Diagnosed l.tokens (Parser.file fileName) l fun _ _ => True :=
    Parser.diagnosed_file
  have hleft := hfile (Lexed.leftOf_ofText fileName source.toList)
  rw [SchemaFile.parse_eq_outcome] at refused
  cases houtcome : (Parser.file fileName).outcome (Lexed.ofText fileName source.toList) with
  | ok r => simp [houtcome, Except.map] at refused
  | error e =>
      rw [houtcome] at refused
      cases refused
      simpa only [l, houtcome] using hleft

theorem failure_is_overlong_of_option :
    SchemaFile.parse "a.proto" ("option x = " ++ String.ofList (List.replicate 4301 '1') ++ ";") =
        .error (.numeral (.tooManyDigits 4301)) ∧
      Failure.IsOverlong (Lexed.ofText "a.proto"
          ("option x = " ++ String.ofList (List.replicate 4301 '1') ++ ";").toList).tokens
        (.numeral (.tooManyDigits 4301)) := by
  have hparse := SchemaFile.parse_replicate_overlong "a.proto"
    (by decide : Numeral.digitLimit < 4301)
  exact ⟨hparse, (failure_is_diagnostic_or_overlong hparse).resolve_left id⟩

/-- A decimal integer of 4301 digits is an error that is none of the text. -/
theorem not_every_failure_is_diagnostic :
    ¬ ∀ (fileName source : String) (failure : Failure),
      SchemaFile.parse fileName source = .error failure → failure.IsDiagnostic := by
  intro h
  exact h "a.proto" _ _
    (SchemaFile.parse_replicate_overlong "a.proto" (by decide : Numeral.digitLimit < 4301))

end Proto2

import Proto2.Proofs.Schema.Stands

/-!
Declarations take tokens.

The items of a body start with a semicolon or a word, and each takes a token at least, so that
the rounds in which they are read do not run out before the tokens do.
-/

namespace Proto2

/-- Relations that items of bodies satisfy: an item starts with a semicolon or a word, and takes
a token at least. -/
structure IsItem {α : Type} (At : List Token → α → List Token → Prop) : Prop where
  start : ∀ {ts a us}, At ts a us →
    ∃ t rest, ts = t :: rest ∧ (t.kind = .semicolon ∨ t.kind = .identifier)
  progress : ∀ {ts a us}, At ts a us → us.length < ts.length

/-- The tokens of an item start with a semicolon or a word, and with no other token. -/
theorem IsItem.notAtKind {α : Type} {At : List Token → α → List Token → Prop} (isItem : IsItem At)
    {ts us : List Token} {a : α} (h : At ts a us) {kind : TokenKind}
    (other : kind ∉ [TokenKind.semicolon, .identifier]) : NotAtKind kind ts := by
  obtain ⟨t, rest, rfl, hk⟩ := isItem.start h
  refine notAtKind_cons.mpr ?_
  rintro rfl
  exact other (by simpa using hk)

section Progress

variable {ts us : List Token}

theorem TokenAt.length_lt {kind : TokenKind} (h : TokenAt kind ts us) :
    us.length < ts.length := by
  obtain ⟨t, rfl, -⟩ := h
  simp

theorem TokenAt.start (h : TokenAt .semicolon ts us) :
    ∃ t rest, ts = t :: rest ∧ (t.kind = .semicolon ∨ t.kind = .identifier) := by
  obtain ⟨t, rfl, hk⟩ := h
  exact ⟨t, _, rfl, .inl hk⟩

theorem SettingsAt.length_le {ss : List Setting} (h : SettingsAt ts ss us) :
    us.length ≤ ts.length := by
  induction h with
  | nil => exact Nat.le_refl _
  | cons head separator tail ih =>
      have h₁ := head.length
      have h₂ := separator.length_le
      simp only at h₁
      omega

theorem TrailingAt.length_le {ss : List Setting} (h : TrailingAt ts ss us) :
    us.length ≤ ts.length := by
  cases h with
  | none => exact Nat.le_refl _
  | some settings =>
      obtain ⟨opening, ms, closing, rfl, -, hss, -⟩ := settings
      have := hss.length_le
      simp only [List.length_cons] at this ⊢
      omega

theorem OptionAt.isItem : IsItem OptionAt where
  start h := by
    cases h with
    | mk isWord => exact ⟨_, _, rfl, .inr (Token.kind_of_isWord isWord)⟩
  progress h := by
    cases h with
    | mk isWord setting semiKind =>
        have := setting.length
        simp only [List.length_cons] at this ⊢
        omega

theorem FieldAt.isItem : IsItem FieldAt where
  start h := by
    cases h with
    | mk kind => exact ⟨_, _, rfl, .inr kind⟩
  progress h := by
    cases h with
    | mk _ _ typeName _ _ _ _ settings _ =>
        have h₁ := typeName.length_lt
        have h₂ := settings.length_le
        simp only [List.length_cons] at h₁ h₂ ⊢
        omega

theorem Separated.length_lt {α : Type} {step : List Token → α → List Token → Prop}
    (progress : ∀ {ts a us}, step ts a us → us.length < ts.length) {as : List α}
    (h : Separated step ts as us) : us.length < ts.length := by
  induction h with
  | last head stop => exact progress head
  | cons head kind tail ih =>
      have := progress head
      simp only [List.length_cons] at this
      omega

theorem RangeAt.length_lt {doc : String} {r : ExtensionRange} (h : RangeAt doc ts r us) :
    us.length < ts.length := by
  cases h <;> simp <;> omega

theorem RangesAt.isItem : IsItem RangesAt where
  start h := by
    cases h with
    | mk isWord => exact ⟨_, _, rfl, .inr (Token.kind_of_isWord isWord)⟩
  progress h := by
    cases h with
    | mk _ ranges _ =>
        have := ranges.length_lt RangeAt.length_lt
        simp only [List.length_cons] at this ⊢
        omega

theorem EnumItemAt.isItem : IsItem EnumItemAt where
  start h := by
    cases h with
    | empty semi => exact semi.start
    | option h => exact OptionAt.isItem.start h
    | value h =>
        cases h with
        | mk kind => exact ⟨_, _, rfl, .inr kind⟩
  progress h := by
    cases h with
    | empty semi => exact semi.length_lt
    | option h => exact OptionAt.isItem.progress h
    | value h =>
        cases h with
        | mk _ _ _ _ settings _ =>
            have := settings.length_le
            simp only [List.length_cons] at this ⊢
            omega

theorem Sequence.length_le_of_isItem {α : Type} {At : List Token → α → List Token → Prop}
    (isItem : IsItem At) {as : List α} (h : Sequence At ts as us) : us.length ≤ ts.length := by
  have := h.length_le fun _ _ _ => isItem.progress
  omega

theorem EnumerationAt.isItem (scope : Scope) : IsItem (EnumerationAt scope) where
  start h := by
    cases h with
    | mk isWord => exact ⟨_, _, rfl, .inr (Token.kind_of_isWord isWord)⟩
  progress h := by
    cases h with
    | mk _ _ _ body _ =>
        have := body.length_le_of_isItem EnumItemAt.isItem
        simp only [List.length_cons] at this ⊢
        omega

theorem RpcTypeAt.length_lt {name : String} (h : RpcTypeAt ts name us) :
    us.length < ts.length := by
  cases h with
  | mk _ inner _ =>
      have := inner.length_lt
      simp only [List.length_cons] at this ⊢
      omega

theorem RpcItemAt.isItem : IsItem RpcItemAt where
  start h := by
    cases h with
    | empty semi => exact semi.start
    | option h => exact OptionAt.isItem.start h
  progress h := by
    cases h with
    | empty semi => exact semi.length_lt
    | option h => exact OptionAt.isItem.progress h

theorem RpcBodyAt.length_lt {ss : List Setting} (h : RpcBodyAt ts ss us) :
    us.length < ts.length := by
  cases h with
  | none semi => exact semi.length_lt
  | some _ body _ semi =>
      have h₁ := body.length_le_of_isItem RpcItemAt.isItem
      have h₂ := semi.length_le
      simp only [List.length_cons] at h₁ ⊢
      omega

theorem RpcAt.isItem : IsItem RpcAt where
  start h := by
    cases h with
    | mk isWord => exact ⟨_, _, rfl, .inr (Token.kind_of_isWord isWord)⟩
  progress h := by
    cases h with
    | mk _ _ requestType _ responseType body =>
        have h₁ := requestType.length_lt
        have h₂ := responseType.length_lt
        have h₃ := body.length_lt
        simp only [List.length_cons] at h₁ ⊢
        omega

theorem ServiceItemAt.isItem : IsItem ServiceItemAt where
  start h := by
    cases h with
    | empty semi => exact semi.start
    | option h => exact OptionAt.isItem.start h
    | rpc h => exact RpcAt.isItem.start h
  progress h := by
    cases h with
    | empty semi => exact semi.length_lt
    | option h => exact OptionAt.isItem.progress h
    | rpc h => exact RpcAt.isItem.progress h

theorem ServiceAt.isItem (scope : Scope) : IsItem (ServiceAt scope) where
  start h := by
    cases h with
    | mk isWord => exact ⟨_, _, rfl, .inr (Token.kind_of_isWord isWord)⟩
  progress h := by
    cases h with
    | mk _ _ _ body _ =>
        have := body.length_le_of_isItem ServiceItemAt.isItem
        simp only [List.length_cons] at this ⊢
        omega

theorem ExtendItemAt.isItem : IsItem ExtendItemAt where
  start h := by
    cases h with
    | empty semi => exact semi.start
    | field h => exact FieldAt.isItem.start h
  progress h := by
    cases h with
    | empty semi => exact semi.length_lt
    | field h => exact FieldAt.isItem.progress h

theorem ExtendAt.isItem (scope : Scope) : IsItem (ExtendAt scope) where
  start h := by
    cases h with
    | mk isWord => exact ⟨_, _, rfl, .inr (Token.kind_of_isWord isWord)⟩
  progress h := by
    cases h with
    | mk _ extended _ body _ =>
        have h₁ := extended.length_lt
        have h₂ := body.length_le_of_isItem ExtendItemAt.isItem
        simp only [List.length_cons] at h₁ h₂ ⊢
        omega

theorem PlainItemAt.isItem (scope : Scope) : IsItem (PlainItemAt scope) where
  start h := by
    cases h with
    | empty semi => exact semi.start
    | field h => exact FieldAt.isItem.start h
    | enumeration h => exact (EnumerationAt.isItem scope).start h
    | ranges h => exact RangesAt.isItem.start h
    | option h => exact OptionAt.isItem.start h
    | extension h => exact (ExtendAt.isItem scope).start h
  progress h := by
    cases h with
    | empty semi => exact semi.length_lt
    | field h => exact FieldAt.isItem.progress h
    | enumeration h => exact (EnumerationAt.isItem scope).progress h
    | ranges h => exact RangesAt.isItem.progress h
    | option h => exact OptionAt.isItem.progress h
    | extension h => exact (ExtendAt.isItem scope).progress h

/-- A message takes tokens, items may take none. -/
theorem MessageAt.length {scope : Scope} {part : MessagePart} (h : MessageAt scope part ts us) :
    match part with
    | .message _ => us.length < ts.length
    | .items _ => us.length ≤ ts.length := by
  induction h with
  | message isWord kind openKind body closeKind ih =>
      simp only [List.length_cons] at ih ⊢
      omega
  | noItems => exact Nat.le_refl _
  | plain head tail ih =>
      have := (PlainItemAt.isItem _).progress head
      simp only at ih ⊢
      omega
  | nested head tail ih₁ ih₂ =>
      simp only at ih₁ ih₂ ⊢
      omega

theorem FileItemAt.isItem (package : Option String) : IsItem (FileItemAt package) where
  start h := by
    cases h with
    | empty semi => exact semi.start
    | dialect isWord => exact ⟨_, _, rfl, .inr (Token.kind_of_isWord isWord)⟩
    | package _ isWord => exact ⟨_, _, rfl, .inr (Token.kind_of_isWord isWord)⟩
    | imported isWord => exact ⟨_, _, rfl, .inr (Token.kind_of_isWord isWord)⟩
    | publiclyImported isWord => exact ⟨_, _, rfl, .inr (Token.kind_of_isWord isWord)⟩
    | option h => exact OptionAt.isItem.start h
    | message h =>
        cases h with
        | message isWord => exact ⟨_, _, rfl, .inr (Token.kind_of_isWord isWord)⟩
    | enumeration h => exact (EnumerationAt.isItem _).start h
    | service h => exact (ServiceAt.isItem _).start h
    | extension h => exact (ExtendAt.isItem _).start h
  progress h := by
    cases h with
    | empty semi => exact semi.length_lt
    | dialect =>
        simp only [List.length_cons]
        omega
    | package _ _ inner _ =>
        have := inner.length_lt
        simp only [List.length_cons] at this ⊢
        omega
    | imported =>
        simp only [List.length_cons]
        omega
    | publiclyImported =>
        simp only [List.length_cons]
        omega
    | option h => exact OptionAt.isItem.progress h
    | message h => exact h.length
    | enumeration h => exact (EnumerationAt.isItem _).progress h
    | service h => exact (ServiceAt.isItem _).progress h
    | extension h => exact (ExtendAt.isItem _).progress h

/-- No item of a file starts where the input ends. -/
theorem FileItemAt.notAtEnd {package : Option String} {i : Parser.FileItem}
    (h : FileItemAt package ts i us) : NotAtKind .endOfInput ts :=
  (FileItemAt.isItem package).notAtKind h (by decide)

theorem FileItemsAt.length_le {package : Option String} {items : List Parser.FileItem}
    (h : FileItemsAt package ts items us) :
    items.length + us.length ≤ ts.length := by
  induction h with
  | nil => simp
  | cons head tail ih =>
      have := (FileItemAt.isItem _).progress head
      simp only [List.length_cons]
      omega

end Progress

end Proto2

import Proto2.Proofs.Schema.Bodies

/-!
Reading messages.

Messages nest, and their depth is bounded by the number of tokens.  What is read stands in the
tokens whatever the bound, and what stands there is read once the bound is as large as the
number of tokens it takes.
-/

namespace Proto2

namespace Parser

variable {ts us : List Token} {t : Token}

/-- The message and the extensions in it are legal. -/
def MessageWithExtensions.IsValid (m : MessageWithExtensions) : Prop :=
  m.message.IsValid ∧ ∀ e ∈ m.extensions, e.IsValid

/-- What the item declares is legal. -/
def MessageItem.IsValid (i : MessageItem) : Prop :=
  (∀ f ∈ i.field?, f.IsValid) ∧ (∀ t ∈ i.type?, t.IsValid) ∧ (∀ r ∈ i.ranges, r.IsValid) ∧
    ∀ e ∈ i.extensions, e.IsValid

theorem MessageItem.isValid_iff {i : MessageItem} :
    i.IsValid ↔
      match i with
      | .empty | .option _ => True
      | .field f => f.IsValid
      | .message m => m.IsValid
      | .enumeration e => e.IsValid
      | .extensionRanges rs => ∀ r ∈ rs, r.IsValid
      | .extension e => e.IsValid := by
  cases i <;> simp [IsValid, MessageWithExtensions.IsValid, field?, type?, ranges, extensions]

theorem MessageItem.forall_isValid_iff {items : List MessageItem} :
    (∀ i ∈ items, i.IsValid) ↔
      (∀ f ∈ items.filterMap (·.field?), f.IsValid) ∧
        (∀ t ∈ items.filterMap (·.type?), t.IsValid) ∧
        (∀ r ∈ items.flatMap (·.ranges), r.IsValid) ∧
        ∀ e ∈ items.flatMap (·.extensions), e.IsValid := by
  simp only [MessageItem.IsValid, List.forall_mem_filterMap, List.forall_mem_flatMap,
    Option.mem_def, forall_and]

/-- The items of a message are legal exactly if the message is, apart from the rules that
concern several of its items, and the extensions in it are. -/
theorem isValid_messageOfItems {scope : Scope} {name doc : String} {items : List MessageItem}
    (h : (messageOfItems scope name doc items).IsValid) : ∀ i ∈ items, i.IsValid := by
  obtain ⟨halone, htypes⟩ := Message.isValid_iff.mp h.1
  exact MessageItem.forall_isValid_iff.mpr ⟨halone.fields, htypes, halone.ranges, h.2⟩

theorem Token.isWord_iff {t : Token} {word : String} :
    t.isWord word = true ↔ t.kind = .identifier ∧ t.lexeme = word := by
  simp [Token.isWord]

theorem startsField_of_isWord {word : String} (h : t.isWord word = true)
    (noLabel : Label.ofText? word = none) : startsField t = false := by
  simp [startsField, (Token.isWord_iff.mp h).2, noLabel]

theorem isWord_eq_decide {word : String} (h : t.isWord word = true) (other : String) :
    t.isWord other = decide (word = other) := by
  simp [Token.isWord, Token.isWord_iff.mp h]

theorem isWord_of_enumerationAt {scope : Scope} {e : Enumeration}
    (h : EnumerationAt scope (t :: ts) e us) : t.isWord "enum" = true := by
  cases h with
  | mk isWord => exact isWord

theorem isWord_of_rangesAt {rs : List ExtensionRange} (h : RangesAt (t :: ts) rs us) :
    t.isWord "extensions" = true := by
  cases h with
  | mk isWord => exact isWord

theorem isWord_of_optionAt {s : Setting} (h : OptionAt (t :: ts) s us) :
    t.isWord "option" = true := by
  cases h with
  | mk isWord => exact isWord

theorem isWord_of_extendAt {scope : Scope} {e : Extend} (h : ExtendAt scope (t :: ts) e us) :
    t.isWord "extend" = true := by
  cases h with
  | mk isWord => exact isWord

theorem isWord_of_messageAt {scope : Scope} {m : MessageWithExtensions}
    (h : MessageAt scope (.message m) (t :: ts) us) : t.isWord "message" = true := by
  cases h with
  | message isWord => exact isWord

section Inner

variable {inner : Scope → Parser MessageWithExtensions} [∀ scope, TokenDriven (inner scope)]

instance tokenDriven_messageItem (scope : Scope) (name : String) (t : Token) :
    TokenDriven (messageItem inner scope name t) := by
  unfold messageItem
  infer_instance

instance tokenDriven_messageWith (scope : Scope) : TokenDriven (messageWith inner scope) := by
  unfold messageWith
  infer_instance

/-- The item that starts with a word that is no label. -/
def messageItemOf (inner : Scope → Parser MessageWithExtensions) (scope : Scope) (name : String)
    (t : Token) : String → Parser MessageItem
  | "message" => return .message (← inner scope)
  | "enum" => return .enumeration (← enumeration scope)
  | "extensions" => return .extensionRanges (← extensionRanges)
  | "option" => return .option (← optionStatement)
  | "extend" => return .extension (← extension scope)
  | _ => fail .schema t (.misplaced .message name)

omit [∀ scope, TokenDriven (inner scope)] in
theorem messageItem_eq {scope : Scope} {name word : String} (h : t.isWord word = true)
    (noLabel : Label.ofText? word = none) :
    messageItem inner scope name t = messageItemOf inner scope name t word := by
  simp only [messageItem, Token.kind_of_isWord h, startsField_of_isWord h noLabel,
    isWord_eq_decide h, reduceCtorEq, Bool.false_eq_true, if_false, decide_eq_true_eq]
  fun_cases messageItemOf inner scope name t word with
  | case6 _ h₁ h₂ h₃ h₄ h₅ => rw [if_neg h₁, if_neg h₂, if_neg h₃, if_neg h₄, if_neg h₅]
  | _ => simp

/-- An item is a message, which is read by the inner reader, or one of the others. -/
theorem reads_messageItem {scope : Scope} {name : String} {item : MessageItem} :
    Reads (messageItem inner scope name t) (t :: ts) item us ↔
      (PlainItemAt scope (t :: ts) item us ∧ item.IsValid) ∨
        (t.isWord "message" = true ∧ ∃ m, item = .message m ∧ Reads (inner scope) (t :: ts) m us) := by
  constructor
  · simp only [messageItem, reads_ite, reads_map, reads_enumeration, reads_extensionRanges,
      reads_optionStatement, reads_extension, not_reads_fail, and_false, or_false]
    rintro (⟨hk, _, hnext, rfl⟩ | ⟨-, ⟨hs, f, hf, rfl⟩ | ⟨-, ⟨hw, m, hm, rfl⟩ |
      ⟨-, ⟨-, e, ⟨he, hvalid⟩, rfl⟩ | ⟨-, ⟨-, rs, ⟨hrs, hvalid⟩, rfl⟩ |
      ⟨-, ⟨-, s, hs, rfl⟩ | ⟨-, -, e, ⟨he, hvalid⟩, rfl⟩⟩⟩⟩⟩⟩)
    · obtain ⟨-, rfl⟩ := (reads_next_of_kind (by decide) hk).mp hnext
      exact .inl ⟨.empty ⟨t, rfl, hk⟩, MessageItem.isValid_iff.mpr trivial⟩
    · obtain ⟨hf, hvalid⟩ := (reads_field (kind_of_startsField hs)).mp hf
      exact .inl ⟨.field hf, MessageItem.isValid_iff.mpr hvalid⟩
    · exact .inr ⟨hw, m, rfl, hm⟩
    · exact .inl ⟨.enumeration he, MessageItem.isValid_iff.mpr hvalid⟩
    · exact .inl ⟨.ranges hrs, MessageItem.isValid_iff.mpr hvalid⟩
    · exact .inl ⟨.option hs, MessageItem.isValid_iff.mpr trivial⟩
    · exact .inl ⟨.extension he, MessageItem.isValid_iff.mpr hvalid⟩
  · rintro (⟨h, hvalid⟩ | ⟨hw, m, rfl, hm⟩)
    · cases h with
      | empty semi =>
          obtain ⟨_, ⟨⟩, hk⟩ := semi
          rw [messageItem, if_pos hk, reads_map]
          exact ⟨t, (reads_next_of_kind (by decide) hk).mpr ⟨rfl, rfl⟩, rfl⟩
      | field h =>
          have hs := startsField_of_fieldAt h
          have hk := kind_of_startsField hs
          rw [messageItem, if_neg (by simp [hk]), if_pos hs, reads_map]
          exact ⟨_, (reads_field hk).mpr ⟨h, MessageItem.isValid_iff.mp hvalid⟩, rfl⟩
      | enumeration h =>
          rw [messageItem_eq (isWord_of_enumerationAt h) rfl, messageItemOf, reads_map]
          exact ⟨_, reads_enumeration.mpr ⟨h, MessageItem.isValid_iff.mp hvalid⟩, rfl⟩
      | ranges h =>
          rw [messageItem_eq (isWord_of_rangesAt h) rfl, messageItemOf, reads_map]
          exact ⟨_, reads_extensionRanges.mpr ⟨h, MessageItem.isValid_iff.mp hvalid⟩, rfl⟩
      | option h =>
          rw [messageItem_eq (isWord_of_optionAt h) rfl, messageItemOf, reads_map]
          exact ⟨_, reads_optionStatement.mpr h, rfl⟩
      | extension h =>
          rw [messageItem_eq (isWord_of_extendAt h) rfl, messageItemOf, reads_map]
          exact ⟨_, reads_extension.mpr ⟨h, MessageItem.isValid_iff.mp hvalid⟩, rfl⟩
    · rw [messageItem_eq hw rfl, messageItemOf, reads_map]
      exact ⟨m, hm, rfl⟩

/-- What the inner reader has to satisfy: it reads legal messages that stand in the tokens. -/
def SoundMessages (inner : Scope → Parser MessageWithExtensions) : Prop :=
  ∀ scope ts m us, Reads (inner scope) ts m us → MessageAt scope (.message m) ts us ∧ m.IsValid

variable {scope : Scope}

theorem SoundMessages.isItem (sound : SoundMessages inner) (name : String) :
    IsItem (StepAt (messageItem inner scope name)) where
  start := by
    rintro _ a us ⟨t, rest, rfl, h⟩
    rcases reads_messageItem.mp h with ⟨h, -⟩ | ⟨hw, -⟩
    · exact (PlainItemAt.isItem scope).start h
    · exact ⟨t, rest, rfl, .inr (Token.kind_of_isWord hw)⟩
  progress := by
    rintro _ a us ⟨t, rest, rfl, h⟩
    rcases reads_messageItem.mp h with ⟨h, -⟩ | ⟨-, m, rfl, hm⟩
    · exact (PlainItemAt.isItem scope).progress h
    · exact (sound scope _ m us hm).1.length

theorem SoundMessages.items (sound : SoundMessages inner) {name : String}
    {items : List MessageItem} (h : Sequence (StepAt (messageItem inner scope name)) ts items us) :
    MessageAt scope (.items items) ts us ∧ ∀ i ∈ items, i.IsValid := by
  induction h with
  | nil => exact ⟨.noItems, by simp⟩
  | cons head tail ih =>
      obtain ⟨t, rest, rfl, h⟩ := head
      rcases reads_messageItem.mp h with ⟨h, hvalid⟩ | ⟨-, m, rfl, hm⟩
      · exact ⟨.plain h ih.1, List.forall_mem_cons.mpr ⟨hvalid, ih.2⟩⟩
      · obtain ⟨hat, hvalid⟩ := sound scope _ m _ hm
        have hitem : (MessageItem.message m).IsValid := MessageItem.isValid_iff.mpr hvalid
        exact ⟨.nested hat ih.1, List.forall_mem_cons.mpr ⟨hitem, ih.2⟩⟩

/-- Given that messages in it are read soundly, a message is read as its items are, and it is
legal. -/
theorem reads_messageWith (sound : SoundMessages inner) {m : MessageWithExtensions} :
    Reads (messageWith inner scope) ts m us ↔
      ∃ word name opening closing ms items, ts = word :: name :: opening :: ms ∧
        word.isWord "message" = true ∧ name.kind = .identifier ∧ opening.kind = .openBrace ∧
        Sequence (StepAt (messageItem inner (scope.nested name.lexeme) name.lexeme)) ms items
          (closing :: us) ∧ closing.kind = .closeBrace ∧
        m = messageOfItems scope name.lexeme word.documentation items ∧ m.message.IsValid := by
  rw [messageWith, reads_bind_documentation]
  simp only [reads_bind, reads_expectWord, reads_identifier,
    reads_expect (by decide : TokenKind.openBrace ≠ _),
    reads_bodyItems_of_isItem (sound.isItem _), reads_ofBuild, reads_pure]
  constructor
  · rintro ⟨_, _, rfl, word, _, ⟨⟨⟩, hw⟩, _, _, ⟨name, rfl, hname, rfl⟩, opening, _, ⟨rfl, ho⟩, items, _,
      ⟨closing, hc, hitems⟩, message, _, ⟨hbuild, rfl⟩, rfl, rfl⟩
    obtain ⟨hfields, htypes, hranges, -⟩ :=
      MessageItem.forall_isValid_iff.mp (sound.items hitems).2
    obtain ⟨rfl, hvalid⟩ := (Message.build_eq_ok hfields htypes hranges).mp hbuild
    exact ⟨_, name, opening, closing, _, items, rfl, hw, hname, ho, hitems, hc, rfl, hvalid⟩
  · rintro ⟨word, name, opening, closing, ms, items, rfl, hw, hname, ho, hitems, hc, rfl, hvalid⟩
    obtain ⟨hfields, htypes, hranges, -⟩ :=
      MessageItem.forall_isValid_iff.mp (sound.items hitems).2
    exact ⟨_, _, rfl, word, _, ⟨rfl, hw⟩, _, _, ⟨name, rfl, hname, rfl⟩, opening, ms, ⟨rfl, ho⟩, items, us,
      ⟨closing, hc, hitems⟩, _, us,
      ⟨(Message.build_eq_ok hfields htypes hranges).mpr ⟨rfl, hvalid⟩, rfl⟩, rfl, rfl⟩

theorem SoundMessages.messageWith (sound : SoundMessages inner) :
    SoundMessages (messageWith inner) := by
  intro scope ts m us h
  obtain ⟨word, name, opening, closing, ms, items, rfl, hw, hname, ho, hitems, hc, rfl, hvalid⟩ :=
    (reads_messageWith sound).mp h
  obtain ⟨hat, hitemsValid⟩ := sound.items hitems
  exact ⟨.message hw hname ho hat hc, hvalid, (MessageItem.forall_isValid_iff.mp hitemsValid).2.2.2⟩

end Inner

instance tokenDriven_messageWithin (depth : Nat) (scope : Scope) :
    TokenDriven (messageWithin depth scope) := by
  induction depth generalizing scope with
  | zero =>
      unfold messageWithin
      infer_instance
  | succ depth ih =>
      unfold messageWithin
      infer_instance

instance tokenDriven_message (scope : Scope) : TokenDriven (message scope) := by
  unfold message
  infer_instance

theorem soundMessages_messageWithin (depth : Nat) : SoundMessages (messageWithin depth) := by
  induction depth with
  | zero =>
      intro scope ts m us h
      simp [messageWithin] at h
  | succ depth ih =>
      intro scope ts m us h
      rw [messageWithin] at h
      exact ih.messageWith scope ts m us h

/-- What a reader of messages has to do for a legal part, at some depth. -/
def CompleteMessages (depth : Nat) (scope : Scope) : MessagePart → List Token → List Token → Prop
  | .message m, ts, us => m.IsValid → Reads (messageWithin depth scope) ts m us
  | .items items, ts, us => ∀ name, (∀ i ∈ items, i.IsValid) →
    Sequence (StepAt (messageItem (messageWithin depth) scope name)) ts items us

/-- A legal message that stands in the tokens is read, if the depth is at least the number of
tokens taken. -/
theorem completeMessages_of_messageAt {scope : Scope} {part : MessagePart}
    (h : MessageAt scope part ts us) :
    ∀ depth, ts.length ≤ us.length + depth → CompleteMessages depth scope part ts us := by
  -- Along what stands in the tokens: a message takes more tokens than its items do, which is what
  -- pays for the level of the depth.
  induction h with
  | message isWord kind openKind body closeKind ih =>
      intro depth hd
      have hlen := body.length
      simp only [List.length_cons] at hd hlen
      obtain ⟨depth, rfl⟩ : ∃ d, depth = d + 1 := ⟨depth - 1, by omega⟩
      intro hvalid
      rw [messageWithin]
      exact (reads_messageWith (soundMessages_messageWithin depth)).mpr ⟨_, _, _, _, _, _, rfl,
        isWord, kind, openKind, ih depth (by simp only [List.length_cons]; omega) _
          (isValid_messageOfItems hvalid), closeKind, rfl, hvalid.1⟩
  | noItems => exact fun _ _ _ _ => .nil
  | plain head tail ih =>
      intro depth hd name hvalid
      have h₁ := (PlainItemAt.isItem _).progress head
      simp only [List.mem_cons, forall_eq_or_imp] at hvalid
      obtain ⟨t, rest, rfl, -⟩ := (PlainItemAt.isItem _).start head
      exact .cons ⟨t, rest, rfl, reads_messageItem.mpr (.inl ⟨head, hvalid.1⟩)⟩
        (ih depth (by omega) name hvalid.2)
  | nested head tail ih₁ ih₂ =>
      intro depth hd name hvalid
      have h₁ := head.length
      have h₂ := tail.length
      simp only at h₁ h₂
      rw [List.forall_mem_cons] at hvalid
      have hm := ih₁ depth (by omega) (MessageItem.isValid_iff.mp hvalid.1)
      cases head with
      | message isWord =>
          exact .cons ⟨_, _, rfl, reads_messageItem.mpr (.inr ⟨isWord, _, rfl, hm⟩)⟩
            (ih₂ depth (by omega) name hvalid.2)

/-- The parser of messages reads exactly the legal messages that stand in the tokens. -/
theorem reads_message {scope : Scope} {m : MessageWithExtensions} :
    Reads (message scope) ts m us ↔ MessageAt scope (.message m) ts us ∧ m.IsValid := by
  rw [message, reads_bind_budget]
  constructor
  · exact soundMessages_messageWithin _ scope ts m us
  · rintro ⟨h, hvalid⟩
    exact completeMessages_of_messageAt h _ (by omega) hvalid

end Parser

end Proto2

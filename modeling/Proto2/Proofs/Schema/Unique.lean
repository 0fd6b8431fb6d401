import Proto2.Proofs.Schema.Files

/-!
Tokens start with one declaration at most.

What is read without a check is unique because it is read.  For declarations that are checked
this does not do, since an illegal one stands in the tokens and is not read; for them the token
or the two tokens at the start decide.
-/

namespace Proto2

open Proto2.Parser

/-- Relations that leave no choice. -/
def IsUnique {α : Type} (At : List Token → α → List Token → Prop) : Prop :=
  ∀ ⦃ts us vs a b⦄, At ts a us → At ts b vs → a = b ∧ us = vs

theorem IsUnique.of_reads {α : Type} {p : Parser α} {At : List Token → α → List Token → Prop}
    (reads : ∀ {ts a us}, Reads p ts a us ↔ At ts a us) : IsUnique At :=
  fun _ _ _ _ _ h h' => (reads.mpr h).unique (reads.mpr h')

/-- Items before the brace that closes a body are unique if each of them is. -/
theorem Sequence.unique {α : Type} {At : List Token → α → List Token → Prop} (isItem : IsItem At)
    (isUnique : IsUnique At) {ts us vs : List Token} {as bs : List α} {close close' : Token}
    (h : Sequence At ts as (close :: us)) (kind : close.kind = .closeBrace)
    (h' : Sequence At ts bs (close' :: vs)) (kind' : close'.kind = .closeBrace) :
    as = bs ∧ us = vs := by
  generalize hclose : close :: us = rest at h
  induction h generalizing bs with
  | nil =>
      subst hclose
      cases h' with
      | nil => exact ⟨rfl, rfl⟩
      | cons head tail => exact absurd kind (notAtKind_cons.mp (isItem.notAtKind head (by decide)))
  | cons head tail ih =>
      cases h' with
      | nil => exact absurd kind' (notAtKind_cons.mp (isItem.notAtKind head (by decide)))
      | cons head' tail' =>
          obtain ⟨rfl, rfl⟩ := isUnique head head'
          obtain ⟨rfl, rfl⟩ := ih tail' hclose
          exact ⟨rfl, rfl⟩

theorem Separated.unique {α : Type} {At : List Token → α → List Token → Prop}
    (isUnique : IsUnique At) : IsUnique (Separated At) := by
  intro ts us vs as bs h h'
  induction h generalizing bs with
  | last head stop =>
      cases h' with
      | last head' stop' =>
          obtain ⟨rfl, rfl⟩ := isUnique head head'
          exact ⟨rfl, rfl⟩
      | cons head' kind' tail' =>
          obtain ⟨rfl, rfl⟩ := isUnique head head'
          exact absurd kind' (notAtKind_cons.mp stop)
  | cons head kind tail ih =>
      cases h' with
      | last head' stop' =>
          obtain ⟨rfl, rfl⟩ := isUnique head head'
          exact absurd kind (notAtKind_cons.mp stop')
      | cons head' kind' tail' =>
          obtain ⟨rfl, heq⟩ := isUnique head head'
          cases heq
          obtain ⟨rfl, rfl⟩ := ih tail'
          exact ⟨rfl, rfl⟩

section Pieces

theorem TokenAt.unique {k : TokenKind} {ts us vs : List Token} (h : TokenAt k ts us)
    (h' : TokenAt k ts vs) : us = vs := by
  obtain ⟨t, rfl, -⟩ := h
  obtain ⟨t', heq, -⟩ := h'
  cases heq
  rfl

theorem NameAt.unique : IsUnique NameAt :=
  IsUnique.of_reads (p := qualifiedName .schema "name") reads_qualifiedName

theorem TrailingAt.unique : IsUnique TrailingAt :=
  IsUnique.of_reads reads_trailingSettings

theorem OptionAt.unique : IsUnique OptionAt :=
  IsUnique.of_reads reads_optionStatement

theorem ServiceAt.unique (scope : Scope) : IsUnique (ServiceAt scope) :=
  IsUnique.of_reads reads_service

theorem FieldAt.unique : IsUnique FieldAt := by
  intro ts us vs f g h h'
  cases h with
  | mk kind known typeName nameKind equalsKind numberKind value settings semiKind =>
      cases h' with
      | mk _ known' typeName' _ _ _ value' settings' _ =>
          cases known.symm.trans known'
          obtain ⟨rfl, heq⟩ := NameAt.unique typeName typeName'
          cases heq
          cases value.symm.trans value'
          obtain ⟨rfl, heq⟩ := TrailingAt.unique settings settings'
          cases heq
          exact ⟨rfl, rfl⟩

theorem RangeAt.unique (doc : String) : IsUnique (RangeAt doc) := by
  intro ts us vs r s h h'
  cases h with
  | single kind value stop =>
      cases h' with
      | single _ value' _ =>
          cases value.symm.trans value'
          exact ⟨rfl, rfl⟩
      | between _ _ isWord' => simp [isWord'] at stop
      | onwards _ _ isWord' => simp [isWord'] at stop
  | between kind value isWord lastKind lastValue =>
      cases h' with
      | single _ _ stop' => simp [isWord] at stop'
      | between _ value' _ _ lastValue' =>
          cases value.symm.trans value'
          cases lastValue.symm.trans lastValue'
          exact ⟨rfl, rfl⟩
      | onwards _ _ _ isGreatest' => simp [Token.isWord, lastKind] at isGreatest'
  | onwards kind value isWord isGreatest =>
      cases h' with
      | single _ _ stop' => simp [isWord] at stop'
      | between _ _ _ lastKind' => simp [Token.isWord, lastKind'] at isGreatest
      | onwards _ value' =>
          cases value.symm.trans value'
          exact ⟨rfl, rfl⟩

theorem RangesAt.unique : IsUnique RangesAt := by
  intro ts us vs rs rs' h h'
  cases h with
  | mk isWord ranges semiKind =>
      cases h' with
      | mk _ ranges' _ =>
          obtain ⟨rfl, heq⟩ := Separated.unique (RangeAt.unique _) ranges ranges'
          cases heq
          exact ⟨rfl, rfl⟩

theorem EnumValueAt.unique : IsUnique EnumValueAt := by
  intro ts us vs v w h h'
  cases h with
  | mk kind equalsKind numberKind value settings semiKind =>
      cases h' with
      | mk _ _ _ value' settings' _ =>
          cases value.symm.trans value'
          obtain ⟨rfl, heq⟩ := TrailingAt.unique settings settings'
          cases heq
          exact ⟨rfl, rfl⟩

/-- A semicolon starts nothing that starts with a word. -/
theorem TokenAt.not_isWord {t : Token} {ts us : List Token} {w : String}
    (h : TokenAt .semicolon (t :: ts) us) : t.isWord w = false := by
  obtain ⟨_, ⟨⟩, hk⟩ := h
  simp [Token.isWord, hk]

/-- A setting does not start with an equals sign, so a value called like the word of a statement
is no statement. -/
theorem OptionAt.not_enumValueAt {ts us vs : List Token} {s : Setting} {v : EnumValue}
    (h : OptionAt ts s us) (h' : EnumValueAt ts v vs) : False := by
  cases h with
  | mk isWord setting semiKind =>
      cases h' with
      | mk kind equalsKind =>
          cases setting with
          | setting head =>
              cases head with
              | builtIn kind' => simp [equalsKind] at kind'
              | custom kind' => simp [equalsKind] at kind'

theorem EnumItemAt.unique : IsUnique EnumItemAt := by
  intro ts us vs i j h h'
  cases h with
  | empty semi =>
      cases h' with
      | empty semi' => exact ⟨rfl, semi.unique semi'⟩
      | option h' =>
          cases h' with
          | mk isWord' => simp [semi.not_isWord] at isWord'
      | value h' =>
          cases h' with
          | mk kind' =>
              obtain ⟨_, ⟨⟩, hk⟩ := semi
              simp [hk] at kind'
  | option h =>
      cases h' with
      | empty semi' =>
          cases h with
          | mk isWord => simp [semi'.not_isWord] at isWord
      | option h' =>
          obtain ⟨rfl, rfl⟩ := OptionAt.unique h h'
          exact ⟨rfl, rfl⟩
      | value h' => exact (h.not_enumValueAt h').elim
  | value h =>
      cases h' with
      | empty semi' =>
          cases h with
          | mk kind =>
              obtain ⟨_, ⟨⟩, hk⟩ := semi'
              simp [hk] at kind
      | option h' => exact (h'.not_enumValueAt h).elim
      | value h' =>
          obtain ⟨rfl, rfl⟩ := EnumValueAt.unique h h'
          exact ⟨rfl, rfl⟩

theorem EnumerationAt.unique (scope : Scope) : IsUnique (EnumerationAt scope) := by
  intro ts us vs e e' h h'
  cases h with
  | mk isWord kind openKind body closeKind =>
      cases h' with
      | mk _ _ _ body' closeKind' =>
          obtain ⟨rfl, rfl⟩ :=
            Sequence.unique EnumItemAt.isItem EnumItemAt.unique body closeKind body' closeKind'
          exact ⟨rfl, rfl⟩

theorem ExtendItemAt.unique : IsUnique ExtendItemAt := by
  intro ts us vs i j h h'
  cases h with
  | empty semi =>
      cases h' with
      | empty semi' => exact ⟨rfl, semi.unique semi'⟩
      | field h' =>
          cases h' with
          | mk kind' =>
              obtain ⟨_, ⟨⟩, hk⟩ := semi
              simp [hk] at kind'
  | field h =>
      cases h' with
      | empty semi' =>
          cases h with
          | mk kind =>
              obtain ⟨_, ⟨⟩, hk⟩ := semi'
              simp [hk] at kind
      | field h' =>
          obtain ⟨rfl, rfl⟩ := FieldAt.unique h h'
          exact ⟨rfl, rfl⟩

theorem ExtendAt.unique (scope : Scope) : IsUnique (ExtendAt scope) := by
  intro ts us vs e e' h h'
  cases h with
  | mk isWord extended openKind body closeKind =>
      cases h' with
      | mk _ extended' _ body' closeKind' =>
          obtain ⟨rfl, heq⟩ := NameAt.unique extended extended'
          cases heq
          obtain ⟨rfl, rfl⟩ :=
            Sequence.unique ExtendItemAt.isItem ExtendItemAt.unique body closeKind body' closeKind'
          exact ⟨rfl, rfl⟩

end Pieces

/-! ### Messages -/

/-- How an item of a message starts. -/
def Parser.MessageItem.StartsWith (t : Token) : MessageItem → Prop
  | .empty => t.kind = .semicolon
  | .field _ => t.kind = .identifier ∧ (Label.ofText? t.lexeme).isSome
  | .message _ => t.isWord "message" = true
  | .enumeration _ => t.isWord "enum" = true
  | .extensionRanges _ => t.isWord "extensions" = true
  | .option _ => t.isWord "option" = true
  | .extension _ => t.isWord "extend" = true

theorem FieldAt.startsWith {t : Token} {ts us : List Token} {f : Field}
    (h : FieldAt (t :: ts) f us) : t.kind = .identifier ∧ (Label.ofText? t.lexeme).isSome := by
  cases h with
  | mk kind known => exact ⟨kind, by simp [known]⟩

theorem PlainItemAt.startsWith {scope : Scope} {t : Token} {ts us : List Token}
    {item : MessageItem} (h : PlainItemAt scope (t :: ts) item us) : item.StartsWith t := by
  cases h with
  | empty semi =>
      obtain ⟨_, ⟨⟩, hk⟩ := semi
      exact hk
  | field h => exact h.startsWith
  | enumeration h => exact isWord_of_enumerationAt h
  | ranges h => exact isWord_of_rangesAt h
  | option h => exact isWord_of_optionAt h
  | extension h => exact isWord_of_extendAt h

/-- The word or the semicolon at the start tells the items of a message apart. -/
theorem Parser.MessageItem.StartsWith.ctorIdx_eq {t : Token} {i j : MessageItem}
    (h : i.StartsWith t) (h' : j.StartsWith t) : i.ctorIdx = j.ctorIdx := by
  cases i <;> cases j <;>
    simp_all [MessageItem.StartsWith, MessageItem.ctorIdx, Token.isWord_iff, Label.ofText?,
      Label.text]

theorem PlainItemAt.unique (scope : Scope) : IsUnique (PlainItemAt scope) := by
  intro ts us vs i j h h'
  obtain ⟨t, ts, rfl, -⟩ := (PlainItemAt.isItem scope).start h
  have hsame := h.startsWith.ctorIdx_eq h'.startsWith
  cases h with
  | empty semi =>
      cases h' with
      | empty semi' => exact ⟨rfl, semi.unique semi'⟩
      | _ => cases hsame
  | field h =>
      cases h' with
      | field h' =>
          obtain ⟨rfl, rfl⟩ := FieldAt.unique h h'
          exact ⟨rfl, rfl⟩
      | _ => cases hsame
  | enumeration h =>
      cases h' with
      | enumeration h' =>
          obtain ⟨rfl, rfl⟩ := EnumerationAt.unique scope h h'
          exact ⟨rfl, rfl⟩
      | _ => cases hsame
  | ranges h =>
      cases h' with
      | ranges h' =>
          obtain ⟨rfl, rfl⟩ := RangesAt.unique h h'
          exact ⟨rfl, rfl⟩
      | _ => cases hsame
  | option h =>
      cases h' with
      | option h' =>
          obtain ⟨rfl, rfl⟩ := OptionAt.unique h h'
          exact ⟨rfl, rfl⟩
      | _ => cases hsame
  | extension h =>
      cases h' with
      | extension h' =>
          obtain ⟨rfl, rfl⟩ := ExtendAt.unique scope h h'
          exact ⟨rfl, rfl⟩
      | _ => cases hsame

theorem PlainItemAt.not_messageAt {scope scope' : Scope} {ts us vs : List Token}
    {i : MessageItem} {m : MessageWithExtensions} (h : PlainItemAt scope ts i us)
    (h' : MessageAt scope' (.message m) ts vs) : False := by
  obtain ⟨t, ts, rfl, -⟩ := (PlainItemAt.isItem scope).start h
  have hstart : (MessageItem.message m).StartsWith t := isWord_of_messageAt h'
  have hsame := h.startsWith.ctorIdx_eq hstart
  cases h <;> cases hsame

/-- No message starts with the brace that closes a body. -/
theorem MessageAt.notAtCloseBrace {scope : Scope} {ts us : List Token}
    {m : MessageWithExtensions} (h : MessageAt scope (.message m) ts us) :
    NotAtKind .closeBrace ts := by
  cases h with
  | message isWord => simp [Token.kind_of_isWord isWord]

/-- Neither does one of the other items of a message. -/
theorem PlainItemAt.notAtCloseBrace {scope : Scope} {ts us : List Token} {i : MessageItem}
    (h : PlainItemAt scope ts i us) : NotAtKind .closeBrace ts :=
  (PlainItemAt.isItem scope).notAtKind h (by decide)

/-- What is unique about a message or its items: the items are as far as they are closed. -/
def MessagePart.IsUniqueAt (scope : Scope) (ts us : List Token) : MessagePart → Prop
  | .message m => ∀ {n vs}, MessageAt scope (.message n) ts vs → m = n ∧ us = vs
  | .items is => AtKind .closeBrace us → ∀ {js vs}, AtKind .closeBrace vs →
      MessageAt scope (.items js) ts vs → is = js ∧ us = vs

theorem MessageAt.isUniqueAt {scope : Scope} {part : MessagePart} {ts us : List Token}
    (h : MessageAt scope part ts us) : part.IsUniqueAt scope ts us := by
  -- No item starts with the brace that closes the body, so both readings end there.
  induction h with
  | message isWord kind openKind body closeKind ih =>
      intro n vs h'
      cases h' with
      | message _ _ _ body' closeKind' =>
          obtain ⟨rfl, heq⟩ := ih (by simpa using closeKind) (by simpa using closeKind') body'
          cases heq
          exact ⟨rfl, rfl⟩
  | noItems =>
      intro hus js vs hvs h'
      cases h' with
      | noItems => exact ⟨rfl, rfl⟩
      | plain head' tail' => exact absurd hus head'.notAtCloseBrace.not_atKind
      | nested head' tail' => exact absurd hus head'.notAtCloseBrace.not_atKind
  | plain head tail ih =>
      intro hus js vs hvs h'
      cases h' with
      | noItems => exact absurd hvs head.notAtCloseBrace.not_atKind
      | plain head' tail' =>
          obtain ⟨rfl, rfl⟩ := PlainItemAt.unique _ head head'
          obtain ⟨rfl, rfl⟩ := ih hus hvs tail'
          exact ⟨rfl, rfl⟩
      | nested head' tail' => exact (head.not_messageAt head').elim
  | nested head tail ih₁ ih₂ =>
      intro hus js vs hvs h'
      cases h' with
      | noItems => exact absurd hvs head.notAtCloseBrace.not_atKind
      | plain head' tail' => exact (head'.not_messageAt head).elim
      | nested head' tail' =>
          obtain ⟨rfl, rfl⟩ := ih₁ head'
          obtain ⟨rfl, rfl⟩ := ih₂ hus hvs tail'
          exact ⟨rfl, rfl⟩

theorem MessageAt.unique (scope : Scope) :
    IsUnique fun ts m us => MessageAt scope (.message m) ts us :=
  fun _ _ _ _ _ h h' => h.isUniqueAt h'

/-! ### Files -/

/-- How an item of a file starts. -/
def Parser.FileItem.StartsWith (t : Token) : FileItem → Prop
  | .empty => t.kind = .semicolon
  | .dialect => t.isWord "syntax" = true
  | .package _ => t.isWord "package" = true
  | .imported _ _ => t.isWord "import" = true
  | .option _ => t.isWord "option" = true
  | .message _ => t.isWord "message" = true
  | .enumeration _ => t.isWord "enum" = true
  | .service _ => t.isWord "service" = true
  | .extension _ => t.isWord "extend" = true

theorem FileItemAt.startsWith {package : Option String} {t : Token} {ts us : List Token}
    {item : FileItem} (h : FileItemAt package (t :: ts) item us) : item.StartsWith t := by
  cases h with
  | empty semi =>
      obtain ⟨_, ⟨⟩, hk⟩ := semi
      exact hk
  | dialect isWord => exact isWord
  | package _ isWord => exact isWord
  | imported isWord => exact isWord
  | publiclyImported isWord => exact isWord
  | option h => exact isWord_of_optionAt h
  | message h => exact isWord_of_messageAt h
  | enumeration h => exact isWord_of_enumerationAt h
  | service h => exact isWord_of_serviceAt h
  | extension h => exact isWord_of_extendAt h

/-- The word or the semicolon at the start tells the items of a file apart. -/
theorem Parser.FileItem.StartsWith.ctorIdx_eq {t : Token} {i j : FileItem}
    (h : i.StartsWith t) (h' : j.StartsWith t) : i.ctorIdx = j.ctorIdx := by
  cases i <;> cases j <;> simp_all [FileItem.StartsWith, FileItem.ctorIdx, Token.isWord_iff]

theorem FileItemAt.unique (package : Option String) : IsUnique (FileItemAt package) := by
  intro ts us vs i j h h'
  obtain ⟨t, ts, rfl, -⟩ := (FileItemAt.isItem package).start h
  have hsame := h.startsWith.ctorIdx_eq h'.startsWith
  cases h with
  | empty semi =>
      cases h' with
      | empty semi' => exact ⟨rfl, semi.unique semi'⟩
      | _ => cases hsame
  | dialect =>
      cases h' with
      | dialect => exact ⟨rfl, rfl⟩
      | _ => cases hsame
  | package _ _ inner =>
      cases h' with
      | package _ _ inner' =>
          obtain ⟨rfl, heq⟩ := NameAt.unique inner inner'
          cases heq
          exact ⟨rfl, rfl⟩
      | _ => cases hsame
  | imported _ pathKind value =>
      cases h' with
      | imported _ _ value' =>
          cases value.symm.trans value'
          exact ⟨rfl, rfl⟩
      | publiclyImported _ isPublic' => simp [Token.isWord, pathKind] at isPublic'
      | _ => cases hsame
  | publiclyImported _ isPublic _ value =>
      cases h' with
      | imported _ pathKind' => simp [Token.isWord, pathKind'] at isPublic
      | publiclyImported _ _ _ value' =>
          cases value.symm.trans value'
          exact ⟨rfl, rfl⟩
      | _ => cases hsame
  | option h =>
      cases h' with
      | option h' =>
          obtain ⟨rfl, rfl⟩ := OptionAt.unique h h'
          exact ⟨rfl, rfl⟩
      | _ => cases hsame
  | message h =>
      cases h' with
      | message h' =>
          obtain ⟨rfl, rfl⟩ := MessageAt.unique _ h h'
          exact ⟨rfl, rfl⟩
      | _ => cases hsame
  | enumeration h =>
      cases h' with
      | enumeration h' =>
          obtain ⟨rfl, rfl⟩ := EnumerationAt.unique _ h h'
          exact ⟨rfl, rfl⟩
      | _ => cases hsame
  | service h =>
      cases h' with
      | service h' =>
          obtain ⟨rfl, rfl⟩ := ServiceAt.unique _ h h'
          exact ⟨rfl, rfl⟩
      | _ => cases hsame
  | extension h =>
      cases h' with
      | extension h' =>
          obtain ⟨rfl, rfl⟩ := ExtendAt.unique _ h h'
          exact ⟨rfl, rfl⟩
      | _ => cases hsame

theorem FileItemsAt.unique (package : Option String) : IsUnique (FileItemsAt package) := by
  intro ts us vs is js h h'
  induction h generalizing js with
  | nil atEnd =>
      cases h' with
      | nil => exact ⟨rfl, rfl⟩
      | cons head' tail' => exact absurd atEnd head'.notAtEnd.not_atKind
  | cons head tail ih =>
      cases h' with
      | nil atEnd' => exact absurd atEnd' head.notAtEnd.not_atKind
      | cons head' tail' =>
          obtain ⟨rfl, rfl⟩ := FileItemAt.unique _ head head'
          obtain ⟨rfl, rfl⟩ := ih tail'
          exact ⟨rfl, rfl⟩

/-- One file at most stands in given tokens. -/
theorem FileStands.unique {fileName : String} {ts : List Token} {e : Token} {f g : SchemaFile}
    (h : FileStands fileName ts e f) (h' : FileStands fileName ts e g) : f = g := by
  obtain ⟨items, hitems, rfl⟩ := h
  obtain ⟨items', hitems', rfl⟩ := h'
  rw [(FileItemsAt.unique _ hitems hitems').1]

end Proto2

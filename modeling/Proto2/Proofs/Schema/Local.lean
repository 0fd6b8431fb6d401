import Proto2.Proofs.Schema.Reparsed
import Proto2.Proofs.Setting.Local

/-!
Statements end where they end.

Every statement of a file or of a message ends in a semicolon or a closing brace, and what it says
does not depend on the tokens behind that.  Only a procedure looks further, for the semicolon that
may stand behind its body, and the brace that closes the service stops it.
-/

namespace Proto2

open Proto2.Parser

/-! ### Pieces of declarations -/

theorem TrailingAt.isLocal : IsLocal TrailingAt := by
  intro rest rest' ts ss us us' hread spliced
  cases hread with
  | none stop => exact ⟨us', spliced, .none (spliced.notAtKind stop)⟩
  | some settings =>
      obtain ⟨ts', hts, hsettings⟩ := BracketedAt.isLocal settings spliced
      exact ⟨ts', hts, .some hsettings⟩

theorem OptionAt.isClosed : IsClosed OptionAt := by
  intro ts s us hread us'
  cases hread with
  | mk isWord setting semiKind =>
      obtain ⟨ts', hts, hsetting⟩ :=
        Stands.isLocal_setting.before_closer setting (.inl semiKind) us'
      exact ⟨_, .cons hts, .mk isWord hsetting semiKind⟩

theorem FieldAt.isClosed : IsClosed FieldAt := by
  intro ts f us hread us'
  cases hread with
  | mk kind known typeName nameKind equalsKind numberKind value settings semiKind =>
      obtain ⟨ms', hms, hsettings⟩ := TrailingAt.isLocal.before_closer settings (.inl semiKind) us'
      obtain ⟨ts', hts, htypeName⟩ := NameAt.isLocal typeName (.cons (.cons (.cons hms)))
      exact ⟨_, .cons hts,
        .mk kind known htypeName nameKind equalsKind numberKind value hsettings semiKind⟩

theorem RangeAt.isLocal (doc : String) : IsLocal (RangeAt doc) := by
  intro rest rest' ts r us us' hread spliced
  cases hread with
  | single kind value stop => exact ⟨_, .cons spliced, .single kind value (spliced.notAtWord stop)⟩
  | between kind value isWord lastKind lastValue =>
      exact ⟨_, .cons (.cons (.cons spliced)), .between kind value isWord lastKind lastValue⟩
  | onwards kind value isWord isGreatest =>
      exact ⟨_, .cons (.cons (.cons spliced)), .onwards kind value isWord isGreatest⟩

theorem RangesAt.isClosed : IsClosed RangesAt := by
  intro ts rs us hread us'
  cases hread with
  | mk isWord ranges semiKind =>
      obtain ⟨ts', hts, hranges⟩ :=
        (Separated.isLocal (RangeAt.isLocal _)).before_closer ranges (.inl semiKind) us'
      exact ⟨_, .cons hts, .mk isWord hranges semiKind⟩

theorem TokenAt.spliced {ts us : List Token} (h : TokenAt .semicolon ts us) (us' : List Token) :
    ∃ ts', Spliced us us' ts ts' ∧ TokenAt .semicolon ts' us' := by
  obtain ⟨t, rfl, hk⟩ := h
  exact ⟨_, .here (.inl hk), t, rfl, hk⟩

/-! ### Enums -/

theorem EnumValueAt.isClosed : IsClosed EnumValueAt := by
  intro ts v us hread us'
  cases hread with
  | mk kind equalsKind numberKind value settings semiKind =>
      obtain ⟨ts', hts, hsettings⟩ := TrailingAt.isLocal.before_closer settings (.inl semiKind) us'
      exact ⟨_, .cons (.cons (.cons hts)),
        .mk kind equalsKind numberKind value hsettings semiKind⟩

theorem EnumItemAt.isClosed : IsClosed EnumItemAt := by
  intro ts i us hread us'
  cases hread with
  | empty semi =>
      obtain ⟨ts', hts, hsemi⟩ := semi.spliced us'
      exact ⟨ts', hts, .empty hsemi⟩
  | option h =>
      obtain ⟨ts', hts, h'⟩ := OptionAt.isClosed h us'
      exact ⟨ts', hts, .option h'⟩
  | value h =>
      obtain ⟨ts', hts, h'⟩ := EnumValueAt.isClosed h us'
      exact ⟨ts', hts, .value h'⟩

theorem EnumerationAt.isClosed (scope : Scope) : IsClosed (EnumerationAt scope) := by
  intro ts e us hread us'
  cases hread with
  | mk isWord kind openKind body closeKind =>
      obtain ⟨ts', hts, hbody⟩ :=
        (Sequence.isLocal EnumItemAt.isClosed.isLocal).before_closer body (.inr closeKind) us'
      exact ⟨_, .cons (.cons (.cons hts)), .mk isWord kind openKind hbody closeKind⟩

/-! ### Services -/

theorem RpcTypeAt.isLocal : IsLocal RpcTypeAt := by
  intro rest rest' ts name us us' hread spliced
  cases hread with
  | mk openKind inner closeKind =>
      obtain ⟨ts', hts, hinner⟩ := NameAt.isLocal inner (.cons spliced)
      exact ⟨_, .cons hts, .mk openKind hinner closeKind⟩

theorem RpcItemAt.isClosed : IsClosed RpcItemAt := by
  intro ts i us hread us'
  cases hread with
  | empty semi =>
      obtain ⟨ts', hts, hsemi⟩ := semi.spliced us'
      exact ⟨ts', hts, .empty hsemi⟩
  | option h =>
      obtain ⟨ts', hts, h'⟩ := OptionAt.isClosed h us'
      exact ⟨ts', hts, .option h'⟩

/-- Behind the body of a procedure a semicolon is looked for. -/
theorem RpcBodyAt.isLocal : IsLocal RpcBodyAt := by
  intro rest rest' ts ss us us' hread spliced
  cases hread with
  | none semi =>
      obtain ⟨ts', hts, hsemi⟩ := semi.spliced us'
      exact ⟨ts', hts.trans spliced, .none hsemi⟩
  | some openKind body closeKind semi =>
      obtain ⟨ms', hms, hsemi⟩ := semi.spliced spliced
      obtain ⟨ts', hts, hbody⟩ := Sequence.isLocal RpcItemAt.isClosed.isLocal body (.cons hms)
      exact ⟨_, .cons hts, .some openKind hbody closeKind hsemi⟩

theorem RpcAt.isLocal : IsLocal RpcAt := by
  intro rest rest' ts r us us' hread spliced
  cases hread with
  | mk isWord kind requestType isReturns responseType body =>
      obtain ⟨ns', hns, hbody⟩ := RpcBodyAt.isLocal body spliced
      obtain ⟨ms', hms, hresponse⟩ := RpcTypeAt.isLocal responseType hns
      obtain ⟨ts', hts, hrequest⟩ := RpcTypeAt.isLocal requestType (.cons hms)
      exact ⟨_, .cons (.cons hts), .mk isWord kind hrequest isReturns hresponse hbody⟩

theorem ServiceItemAt.isLocal : IsLocal ServiceItemAt := by
  intro rest rest' ts i us us' hread spliced
  cases hread with
  | empty semi =>
      obtain ⟨ts', hts, hsemi⟩ := semi.spliced us'
      exact ⟨ts', hts.trans spliced, .empty hsemi⟩
  | option h =>
      obtain ⟨ts', hts, h'⟩ := OptionAt.isClosed.isLocal h spliced
      exact ⟨ts', hts, .option h'⟩
  | rpc h =>
      obtain ⟨ts', hts, h'⟩ := RpcAt.isLocal h spliced
      exact ⟨ts', hts, .rpc h'⟩

theorem ServiceAt.isClosed (scope : Scope) : IsClosed (ServiceAt scope) := by
  intro ts s us hread us'
  cases hread with
  | mk isWord kind openKind body closeKind =>
      obtain ⟨ts', hts, hbody⟩ :=
        (Sequence.isLocal ServiceItemAt.isLocal).before_closer body (.inr closeKind) us'
      exact ⟨_, .cons (.cons (.cons hts)), .mk isWord kind openKind hbody closeKind⟩

/-! ### Extensions -/

theorem ExtendItemAt.isClosed : IsClosed ExtendItemAt := by
  intro ts i us hread us'
  cases hread with
  | empty semi =>
      obtain ⟨ts', hts, hsemi⟩ := semi.spliced us'
      exact ⟨ts', hts, .empty hsemi⟩
  | field h =>
      obtain ⟨ts', hts, h'⟩ := FieldAt.isClosed h us'
      exact ⟨ts', hts, .field h'⟩

theorem ExtendAt.isClosed (scope : Scope) : IsClosed (ExtendAt scope) := by
  intro ts e us hread us'
  cases hread with
  | mk isWord extended openKind body closeKind =>
      obtain ⟨ms', hms, hbody⟩ :=
        (Sequence.isLocal ExtendItemAt.isClosed.isLocal).before_closer body (.inr closeKind) us'
      obtain ⟨ts', hts, hextended⟩ := NameAt.isLocal extended (.cons hms)
      exact ⟨_, .cons hts, .mk isWord hextended openKind hbody closeKind⟩

/-! ### Messages -/

theorem PlainItemAt.isClosed (scope : Scope) : IsClosed (PlainItemAt scope) := by
  intro ts i us hread us'
  cases hread with
  | empty semi =>
      obtain ⟨ts', hts, hsemi⟩ := semi.spliced us'
      exact ⟨ts', hts, .empty hsemi⟩
  | field h =>
      obtain ⟨ts', hts, h'⟩ := FieldAt.isClosed h us'
      exact ⟨ts', hts, .field h'⟩
  | enumeration h =>
      obtain ⟨ts', hts, h'⟩ := EnumerationAt.isClosed scope h us'
      exact ⟨ts', hts, .enumeration h'⟩
  | ranges h =>
      obtain ⟨ts', hts, h'⟩ := RangesAt.isClosed h us'
      exact ⟨ts', hts, .ranges h'⟩
  | option h =>
      obtain ⟨ts', hts, h'⟩ := OptionAt.isClosed h us'
      exact ⟨ts', hts, .option h'⟩
  | extension h =>
      obtain ⟨ts', hts, h'⟩ := ExtendAt.isClosed scope h us'
      exact ⟨ts', hts, .extension h'⟩

/-- A message or its items are read as before if what comes behind a closer changes. -/
theorem MessageAt.spliced {scope : Scope} {part : MessagePart} {rest rest' ts us us' : List Token}
    (h : MessageAt scope part ts us) (spliced : Spliced rest rest' us us') :
    ∃ ts', Spliced rest rest' ts ts' ∧ MessageAt scope part ts' us' := by
  induction h generalizing us' with
  | message isWord kind openKind body closeKind ih =>
      obtain ⟨ts', hts, hbody⟩ := ih (.cons spliced)
      exact ⟨_, .cons (.cons (.cons hts)), .message isWord kind openKind hbody closeKind⟩
  | noItems => exact ⟨us', spliced, .noItems⟩
  | plain head tail ih =>
      obtain ⟨ms', hms, htail⟩ := ih spliced
      obtain ⟨ts', hts, hhead⟩ := (PlainItemAt.isClosed _).isLocal head hms
      exact ⟨ts', hts, .plain hhead htail⟩
  | nested head tail ih₁ ih₂ =>
      obtain ⟨ms', hms, htail⟩ := ih₂ spliced
      obtain ⟨ts', hts, hhead⟩ := ih₁ hms
      exact ⟨ts', hts, .nested hhead htail⟩

theorem MessageAt.isClosed (scope : Scope) :
    IsClosed fun ts m us => MessageAt scope (.message m) ts us := by
  intro ts m us hread us'
  cases hread with
  | message isWord kind openKind body closeKind =>
      obtain ⟨ts', hts, hbody⟩ := body.spliced (.here (.inr closeKind))
      exact ⟨_, .cons (.cons (.cons hts)), .message isWord kind openKind hbody closeKind⟩

theorem MessageItemAt.isClosed (scope : Scope) : IsClosed (MessageItemAt scope) := by
  intro ts i us hread us'
  cases hread with
  | plain head tail =>
      cases tail
      obtain ⟨ts', hts, hhead⟩ := PlainItemAt.isClosed scope head us'
      exact ⟨ts', hts, .plain hhead .noItems⟩
  | nested head tail =>
      cases tail
      obtain ⟨ts', hts, hhead⟩ := MessageAt.isClosed scope head us'
      exact ⟨ts', hts, .nested hhead .noItems⟩

/-! ### Files -/

theorem FileItemAt.isClosed (package : Option String) : IsClosed (FileItemAt package) := by
  intro ts i us hread us'
  cases hread with
  | empty semi =>
      obtain ⟨ts', hts, hsemi⟩ := semi.spliced us'
      exact ⟨ts', hts, .empty hsemi⟩
  | dialect isWord equalsKind nameKind semiKind =>
      exact ⟨_, .cons (.cons (.cons (.here (.inl semiKind)))),
        .dialect isWord equalsKind nameKind semiKind⟩
  | package undeclared isWord inner semiKind =>
      obtain ⟨ts', hts, hinner⟩ := NameAt.isLocal.before_closer inner (.inl semiKind) us'
      exact ⟨_, .cons hts, .package undeclared isWord hinner semiKind⟩
  | imported isWord pathKind value semiKind =>
      exact ⟨_, .cons (.cons (.here (.inl semiKind))), .imported isWord pathKind value semiKind⟩
  | publiclyImported isWord isPublic pathKind value semiKind =>
      exact ⟨_, .cons (.cons (.cons (.here (.inl semiKind)))),
        .publiclyImported isWord isPublic pathKind value semiKind⟩
  | option h =>
      obtain ⟨ts', hts, h'⟩ := OptionAt.isClosed h us'
      exact ⟨ts', hts, .option h'⟩
  | message h =>
      obtain ⟨ts', hts, h'⟩ := MessageAt.isClosed _ h us'
      exact ⟨ts', hts, .message h'⟩
  | enumeration h =>
      obtain ⟨ts', hts, h'⟩ := EnumerationAt.isClosed _ h us'
      exact ⟨ts', hts, .enumeration h'⟩
  | service h =>
      obtain ⟨ts', hts, h'⟩ := ServiceAt.isClosed _ h us'
      exact ⟨ts', hts, .service h'⟩
  | extension h =>
      obtain ⟨ts', hts, h'⟩ := ExtendAt.isClosed _ h us'
      exact ⟨ts', hts, .extension h'⟩

end Proto2

import Proto2.Proofs.Schema.Grammar
import Proto2.Proofs.Setting.Legible

/-!
Declarations that can be written and read back.

Their names are names, their documentation is such as comments give, and their settings are
legible.  Declarations that stand in legible tokens are such.
-/

namespace Proto2

open Proto2.Parser

/-! ### Legible declarations -/

/-- All of the settings can be written and read back. -/
def LegibleSettings (ss : List Setting) : Prop :=
  ∀ s ∈ ss, s.Legible

/-- The text is an identifier. -/
def IsIdentifier (name : String) : Prop :=
  Lexeme.IdentifierForm name.toList

/-- A word is an identifier if its letters say so. -/
theorem isIdentifier_of {w : String} {c : Char} {cs : List Char} (h : w.toList = c :: cs)
    (start : Lexeme.isIdentifierStart c = true)
    (rest : cs.all Lexeme.isIdentifierPart = true) : IsIdentifier w :=
  ⟨c, cs, h, start, by simpa using rest⟩

/-- The field can be written and read back. -/
structure Field.Legible (f : Field) : Prop where
  type : IsName f.type
  name : IsIdentifier f.name
  documentation : Documentation.IsNormal f.documentation
  options : LegibleSettings f.options

/-- The range can be written and read back. -/
def ExtensionRange.Legible (r : ExtensionRange) : Prop :=
  Documentation.IsNormal r.documentation

/-- The value of an enum can be written and read back. -/
structure EnumValue.Legible (v : EnumValue) : Prop where
  name : IsIdentifier v.name
  documentation : Documentation.IsNormal v.documentation
  options : LegibleSettings v.options

/-- The enum can be written and read back. -/
structure Enumeration.Legible (e : Enumeration) : Prop where
  name : IsIdentifier e.name
  documentation : Documentation.IsNormal e.documentation
  options : LegibleSettings e.options
  values : ∀ v ∈ e.values, v.Legible

/-- The procedure can be written and read back. -/
structure Rpc.Legible (r : Rpc) : Prop where
  name : IsIdentifier r.name
  requestType : IsName r.requestType
  responseType : IsName r.responseType
  documentation : Documentation.IsNormal r.documentation
  options : LegibleSettings r.options

/-- The service can be written and read back. -/
structure Service.Legible (s : Service) : Prop where
  name : IsIdentifier s.name
  documentation : Documentation.IsNormal s.documentation
  options : LegibleSettings s.options
  rpcs : ∀ r ∈ s.rpcs, r.Legible

/-- The extension can be written and read back. -/
structure Extend.Legible (e : Extend) : Prop where
  name : IsName e.name
  documentation : Documentation.IsNormal e.documentation
  fields : ∀ f ∈ e.fields, f.Legible

/-- What is in the message, the types declared in it apart, can be written and read back. -/
structure Message.LegibleAlone (m : Message) : Prop where
  name : IsIdentifier m.name
  documentation : Documentation.IsNormal m.documentation
  options : LegibleSettings m.options
  fields : ∀ f ∈ m.fields, f.Legible
  ranges : ∀ r ∈ m.extensionRanges, r.Legible

/-- The type and everything declared in it can be written and read back. -/
inductive TypeDecl.Legible : TypeDecl → Prop
  | message {m : Message} (alone : m.LegibleAlone) (nested : ∀ t ∈ m.nestedTypes, Legible t) :
      Legible (.message m)
  | enumeration {e : Enumeration} (legible : e.Legible) : Legible (.enumeration e)

/-- What the file declares can be written and read back. -/
structure SchemaFile.Legible (f : SchemaFile) : Prop where
  package : ∀ p ∈ f.package, IsName p
  options : LegibleSettings f.options
  types : ∀ t ∈ f.types, t.Legible
  extensions : ∀ e ∈ f.extensions, e.Legible
  services : ∀ s ∈ f.services, s.Legible

/-! ### What stands in legible tokens -/

variable {ts us : List Token}

theorem AllLegible.tail {t : Token} (h : AllLegible (t :: ts)) : AllLegible ts :=
  fun u hu => h u (List.mem_cons_of_mem _ hu)

theorem AllLegible.identifier {t : Token} (h : AllLegible (t :: ts)) (kind : t.kind = .identifier) :
    IsIdentifier t.lexeme :=
  (h t List.mem_cons_self).form kind

theorem AllLegible.documentation {t : Token} (h : AllLegible (t :: ts)) :
    Documentation.IsNormal t.documentation :=
  (h t List.mem_cons_self).documentation

theorem SettingsAt.legible {ss : List Setting} (h : SettingsAt ts ss us)
    (legible : AllLegible ts) : LegibleSettings ss := by
  induction h with
  | nil => exact List.forall_mem_nil _
  | cons head separator tail ih =>
      have hms := head.begins.allLegible legible
      have hns := (separator.begins : Begins Token.HasValue _ _ _).allLegible hms
      exact List.forall_mem_cons.mpr ⟨head.legible legible, ih hns⟩

theorem TrailingAt.legible {ss : List Setting} (h : TrailingAt ts ss us)
    (legible : AllLegible ts) : LegibleSettings ss := by
  cases h with
  | none stop => exact List.forall_mem_nil _
  | some settings =>
      obtain ⟨opening, ms, closing, rfl, -, hss, -⟩ := settings
      exact hss.legible legible.tail

theorem OptionAt.legible {s : Setting} (h : OptionAt ts s us) (legible : AllLegible ts) :
    s.Legible := by
  cases h with
  | mk isWord setting semiKind => exact setting.legible legible.tail

theorem FieldAt.legible {f : Field} (h : FieldAt ts f us) (legible : AllLegible ts) :
    f.Legible := by
  cases h with
  | mk kind known typeName nameKind equalsKind numberKind value settings semiKind =>
      have hname := (typeName.begins : Begins Token.HasValue _ _ _).allLegible legible.tail
      exact ⟨typeName.isName legible.tail, hname.identifier nameKind, legible.documentation,
        settings.legible hname.tail.tail.tail⟩

theorem RangesAt.legible {rs : List ExtensionRange} (h : RangesAt ts rs us)
    (legible : AllLegible ts) : ∀ r ∈ rs, r.Legible := by
  cases h with
  | @mk word semi ts us rs isWord ranges semiKind =>
      have hdoc := legible.documentation
      -- Every range of the statement has the documentation of the statement.
      refine ranges.forall_of_tokens (P := ExtensionRange.Legible) RangeAt.begins (fun h _ => ?_)
        legible.tail
      cases h <;> exact hdoc

theorem EnumValueAt.legible {v : EnumValue} (h : EnumValueAt ts v us) (legible : AllLegible ts) :
    v.Legible := by
  cases h with
  | mk kind equalsKind numberKind value settings semiKind =>
      exact ⟨legible.identifier kind, legible.documentation,
        settings.legible legible.tail.tail.tail⟩

theorem forall_filterMap {α β : Type} {P : α → Prop} {Q : β → Prop} {f : α → Option β}
    {as : List α} (h : ∀ a ∈ as, P a) (each : ∀ a, P a → ∀ b ∈ f a, Q b) :
    ∀ b ∈ as.filterMap f, Q b := by
  intro b hb
  obtain ⟨a, ha, hb⟩ := List.mem_filterMap.mp hb
  exact each a (h a ha) b hb

/-- What the item sets or declares can be written and read back. -/
structure Parser.EnumItem.Legible (i : EnumItem) : Prop where
  setting : ∀ s ∈ i.setting?, s.Legible
  value : ∀ v ∈ i.value?, v.Legible

theorem EnumItemAt.legible {i : EnumItem} (h : EnumItemAt ts i us) (legible : AllLegible ts) :
    i.Legible := by
  cases h with
  | empty semi => exact ⟨by simp [EnumItem.setting?], by simp [EnumItem.value?]⟩
  | option h => exact ⟨by simpa [EnumItem.setting?] using h.legible legible,
      by simp [EnumItem.value?]⟩
  | value h => exact ⟨by simp [EnumItem.setting?],
      by simpa [EnumItem.value?] using h.legible legible⟩

theorem EnumerationAt.legible {scope : Scope} {e : Enumeration} (h : EnumerationAt scope ts e us)
    (legible : AllLegible ts) : e.Legible := by
  cases h with
  | @mk word name opening closing ts us items isWord kind openKind body closeKind =>
      have hitems : ∀ i ∈ items, i.Legible :=
        body.forall_of_tokens (P := EnumItem.Legible) EnumItemAt.begins EnumItemAt.legible legible.tail.tail.tail
      exact ⟨legible.tail.identifier kind, legible.documentation,
        forall_filterMap hitems fun i hi => hi.setting,
        forall_filterMap hitems fun i hi => hi.value⟩

theorem RpcTypeAt.isName {name : String} (h : RpcTypeAt ts name us) (legible : AllLegible ts) :
    IsName name := by
  cases h with
  | mk openKind inner closeKind => exact inner.isName legible.tail

theorem RpcItemAt.legible {i : Option Setting} (h : RpcItemAt ts i us) (legible : AllLegible ts) :
    ∀ s ∈ i, s.Legible := by
  cases h with
  | empty semi => simp
  | option h => simpa using h.legible legible

theorem RpcBodyAt.legible {ss : List Setting} (h : RpcBodyAt ts ss us)
    (legible : AllLegible ts) : LegibleSettings ss := by
  cases h with
  | none semi => exact List.forall_mem_nil _
  | some openKind body closeKind semi =>
      have hitems := body.forall_of_tokens (P := fun i => ∀ s ∈ i, s.Legible) RpcItemAt.begins
        RpcItemAt.legible legible.tail
      exact forall_filterMap hitems fun i hi => hi

theorem RpcAt.legible {r : Rpc} (h : RpcAt ts r us) (legible : AllLegible ts) : r.Legible := by
  cases h with
  | mk isWord kind requestType isReturns responseType body =>
      have hname := legible.tail
      have hreturns : AllLegible (_ :: _) :=
        (requestType.begins : Begins Token.HasValue _ _ _).allLegible hname.tail
      have hbody := (responseType.begins : Begins Token.HasValue _ _ _).allLegible hreturns.tail
      exact ⟨hname.identifier kind, requestType.isName hname.tail,
        responseType.isName hreturns.tail, legible.documentation, body.legible hbody⟩

/-- What the item sets or declares can be written and read back. -/
structure Parser.ServiceItem.Legible (i : ServiceItem) : Prop where
  setting : ∀ s ∈ i.setting?, s.Legible
  rpc : ∀ r ∈ i.rpc?, r.Legible

theorem ServiceItemAt.legible {i : ServiceItem} (h : ServiceItemAt ts i us)
    (legible : AllLegible ts) : i.Legible := by
  cases h with
  | empty semi => exact ⟨by simp [ServiceItem.setting?], by simp [ServiceItem.rpc?]⟩
  | option h => exact ⟨by simpa [ServiceItem.setting?] using h.legible legible,
      by simp [ServiceItem.rpc?]⟩
  | rpc h => exact ⟨by simp [ServiceItem.setting?],
      by simpa [ServiceItem.rpc?] using h.legible legible⟩

theorem ServiceAt.legible {scope : Scope} {s : Service} (h : ServiceAt scope ts s us)
    (legible : AllLegible ts) : s.Legible := by
  cases h with
  | @mk word name opening closing ts us items isWord kind openKind body closeKind =>
      have hitems : ∀ i ∈ items, i.Legible :=
        body.forall_of_tokens (P := ServiceItem.Legible) ServiceItemAt.begins ServiceItemAt.legible legible.tail.tail.tail
      exact ⟨legible.tail.identifier kind, legible.documentation,
        forall_filterMap hitems fun i hi => hi.setting,
        forall_filterMap hitems fun i hi => hi.rpc⟩

theorem ExtendItemAt.legible {i : Option Field} (h : ExtendItemAt ts i us)
    (legible : AllLegible ts) : ∀ f ∈ i, f.Legible := by
  cases h with
  | empty semi => simp
  | field h => simpa using h.legible legible

theorem ExtendAt.legible {scope : Scope} {e : Extend} (h : ExtendAt scope ts e us)
    (legible : AllLegible ts) : e.Legible := by
  cases h with
  | mk isWord extended openKind body closeKind =>
      have hopening : AllLegible (_ :: _) :=
        (extended.begins : Begins Token.HasValue _ _ _).allLegible legible.tail
      have hitems := body.forall_of_tokens (P := fun i => ∀ f ∈ i, f.Legible) ExtendItemAt.begins
        ExtendItemAt.legible hopening.tail
      exact ⟨extended.isName legible.tail, legible.documentation,
        forall_filterMap hitems fun i hi => hi⟩

/-- What the item sets or declares can be written and read back. -/
structure Parser.MessageItem.Legible (i : MessageItem) : Prop where
  setting : ∀ s ∈ i.setting?, s.Legible
  field : ∀ f ∈ i.field?, f.Legible
  ranges : ∀ r ∈ i.ranges, r.Legible
  type : ∀ t ∈ i.type?, t.Legible
  extensions : ∀ e ∈ i.extensions, e.Legible

theorem PlainItemAt.legible {scope : Scope} {i : MessageItem} (h : PlainItemAt scope ts i us)
    (legible : AllLegible ts) : i.Legible := by
  cases h with
  | empty semi => constructor <;> exact fun _ h => nomatch h
  | field h =>
      have hf := h.legible legible
      constructor
      case field => rintro _ ⟨⟩; exact hf
      all_goals exact fun _ h => nomatch h
  | enumeration h =>
      have he := h.legible legible
      constructor
      case type => rintro _ ⟨⟩; exact .enumeration he
      all_goals exact fun _ h => nomatch h
  | ranges h =>
      have hrs := h.legible legible
      constructor
      case ranges => exact hrs
      all_goals exact fun _ h => nomatch h
  | option h =>
      have hs := h.legible legible
      constructor
      case setting => rintro _ ⟨⟩; exact hs
      all_goals exact fun _ h => nomatch h
  | extension h =>
      have he := h.legible legible
      constructor
      case extensions => simpa [MessageItem.extensions] using he
      all_goals exact fun _ h => nomatch h

/-- The message, or what the items set or declare, can be written and read back. -/
def MessagePart.Legible : MessagePart → Prop
  | .message m => (MessageItem.message m).Legible
  | .items is => ∀ i ∈ is, i.Legible

theorem legible_messageOfItems {scope : Scope} {name doc : String} {items : List MessageItem}
    (hname : IsIdentifier name) (hdoc : Documentation.IsNormal doc)
    (hitems : ∀ i ∈ items, i.Legible) :
    (MessageItem.message (messageOfItems scope name doc items)).Legible := by
  have alone : (messageOfItems scope name doc items).message.LegibleAlone := by
    refine ⟨hname, hdoc, forall_filterMap hitems fun i hi => hi.setting,
      forall_filterMap hitems fun i hi => hi.field, fun r hr => ?_⟩
    obtain ⟨i, hi, hr⟩ := List.mem_flatMap.mp hr
    exact (hitems i hi).ranges r hr
  constructor
  case type =>
    rintro _ ⟨⟩
    exact .message alone (forall_filterMap hitems fun i hi => hi.type)
  case extensions =>
    intro e he
    obtain ⟨i, hi, he⟩ := List.mem_flatMap.mp he
    exact (hitems i hi).extensions e he
  all_goals exact fun _ h => nomatch h

theorem MessageAt.legible {scope : Scope} {part : MessagePart} (h : MessageAt scope part ts us)
    (legible : AllLegible ts) : part.Legible := by
  induction h with
  | message isWord kind openKind body closeKind ih =>
      exact legible_messageOfItems (legible.tail.identifier kind) legible.documentation
        (ih legible.tail.tail.tail)
  | noItems => exact List.forall_mem_nil _
  | plain head tail ih =>
      exact List.forall_mem_cons.mpr
        ⟨head.legible legible, ih (head.begins.allLegible legible)⟩
  | nested head tail ih₁ ih₂ =>
      exact List.forall_mem_cons.mpr ⟨ih₁ legible, ih₂ (head.begins.allLegible legible)⟩

/-- What the item sets or declares can be written and read back. -/
structure Parser.FileItem.Legible (i : FileItem) : Prop where
  package : ∀ p ∈ i.package?, IsName p
  setting : ∀ s ∈ i.setting?, s.Legible
  type : ∀ t ∈ i.type?, t.Legible
  service : ∀ s ∈ i.service?, s.Legible
  extensions : ∀ e ∈ i.extensions, e.Legible

theorem FileItemAt.legible {package : Option String} {i : FileItem}
    (h : FileItemAt package ts i us) (legible : AllLegible ts) : i.Legible := by
  cases h with
  | package undeclared isWord inner semiKind =>
      have hname := inner.isName legible.tail
      constructor
      case package => rintro _ ⟨⟩; exact hname
      all_goals exact fun _ h => nomatch h
  | option h =>
      have hs := h.legible legible
      constructor
      case setting => rintro _ ⟨⟩; exact hs
      all_goals exact fun _ h => nomatch h
  | message h =>
      have hm : (MessageItem.message _).Legible := h.legible legible
      constructor
      case type => exact hm.type
      case extensions => exact hm.extensions
      all_goals exact fun _ h => nomatch h
  | enumeration h =>
      have he := h.legible legible
      constructor
      case type => rintro _ ⟨⟩; exact .enumeration he
      all_goals exact fun _ h => nomatch h
  | service h =>
      have hs := h.legible legible
      constructor
      case service => rintro _ ⟨⟩; exact hs
      all_goals exact fun _ h => nomatch h
  | extension h =>
      have he := h.legible legible
      constructor
      case extensions => simpa [FileItem.extensions] using he
      all_goals exact fun _ h => nomatch h
  | _ => constructor <;> exact fun _ h => nomatch h

theorem FileItemsAt.forall_legible {package : Option String} {items : List FileItem}
    (h : FileItemsAt package ts items us) (legible : AllLegible ts) : ∀ i ∈ items, i.Legible := by
  induction h with
  | nil => exact List.forall_mem_nil _
  | @cons package ts ms us item items head tail ih =>
      have hms : AllLegible ms := by
        rcases head.begins with ⟨-, hbegins⟩ | ⟨-, -, hbegins⟩
        · exact hbegins.allLegible legible
        · exact hbegins.allLegible legible
      exact List.forall_mem_cons.mpr ⟨head.legible legible, ih hms⟩

/-- What stands in legible tokens can be written and read back. -/
theorem legible_fileOfItems {fileName : String} {items : List FileItem}
    (hitems : ∀ i ∈ items, i.Legible) : (fileOfItems fileName items).Legible := by
  refine ⟨fun p hp => ?_, forall_filterMap hitems fun i hi => hi.setting,
    forall_filterMap hitems fun i hi => hi.type, fun e he => ?_,
    forall_filterMap hitems fun i hi => hi.service⟩
  · obtain ⟨i, hi, hp⟩ := List.exists_of_findSome?_eq_some hp
    exact (hitems i hi).package p hp
  · obtain ⟨i, hi, he⟩ := List.mem_flatMap.mp he
    exact (hitems i hi).extensions e he

end Proto2

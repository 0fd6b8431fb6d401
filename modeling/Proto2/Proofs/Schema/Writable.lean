import Proto2.Proofs.Schema.Numbers
import Proto2.Proofs.Schema.RoundTrip

/-!
Files whose numbers can be written.

The integers in the options of a file are integers of the text, so they can be written if those
can.  A real number can always be written, so nothing is asked of those.
-/

namespace Proto2

open Proto2.Parser

/-! ### Values -/

namespace Value

@[simp] theorem isWritable_list {items : List Value} :
    (Value.list items).isWritable = true ↔ ∀ v ∈ items, v.isWritable = true := by
  rw [isWritable, allWritable_iff]

@[simp] theorem isWritable_aggregate {entries : List (String × Value)} :
    (Value.aggregate entries).isWritable = true ↔ ∀ e ∈ entries, e.2.isWritable = true := by
  rw [isWritable, entriesWritable_iff]

theorem isWritable_items {v : Value} (h : v.isWritable = true) :
    ∀ w ∈ v.items, w.isWritable = true := by
  unfold items
  split
  · exact isWritable_list.mp h
  · simpa using h

theorem isWritable_collect {entries : List (String × Value)} {key : String} {value : Value}
    (h : ∀ e ∈ entries, e.2.isWritable = true) (hvalue : value.isWritable = true) :
    ∀ e ∈ collect entries key value, e.2.isWritable = true := by
  have put {v : Value} (hv : v.isWritable = true) :
      ∀ e ∈ Entries.put key v entries, e.2.isWritable = true := by
    intro e he
    rcases Entries.mem_of_mem_put he with rfl | he
    · exact hv
    · exact h e he
  unfold collect
  split
  · exact put hvalue
  · rename_i earlier hget
    refine put (isWritable_list.mpr (List.forall_mem_append.mpr ⟨?_, isWritable_items hvalue⟩))
    exact isWritable_items (h _ (Entries.mem_of_get? hget))

theorem isWritable_ofEntries {entries : List (String × Value)}
    (h : ∀ e ∈ entries, e.2.isWritable = true) : (ofEntries entries).isWritable = true := by
  rw [ofEntries, isWritable_aggregate]
  suffices key : ∀ dict : List (String × Value), (∀ e ∈ dict, e.2.isWritable = true) →
      ∀ e ∈ entries.foldl (fun dict e => collect dict e.1 e.2) dict, e.2.isWritable = true from
    key [] (List.forall_mem_nil _)
  induction entries with
  | nil => exact fun _ hdict => hdict
  | cons e entries ih =>
      intro dict hdict
      obtain ⟨he, hrest⟩ := List.forall_mem_cons.mp h
      exact ih hrest _ (isWritable_collect hdict he)

end Value

theorem Setting.isWritable_ofParts {first : NamePart} {rest : List NamePart} {v : Value}
    (h : v.isWritable = true) : (Setting.ofParts first rest v).isWritable = true := by
  induction rest generalizing first with
  | nil => exact h
  | cons second rest ih => exact ih

/-- The numbers in the part can be written. -/
def Part.IsWritable : Part → Prop
  | .setting s => s.isWritable = true
  | .value v => v.isWritable = true
  | .items vs => ∀ v ∈ vs, v.isWritable = true
  | .entries es => ∀ e ∈ es, e.2.isWritable = true

/-- What stands in tokens whose integers can be written can be written. -/
theorem Stands.isWritable {part : Part} {ts us : List Token} (h : Stands part ts us)
    (writable : AllWritable ts) : part.IsWritable := by
  induction h with
  | setting head more kind value ih =>
      have hmore : AllWritable _ := (head.begins : Begins Token.HasValue _ _ _).forall_mem writable
      have hvalue : AllWritable (_ :: _) :=
        (more.begins : Begins Token.HasValue _ _ _).forall_mem hmore
      exact Setting.isWritable_ofParts (ih hvalue.tail)
  | int kind value => exact writable.head kind value
  | string | float | bool | constant => rfl
  | list openKind items closeKind ih => exact Value.isWritable_list.mpr (ih writable.tail)
  | aggregate openKind entries closeKind ih => exact Value.isWritable_ofEntries (ih writable.tail)
  | noItems => exact List.forall_mem_nil _
  | settingItem start head separator tail ih₁ ih₂ =>
      have hms : AllWritable _ := head.begins.forall_mem writable
      have hns := (separator.begins : Begins Token.HasValue _ _ _).forall_mem hms
      exact List.forall_mem_cons.mpr ⟨ih₁ writable, ih₂ hns⟩
  | stringItem kind value separator tail ih =>
      have hns := (separator.begins : Begins Token.HasValue _ _ _).forall_mem writable.tail
      exact List.forall_mem_cons.mpr ⟨rfl, ih hns⟩
  | valueItem start other head separator tail ih₁ ih₂ =>
      have hms : AllWritable _ := head.begins.forall_mem writable
      have hns := (separator.begins : Begins Token.HasValue _ _ _).forall_mem hms
      exact List.forall_mem_cons.mpr ⟨ih₁ writable, ih₂ hns⟩
  | noEntries => exact List.forall_mem_nil _
  | @entry ts ms ns ps qs us k v es key colon value separator tail ih₁ ih₂ =>
      have hms : AllWritable ms := (key.begins : Begins Token.HasValue _ _ _).forall_mem writable
      have hns : AllWritable ns := by
        cases colon with
        | colon kind => exact hms.tail
        | bracket kind => exact hms
      have hps : AllWritable ps := value.begins.forall_mem hns
      have hqs : AllWritable qs := (separator.begins : Begins Token.HasValue _ _ _).forall_mem hps
      exact List.forall_mem_cons.mpr ⟨ih₁ hns, ih₂ hqs⟩

/-! ### Declarations -/

/-- The numbers in the settings can be written. -/
def AreWritable (ss : List Setting) : Prop :=
  ∀ s ∈ ss, s.isWritable = true

variable {ts us : List Token}

theorem SettingsAt.areWritable {ss : List Setting} (h : SettingsAt ts ss us)
    (writable : AllWritable ts) : AreWritable ss := by
  induction h with
  | nil => exact List.forall_mem_nil _
  | cons head separator tail ih =>
      have hms : AllWritable _ := head.begins.forall_mem writable
      have hns := (separator.begins : Begins Token.HasValue _ _ _).forall_mem hms
      exact List.forall_mem_cons.mpr ⟨head.isWritable writable, ih hns⟩

theorem TrailingAt.areWritable {ss : List Setting} (h : TrailingAt ts ss us)
    (writable : AllWritable ts) : AreWritable ss := by
  cases h with
  | none stop => exact List.forall_mem_nil _
  | some settings =>
      obtain ⟨opening, ms, closing, rfl, -, hss, -⟩ := settings
      exact hss.areWritable writable.tail

theorem OptionAt.isWritable {s : Setting} (h : OptionAt ts s us) (writable : AllWritable ts) :
    s.isWritable = true := by
  cases h with
  | mk isWord setting semiKind => exact setting.isWritable writable.tail

theorem FieldAt.areWritable {f : Field} (h : FieldAt ts f us) (writable : AllWritable ts) :
    AreWritable f.options := by
  cases h with
  | mk kind known typeName nameKind equalsKind numberKind value settings semiKind =>
      have hname : AllWritable (_ :: _) :=
        (typeName.begins : Begins Token.HasValue _ _ _).forall_mem writable.tail
      exact settings.areWritable hname.tail.tail.tail

theorem EnumValueAt.areWritable {v : EnumValue} (h : EnumValueAt ts v us)
    (writable : AllWritable ts) : AreWritable v.options := by
  cases h with
  | mk kind equalsKind numberKind value settings semiKind =>
      exact settings.areWritable writable.tail.tail.tail

/-- The numbers in what the item sets or declares can be written. -/
structure Parser.EnumItem.IsWritable (i : EnumItem) : Prop where
  setting : ∀ s ∈ i.setting?, s.isWritable = true
  value : ∀ v ∈ i.value?, AreWritable v.options

theorem EnumItemAt.isWritable {i : EnumItem} (h : EnumItemAt ts i us)
    (writable : AllWritable ts) : i.IsWritable := by
  cases h with
  | empty semi => exact ⟨by rintro _ ⟨⟩, by rintro _ ⟨⟩⟩
  | option h =>
      have hs := h.isWritable writable
      exact ⟨by rintro _ ⟨⟩; exact hs, by rintro _ ⟨⟩⟩
  | value h =>
      have hv := h.areWritable writable
      exact ⟨by rintro _ ⟨⟩, by rintro _ ⟨⟩; exact hv⟩

theorem EnumerationAt.areWritable {scope : Scope} {e : Enumeration}
    (h : EnumerationAt scope ts e us) (writable : AllWritable ts) : AreWritable e.settings := by
  cases h with
  | @mk word name opening closing ts us items isWord kind openKind body closeKind =>
      have hitems : ∀ i ∈ items, i.IsWritable :=
        body.forall_of_tokens (P := EnumItem.IsWritable) EnumItemAt.begins EnumItemAt.isWritable
          writable.tail.tail.tail
      exact List.forall_mem_append.mpr ⟨forall_filterMap hitems fun i hi => hi.setting,
        List.forall_mem_flatMap.mpr (forall_filterMap hitems fun i hi => hi.value)⟩

theorem RpcItemAt.isWritable {i : Option Setting} (h : RpcItemAt ts i us)
    (writable : AllWritable ts) : ∀ s ∈ i, s.isWritable = true := by
  cases h with
  | empty semi => rintro _ ⟨⟩
  | option h => simpa using h.isWritable writable

theorem RpcBodyAt.areWritable {ss : List Setting} (h : RpcBodyAt ts ss us)
    (writable : AllWritable ts) : AreWritable ss := by
  cases h with
  | none semi => exact List.forall_mem_nil _
  | some openKind body closeKind semi =>
      have hitems := body.forall_of_tokens (P := fun i => ∀ s ∈ i, s.isWritable = true)
        RpcItemAt.begins RpcItemAt.isWritable writable.tail
      exact forall_filterMap hitems fun i hi => hi

theorem RpcAt.areWritable {r : Rpc} (h : RpcAt ts r us) (writable : AllWritable ts) :
    AreWritable r.options := by
  cases h with
  | mk isWord kind requestType isReturns responseType body =>
      have hreturns : AllWritable (_ :: _) :=
        (requestType.begins : Begins Token.HasValue _ _ _).forall_mem writable.tail.tail
      exact body.areWritable
        ((responseType.begins : Begins Token.HasValue _ _ _).forall_mem hreturns.tail)

/-- The numbers in what the item sets or declares can be written. -/
structure Parser.ServiceItem.IsWritable (i : ServiceItem) : Prop where
  setting : ∀ s ∈ i.setting?, s.isWritable = true
  rpc : ∀ r ∈ i.rpc?, AreWritable r.options

theorem ServiceItemAt.isWritable {i : ServiceItem} (h : ServiceItemAt ts i us)
    (writable : AllWritable ts) : i.IsWritable := by
  cases h with
  | empty semi => exact ⟨by rintro _ ⟨⟩, by rintro _ ⟨⟩⟩
  | option h =>
      have hs := h.isWritable writable
      exact ⟨by rintro _ ⟨⟩; exact hs, by rintro _ ⟨⟩⟩
  | rpc h =>
      have hr := h.areWritable writable
      exact ⟨by rintro _ ⟨⟩, by rintro _ ⟨⟩; exact hr⟩

theorem ServiceAt.areWritable {scope : Scope} {s : Service} (h : ServiceAt scope ts s us)
    (writable : AllWritable ts) : AreWritable s.settings := by
  cases h with
  | @mk word name opening closing ts us items isWord kind openKind body closeKind =>
      have hitems : ∀ i ∈ items, i.IsWritable :=
        body.forall_of_tokens (P := ServiceItem.IsWritable) ServiceItemAt.begins
          ServiceItemAt.isWritable writable.tail.tail.tail
      exact List.forall_mem_append.mpr ⟨forall_filterMap hitems fun i hi => hi.setting,
        List.forall_mem_flatMap.mpr (forall_filterMap hitems fun i hi => hi.rpc)⟩

theorem ExtendItemAt.areWritable {i : Option Field} (h : ExtendItemAt ts i us)
    (writable : AllWritable ts) : ∀ f ∈ i, AreWritable f.options := by
  cases h with
  | empty semi => rintro _ ⟨⟩
  | field h => simpa using h.areWritable writable

theorem ExtendAt.areWritable {scope : Scope} {e : Extend} (h : ExtendAt scope ts e us)
    (writable : AllWritable ts) : AreWritable e.settings := by
  cases h with
  | mk isWord extended openKind body closeKind =>
      have hopening : AllWritable (_ :: _) :=
        (extended.begins : Begins Token.HasValue _ _ _).forall_mem writable.tail
      have hitems := body.forall_of_tokens (P := fun i => ∀ f ∈ i, AreWritable f.options)
        ExtendItemAt.begins ExtendItemAt.areWritable hopening.tail
      exact List.forall_mem_flatMap.mpr (forall_filterMap hitems fun i hi => hi)

/-- The numbers in what the item sets or declares can be written. -/
structure Parser.MessageItem.IsWritable (i : MessageItem) : Prop where
  setting : ∀ s ∈ i.setting?, s.isWritable = true
  field : ∀ f ∈ i.field?, AreWritable f.options
  type : ∀ t ∈ i.type?, AreWritable t.settings
  extensions : ∀ e ∈ i.extensions, AreWritable e.settings

theorem PlainItemAt.itemIsWritable {scope : Scope} {i : MessageItem}
    (h : PlainItemAt scope ts i us) (writable : AllWritable ts) : i.IsWritable := by
  cases h with
  | empty | ranges => constructor <;> rintro _ ⟨⟩
  | field h =>
      have hf := h.areWritable writable
      constructor
      case field => rintro _ ⟨⟩; exact hf
      all_goals rintro _ ⟨⟩
  | enumeration h =>
      have he := h.areWritable writable
      constructor
      case type => rintro _ ⟨⟩; rwa [TypeDecl.settings]
      all_goals rintro _ ⟨⟩
  | option h =>
      have hs := h.isWritable writable
      constructor
      case setting => rintro _ ⟨⟩; exact hs
      all_goals rintro _ ⟨⟩
  | extension h =>
      have he := h.areWritable writable
      constructor
      case extensions => simpa [MessageItem.extensions] using he
      all_goals rintro _ ⟨⟩

/-- The numbers in the message, or in what the items set or declare, can be written. -/
def MessagePart.IsWritable : MessagePart → Prop
  | .message m => (MessageItem.message m).IsWritable
  | .items is => ∀ i ∈ is, i.IsWritable

theorem isWritable_messageOfItems {scope : Scope} {name doc : String} {items : List MessageItem}
    (hitems : ∀ i ∈ items, i.IsWritable) :
    (MessageItem.message (messageOfItems scope name doc items)).IsWritable := by
  have settings : AreWritable (messageOfItems scope name doc items).message.settings := by
    rw [Message.settings_eq]
    exact List.forall_mem_append.mpr ⟨List.forall_mem_append.mpr
      ⟨forall_filterMap hitems fun i hi => hi.setting,
        List.forall_mem_flatMap.mpr (forall_filterMap hitems fun i hi => hi.field)⟩,
      List.forall_mem_flatMap.mpr (forall_filterMap hitems fun i hi => hi.type)⟩
  constructor
  case type => rintro _ ⟨⟩; rwa [TypeDecl.settings]
  case extensions => exact List.forall_mem_flatMap.mpr fun i hi => (hitems i hi).extensions
  all_goals rintro _ ⟨⟩

theorem MessageAt.isWritable {scope : Scope} {part : MessagePart} (h : MessageAt scope part ts us)
    (writable : AllWritable ts) : part.IsWritable := by
  induction h with
  | message isWord kind openKind body closeKind ih =>
      exact isWritable_messageOfItems (ih writable.tail.tail.tail)
  | noItems => exact List.forall_mem_nil _
  | plain head tail ih =>
      exact List.forall_mem_cons.mpr
        ⟨head.itemIsWritable writable, ih (head.begins.forall_mem writable)⟩
  | nested head tail ih₁ ih₂ =>
      exact List.forall_mem_cons.mpr ⟨ih₁ writable, ih₂ (head.begins.forall_mem writable)⟩

/-- The numbers in what the item sets or declares can be written. -/
structure Parser.FileItem.IsWritable (i : FileItem) : Prop where
  setting : ∀ s ∈ i.setting?, s.isWritable = true
  type : ∀ t ∈ i.type?, AreWritable t.settings
  service : ∀ s ∈ i.service?, AreWritable s.settings
  extensions : ∀ e ∈ i.extensions, AreWritable e.settings

theorem FileItemAt.isWritable {package : Option String} {i : FileItem}
    (h : FileItemAt package ts i us) (writable : AllWritable ts) : i.IsWritable := by
  cases h with
  | option h =>
      have hs := h.isWritable writable
      constructor
      case setting => rintro _ ⟨⟩; exact hs
      all_goals rintro _ ⟨⟩
  | message h =>
      have hm : (MessageItem.message _).IsWritable := h.isWritable writable
      constructor
      case type => exact hm.type
      case extensions => exact hm.extensions
      all_goals rintro _ ⟨⟩
  | enumeration h =>
      have he := h.areWritable writable
      constructor
      case type => rintro _ ⟨⟩; rwa [TypeDecl.settings]
      all_goals rintro _ ⟨⟩
  | service h =>
      have hs := h.areWritable writable
      constructor
      case service => rintro _ ⟨⟩; exact hs
      all_goals rintro _ ⟨⟩
  | extension h =>
      have he := h.areWritable writable
      constructor
      case extensions => simpa [FileItem.extensions] using he
      all_goals rintro _ ⟨⟩
  | _ => constructor <;> rintro _ ⟨⟩

theorem FileItemsAt.forall_isWritable {package : Option String} {items : List FileItem}
    (h : FileItemsAt package ts items us) (writable : AllWritable ts) :
    ∀ i ∈ items, i.IsWritable := by
  induction h with
  | nil => exact List.forall_mem_nil _
  | cons head tail ih =>
      exact List.forall_mem_cons.mpr ⟨head.isWritable writable, ih (head.allWritable writable)⟩

theorem isWritable_fileOfItems {fileName : String} {items : List FileItem}
    (hitems : ∀ i ∈ items, i.IsWritable) : (fileOfItems fileName items).isWritable = true := by
  have types : AreWritable (TypeDecl.settingsOf (items.filterMap (·.type?))) := by
    rw [TypeDecl.settingsOf_eq]
    exact List.forall_mem_flatMap.mpr (forall_filterMap hitems fun i hi => hi.type)
  refine List.all_eq_true.mpr (List.forall_mem_append.mpr ⟨List.forall_mem_append.mpr
    ⟨List.forall_mem_append.mpr ⟨forall_filterMap hitems fun i hi => hi.setting, types⟩, ?_⟩, ?_⟩)
  · exact List.forall_mem_flatMap.mpr (List.forall_mem_flatMap.mpr fun i hi =>
      (hitems i hi).extensions)
  · exact List.forall_mem_flatMap.mpr (forall_filterMap hitems fun i hi => hi.service)

/-- A file can be written if the integers in its text can. -/
theorem SchemaFile.isWritable_of_parse {fileName source : String} {f : SchemaFile}
    (parsed : SchemaFile.parse fileName source = .ok f)
    (writable : AllWritable (Lexed.ofText fileName source.toList).tokens) : f.isWritable = true := by
  obtain ⟨ts, e, tokens, ⟨items, hitems, rfl⟩, -⟩ := SchemaFile.parse_eq_ok.mp parsed
  rw [tokens.1] at writable
  exact isWritable_fileOfItems (hitems.forall_isWritable writable)

end Proto2

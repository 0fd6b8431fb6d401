import Proto2.Proofs.Layout.Lexed
import Proto2.Proofs.Schema.Accepts
import Proto2.Proofs.Schema.Printed
import Proto2.Proofs.Schema.Qualified
import Proto2.Proofs.Setting.Reread

/-!
Files that are parsed again.

The text of a legible type bears tokens in which the type stands with the names that its scope
gives it; by induction on the types declared in it.  A file is printed with its package first, so
its text is parsed as the file named afresh: the file itself if its names follow its package, and
in any case a file with the same text.
-/

namespace Proto2

open Proto2.Parser

/-! ### Items of a message -/

/-- The item of a message that declares the type, without extensions declared in it. -/
def TypeDecl.item : TypeDecl → MessageItem
  | .message m => .message ⟨m, []⟩
  | .enumeration e => .enumeration e

/-- The items of the message in the order in which they are printed. -/
def Message.items (m : Message) : List MessageItem :=
  m.options.map .option ++ m.fields.map .field ++
    m.extensionRanges.map (fun r => .extensionRanges [r]) ++ m.nestedTypes.map TypeDecl.item

@[simp] theorem TypeDecl.item_field? (t : TypeDecl) : t.item.field? = none := by
  cases t <;> rfl

@[simp] theorem TypeDecl.item_type? (t : TypeDecl) : t.item.type? = some t := by
  cases t <;> rfl

@[simp] theorem TypeDecl.item_ranges (t : TypeDecl) : t.item.ranges = [] := by
  cases t <;> rfl

@[simp] theorem TypeDecl.item_setting? (t : TypeDecl) : t.item.setting? = none := by
  cases t <;> rfl

@[simp] theorem TypeDecl.item_extensions (t : TypeDecl) : t.item.extensions = [] := by
  cases t <;> rfl

theorem flatMap_nil_eq {α β : Type} (as : List α) : as.flatMap (fun _ => ([] : List β)) = [] :=
  List.flatMap_eq_nil_iff.mpr fun _ _ => rfl

/-- A message is made of its items. -/
theorem messageOfItems_items (scope : Scope) (m : Message) :
    messageOfItems scope m.name m.documentation m.items =
      ⟨{ m with fullName := scope.qualify m.name }, []⟩ := by
  simp only [messageOfItems, Message.items, List.filterMap_append, List.filterMap_map,
    List.flatMap_append, List.flatMap_map, Function.comp_def, TypeDecl.item_field?,
    TypeDecl.item_type?, TypeDecl.item_ranges, TypeDecl.item_setting?, TypeDecl.item_extensions]
  simp [MessageItem.field?, MessageItem.type?, MessageItem.ranges, MessageItem.setting?,
    MessageItem.extensions, flatMap_nil_eq]

/-- The tokens start with an item of a message. -/
def MessageItemAt (scope : Scope) (ts : List Token) (i : MessageItem) (us : List Token) : Prop :=
  MessageAt scope (.items [i]) ts us

theorem PlainItemAt.messageItemAt {scope : Scope} {ts us : List Token} {i : MessageItem}
    (h : PlainItemAt scope ts i us) : MessageItemAt scope ts i us :=
  .plain h .noItems

theorem Sequence.messageAt {scope : Scope} {ts us : List Token} {items : List MessageItem}
    (h : Sequence (MessageItemAt scope) ts items us) : MessageAt scope (.items items) ts us := by
  induction h with
  | nil => exact .noItems
  | cons head tail ih =>
      cases head with
      | plain item rest =>
          cases rest
          exact .plain item ih
      | nested message rest =>
          cases rest
          exact .nested message ih

/-- The tokens start with a declared type. -/
def TypeAt (scope : Scope) : List Token → TypeDecl → List Token → Prop
  | ts, .message m, us => MessageAt scope (.message ⟨m, []⟩) ts us
  | ts, .enumeration e, us => EnumerationAt scope ts e us

theorem TypeAt.messageItemAt {scope : Scope} {ts us : List Token} {t : TypeDecl}
    (h : TypeAt scope ts t us) : MessageItemAt scope ts t.item us := by
  cases t with
  | message m => exact .nested h .noItems
  | enumeration e => exact .plain (.enumeration h) .noItems

/-! ### Types -/

theorem TypeDecl.texts_eq (types : List TypeDecl) :
    TypeDecl.texts types = types.map TypeDecl.text := by
  induction types with
  | nil => rfl
  | cons t types ih => rw [TypeDecl.texts, ih, List.map_cons]

theorem Message.text_eq (m : Message) :
    m.text = Layout.block (Layout.commentLines m.documentation ++
      ("message".toList ++ ' ' :: m.name.toList))
      (Layout.sectionOf (m.options.map Layout.optionStatement) ++
        Layout.sectionOf (m.fields.map Field.text) ++
        Layout.sectionOf (m.extensionRanges.map ExtensionRange.text) ++
        Layout.sectionOf (m.nestedTypes.map TypeDecl.text)) := by
  have hword : "message ".toList = "message".toList ++ [' '] := by simp
  cases m
  simp only [Message.text, TypeDecl.texts_eq, hword, List.append_assoc, List.cons_append,
    List.nil_append]

/-- The sections of a message bear its items, given that the types in it are laid. -/
theorem Message.LegibleAlone.laysSections {m : Message} {scope : Scope} (h : m.LegibleAlone)
    (valid : m.IsValidAlone) {named : TypeDecl → TypeDecl}
    (laid : ∀ t ∈ m.nestedTypes,
      Lays .line t.text .line fun ts us => TypeAt scope ts (named t) us) :
    LaysSections (MessageItemAt scope)
      (Layout.sectionOf (m.options.map Layout.optionStatement) ++
        Layout.sectionOf (m.fields.map Field.text) ++
        Layout.sectionOf (m.extensionRanges.map ExtensionRange.text) ++
        Layout.sectionOf (m.nestedTypes.map TypeDecl.text))
      { m with nestedTypes := m.nestedTypes.map named }.items := by
  have hoptions : LaysSections (MessageItemAt scope)
      (Layout.sectionOf (m.options.map Layout.optionStatement)) (m.options.map .option) :=
    .sectionOf fun s hs => (h.options s hs).laysStatement.mono
      fun _ _ hat => (PlainItemAt.option hat).messageItemAt
  have hfields : LaysSections (MessageItemAt scope)
      (Layout.sectionOf (m.fields.map Field.text)) (m.fields.map .field) :=
    .sectionOf fun f hf => ((h.fields f hf).lays (valid.fields f hf)).mono
      fun _ _ hat => (PlainItemAt.field hat).messageItemAt
  have hranges : LaysSections (MessageItemAt scope)
      (Layout.sectionOf (m.extensionRanges.map ExtensionRange.text))
      (m.extensionRanges.map fun r => .extensionRanges [r]) :=
    .sectionOf fun r hr => ((h.ranges r hr).lays (valid.ranges r hr)).mono
      fun _ _ hat => (PlainItemAt.ranges hat).messageItemAt
  have htypes : LaysSections (MessageItemAt scope)
      (Layout.sectionOf (m.nestedTypes.map TypeDecl.text))
      (m.nestedTypes.map fun t => (named t).item) :=
    .sectionOf fun t ht => (laid t ht).mono fun _ _ hat => hat.messageItemAt
  have hall := ((hoptions.append hfields).append hranges).append htypes
  simpa [Message.items, Function.comp_def] using hall

/-- The text of a type bears tokens in which the type stands, with the names that the scope
gives it. -/
theorem TypeDecl.Legible.lays {t : TypeDecl} (h : t.Legible) (valid : t.IsValid) (scope : Scope) :
    Lays .line t.text .line fun ts us => TypeAt scope ts (t.qualifiedIn scope) us := by
  induction h generalizing scope with
  | @enumeration e legible =>
      rw [isValid_enumeration] at valid
      have hnamed : (e.qualifiedIn scope).Legible :=
        ⟨legible.name, legible.documentation, legible.options, legible.values⟩
      rw [qualifiedIn_enumeration]
      exact hnamed.lays (valid.qualifiedIn scope) rfl
  | @message m alone nested ih =>
      -- The types in the message are laid in its own scope.
      obtain ⟨hvalid, hnested⟩ := Message.isValid_iff.mp (isValid_message.mp valid)
      have hsections := alone.laysSections hvalid fun t ht =>
        ih t ht (hnested t ht) (scope.nested m.name)
      have hmessage := lays_block (w := "message") alone.documentation
        (isIdentifier_of rfl rfl rfl) alone.name hsections
      have htext : (TypeDecl.message m).text = m.text := by rw [TypeDecl.text]
      rw [htext, Message.text_eq]
      refine hmessage.mono ?_
      rintro ts us ⟨word, name, opening, ms, closing, rfl, hword, hdoc, hname, hlexeme, hopening,
        hitems, hclosing⟩
      rw [← hlexeme] at hitems
      have hat := MessageAt.message hword hname hopening hitems.messageAt hclosing
      rw [hdoc, hlexeme, messageOfItems_items scope { m with nestedTypes := _ }] at hat
      rw [qualifiedIn_message, Message.qualifiedIn_eq]
      exact hat

/-! ### Items of a file -/

/-- The item of a file that declares the type, without extensions declared in it. -/
def TypeDecl.fileItem : TypeDecl → FileItem
  | .message m => .message ⟨m, []⟩
  | .enumeration e => .enumeration e

/-- The items of the file behind the package statement in the order in which they are printed. -/
def SchemaFile.declarations (f : SchemaFile) : List FileItem :=
  f.imports.map (.imported false) ++ f.publicImports.map (.imported true) ++
    f.options.map .option ++ f.types.map TypeDecl.fileItem ++ f.extensions.map .extension ++
    f.services.map .service

/-- The items of the file in the order in which they are printed. -/
def SchemaFile.items (f : SchemaFile) : List FileItem :=
  f.package.toList.map .package ++ f.declarations

@[simp] theorem TypeDecl.fileItem_package? (t : TypeDecl) : t.fileItem.package? = none := by
  cases t <;> rfl

@[simp] theorem TypeDecl.fileItem_imported? (t : TypeDecl) (publicly : Bool) :
    t.fileItem.imported? publicly = none := by
  cases t <;> rfl

@[simp] theorem TypeDecl.fileItem_setting? (t : TypeDecl) : t.fileItem.setting? = none := by
  cases t <;> rfl

@[simp] theorem TypeDecl.fileItem_type? (t : TypeDecl) : t.fileItem.type? = some t := by
  cases t <;> rfl

@[simp] theorem TypeDecl.fileItem_service? (t : TypeDecl) : t.fileItem.service? = none := by
  cases t <;> rfl

@[simp] theorem TypeDecl.fileItem_extensions (t : TypeDecl) : t.fileItem.extensions = [] := by
  cases t <;> rfl

theorem SchemaFile.package?_of_mem_declarations {f : SchemaFile} {i : FileItem}
    (h : i ∈ f.declarations) : i.package? = none := by
  simp only [declarations, List.mem_append, List.mem_map] at h
  obtain ((((⟨_, -, rfl⟩ | ⟨_, -, rfl⟩) | ⟨_, -, rfl⟩) | ⟨t, -, rfl⟩) | ⟨_, -, rfl⟩) | ⟨_, -, rfl⟩ := h
  case inl.inl.inr => exact t.fileItem_package?
  all_goals rfl

/-- A file is made of its items. -/
theorem SchemaFile.fileOfItems_items (f : SchemaFile) : fileOfItems f.fileName f.items = f := by
  have hpackage : f.items.findSome? (·.package?) = f.package := by
    have hnone : f.declarations.findSome? (·.package?) = none :=
      List.findSome?_eq_none_iff.mpr fun i hi => package?_of_mem_declarations hi
    rw [items, List.findSome?_append, hnone, Option.or_none]
    cases f.package <;> rfl
  rw [fileOfItems, hpackage]
  simp only [items, declarations, List.filterMap_append, List.filterMap_map,
    List.flatMap_append, List.flatMap_map, Function.comp_def, TypeDecl.fileItem_imported?,
    TypeDecl.fileItem_setting?, TypeDecl.fileItem_type?, TypeDecl.fileItem_service?,
    TypeDecl.fileItem_extensions]
  simp [FileItem.imported?, FileItem.setting?, FileItem.type?, FileItem.service?,
    FileItem.extensions, flatMap_nil_eq]

/-- Items that declare no package stand in a file before others. -/
theorem Sequence.fileItemsAt_append {package : Option String} {ts ms us : List Token}
    {items more : List FileItem} (h : Sequence (FileItemAt package) ts items ms)
    (other : ∀ i ∈ items, i.package? = none) (rest : FileItemsAt package ms more us) :
    FileItemsAt package ts (items ++ more) us := by
  induction h with
  | nil => exact rest
  | @cons i items ts ms us head tail ih =>
      rw [List.forall_mem_cons] at other
      have htail := ih other.2 rest
      refine .cons head ?_
      rwa [other.1, Option.none_or]

/-- Items that declare no package stand in a file one after the other. -/
theorem Sequence.fileItemsAt {package : Option String} {ts us : List Token}
    {items : List FileItem} (h : Sequence (FileItemAt package) ts items us)
    (atEnd : AtKind .endOfInput us) (other : ∀ i ∈ items, i.package? = none) :
    FileItemsAt package ts items us := by
  have hall := h.fileItemsAt_append other (.nil atEnd)
  rwa [List.append_nil] at hall

/-! ### Statements of a file -/

/-- The comment that names a file bears no tokens, and what stands behind it may start a
section. -/
theorem lays_header (fileName : String) :
    ∃ p : Pen, p.ended = .line ∧ (∀ c, p.Fits c) ∧
      Lays .line (SchemaFile.headerText fileName) p fun ts us => ts = us := by
  unfold SchemaFile.headerText
  split
  · exact ⟨.line, rfl, Pen.fits_line, .done _⟩
  · have honeLine : '\n' ∉ ' ' :: fileName.toList.takeWhile (· != '\n') := by
      intro hmem
      rcases List.mem_cons.mp hmem with hspace | hmem
      · cases hspace
      · have hall := List.all_eq_true.mp (List.all_takeWhile (p := (· != '\n'))) _ hmem
        simp at hall
    refine ⟨.under [_], rfl, Pen.fits_under _, [], .comment rfl honeLine (.refl _), ?_⟩
    intro ts us hts
    rw [List.map_eq_nil_iff.mp hts, List.nil_append]

theorem SchemaFile.packageText_none : packageText none = [] := rfl

theorem SchemaFile.packageText_some (package : String) :
    packageText (some package) = "package ".toList ++ package.toList ++ ";\n".toList := rfl

/-- The text of the package statement. -/
theorem lays_package {p : Pen} {package : String} (h : IsName package) (fits : ∀ c, p.Fits c) :
    Lays p (SchemaFile.packageText (some package)) .line fun ts us =>
      FileItemAt none ts (.package package) us := by
  have hform : IsIdentifier "package" := isIdentifier_of rfl rfl rfl
  have hname := (lays_name (p := .gap) h Pen.fits_gap).append (lays_semicolon .identifier)
  have hword := Lays.token hform.spells (fun c _ => fits c)
    (Lays.space (p := .behind .identifier) hname)
  have htext : SchemaFile.packageText (some package) =
      "package".toList ++ ' ' :: (package.toList ++ [';', '\n']) := by
    simp [SchemaFile.packageText_some]
  rw [htext]
  refine hword.mono ?_
  rintro ts us ⟨word, _, rfl, hword, _, hname, semi, rfl, hsemi⟩
  exact .package rfl (Token.isWord_of_written hword) (hname (.of_kind hsemi (by decide))) hsemi

/-- The words of an import statement before the path. -/
def importWords (isPublic : Bool) : String :=
  if isPublic then "import public " else "import "

/-- The path of an import statement up to the end of the line. -/
theorem lays_path (path : String) :
    Lays .gap ('"' :: (StringBody.encode path.toList ++ ['"', ';', '\n'])) .line fun ts us =>
      ∃ t semi, ts = t :: semi :: us ∧ t.kind = .string ∧ t.stringValue = .ok path ∧
        semi.kind = .semicolon := by
  have hpath := Lays.token (p := .gap) (Lexeme.spells_encode path.toList)
    (fun c _ => Pen.fits_gap c) (lays_semicolon .string)
  have htext : '"' :: (StringBody.encode path.toList ++ ['"', ';', '\n']) =
      '"' :: (StringBody.encode path.toList ++ ['"']) ++ [';', '\n'] := by simp
  rw [htext]
  refine hpath.mono ?_
  rintro ts us ⟨t, _, rfl, ht, semi, rfl, hsemi⟩
  refine ⟨t, semi, rfl, Token.kind_of_written ht, ?_, hsemi⟩
  rw [Token.stringValue, Token.lexeme_of_written ht, String.toList_ofList,
    StringBody.decode_encode, Except.map, String.ofList_toList]

/-- The text of an import statement. -/
theorem lays_import (package : Option String) (isPublic : Bool) (path : String) :
    Lays .line (SchemaFile.importText (importWords isPublic) path) .line fun ts us =>
      FileItemAt package ts (.imported isPublic path) us := by
  have himport : IsIdentifier "import" := isIdentifier_of rfl rfl rfl
  have hmodifier : IsIdentifier "public" := isIdentifier_of rfl rfl rfl
  have hpath := Lays.space (p := .behind .identifier) (lays_path path)
  cases isPublic with
  | false =>
      have hword := Lays.token (p := .line) himport.spells (fun c _ => Pen.fits_line c) hpath
      have htext : SchemaFile.importText (importWords false) path =
          "import".toList ++ ' ' :: '"' :: (StringBody.encode path.toList ++
            ['"', ';', '\n']) := by
        simp [SchemaFile.importText, importWords]
      rw [htext]
      refine hword.mono ?_
      rintro ts us ⟨word, _, rfl, hword, t, semi, rfl, hkind, hvalue, hsemi⟩
      exact .imported (Token.isWord_of_written hword) hkind hvalue hsemi
  | true =>
      have hpublic := Lays.token (p := .gap) hmodifier.spells (fun c _ => Pen.fits_gap c) hpath
      have hword := Lays.token (p := .line) himport.spells (fun c _ => Pen.fits_line c)
        (Lays.space (p := .behind .identifier) hpublic)
      have htext : SchemaFile.importText (importWords true) path =
          "import".toList ++ ' ' :: ("public".toList ++ ' ' :: '"' ::
            (StringBody.encode path.toList ++ ['"', ';', '\n'])) := by
        simp [SchemaFile.importText, importWords]
      rw [htext]
      refine hword.mono ?_
      rintro ts us ⟨word, _, rfl, hword, modifier, _, rfl, hmodifier, t, semi, rfl, hkind, hvalue,
        hsemi⟩
      exact .publiclyImported (Token.isWord_of_written hword) (Token.isWord_of_written hmodifier)
        hkind hvalue hsemi

theorem TypeAt.fileItemAt {package : Option String} {ts us : List Token} {t : TypeDecl}
    (h : TypeAt (.top package) ts t us) : FileItemAt package ts t.fileItem us := by
  cases t with
  | message m => exact .message h
  | enumeration e => exact .enumeration h

/-! ### Files -/

/-- The section of imports. -/
theorem laysSections_imports (package : Option String) (imports publicImports : List String) :
    LaysSections (FileItemAt package)
      (Layout.sectionOf (imports.map (SchemaFile.importText "import ") ++
        publicImports.map (SchemaFile.importText "import public ")))
      (imports.map (.imported false) ++ publicImports.map (.imported true)) := by
  have hpaths : LaysSections (FileItemAt package)
      (Layout.sectionOf ((imports.map (false, ·) ++ publicImports.map (true, ·)).map
        fun path => SchemaFile.importText (importWords path.1) path.2))
      ((imports.map (false, ·) ++ publicImports.map (true, ·)).map
        fun path => .imported path.1 path.2) :=
    .sectionOf fun path _ => lays_import package path.1 path.2
  simpa [Function.comp_def, importWords] using hpaths

/-- The sections of a legible file bear what it declares, named afresh. -/
theorem SchemaFile.Legible.laysSections {f : SchemaFile} (h : f.Legible) (valid : f.IsValid) :
    LaysSections (FileItemAt f.package) f.sections f.qualified.declarations := by
  have hoptions : LaysSections (FileItemAt f.package)
      (Layout.sectionOf (f.options.map Layout.optionStatement)) (f.options.map .option) :=
    .sectionOf fun s hs => (h.options s hs).laysStatement.mono fun _ _ hat => .option hat
  have htypes : LaysSections (FileItemAt f.package)
      (Layout.sectionOf (f.types.map TypeDecl.text))
      (f.types.map fun t => (t.qualifiedIn (.top f.package)).fileItem) :=
    .sectionOf fun t ht => ((h.types t ht).lays (valid.types t ht) _).mono
      fun _ _ hat => hat.fileItemAt
  have hextensions : LaysSections (FileItemAt f.package)
      (Layout.sectionOf (f.extensions.map Extend.text))
      (f.extensions.map fun e => .extension (e.qualifiedIn (.top f.package))) := by
    refine .sectionOf fun e he => ?_
    have legible : (e.qualifiedIn (.top f.package)).Legible :=
      ⟨(h.extensions e he).name, (h.extensions e he).documentation, (h.extensions e he).fields⟩
    have hvalid : (e.qualifiedIn (.top f.package)).IsValid :=
      ⟨(valid.extensions e he).fields, (valid.extensions e he).tags⟩
    exact (legible.lays hvalid rfl).mono fun _ _ hat => .extension hat
  have hservices : LaysSections (FileItemAt f.package)
      (Layout.sectionOf (f.services.map Service.text))
      (f.services.map fun s => .service (s.qualifiedIn (.top f.package))) := by
    refine .sectionOf fun s hs => ?_
    have legible : (s.qualifiedIn (.top f.package)).Legible :=
      ⟨(h.services s hs).name, (h.services s hs).documentation, (h.services s hs).options,
        (h.services s hs).rpcs⟩
    exact (legible.lays rfl).mono fun _ _ hat => .service hat
  have hall := ((((laysSections_imports f.package f.imports f.publicImports).append
    hoptions).append htypes).append hextensions).append hservices
  simpa [sections, declarations, qualified, TypeDecl.texts_eq, Function.comp_def] using hall

/-- The text of a legible file bears what it declares, named afresh, behind the package. -/
theorem SchemaFile.Legible.lays {f : SchemaFile} (h : f.Legible) (valid : f.IsValid) :
    ∃ q, Lays .line f.text q fun ts us =>
      AtKind .endOfInput us → FileItemsAt none ts f.qualified.items us := by
  obtain ⟨p, hended, hfits, hheader⟩ := lays_header f.fileName
  have hsections := h.laysSections valid
  have hitems {ts us : List Token}
      (hseq : Sequence (FileItemAt f.package) ts f.qualified.declarations us)
      (atEnd : AtKind .endOfInput us) : FileItemsAt f.package ts f.qualified.declarations us :=
    hseq.fileItemsAt atEnd fun i hi => package?_of_mem_declarations hi
  cases hpackage : f.package with
  | none =>
      obtain ⟨q, hlines⟩ := hsections.lines hended
      refine ⟨q, ?_⟩
      rw [text, hpackage, packageText_none, List.append_nil]
      refine (hheader.append hlines).mono ?_
      rintro ts us ⟨_, rfl, hseq⟩ atEnd
      have hat := hitems hseq atEnd
      rw [hpackage] at hat
      simpa [items, qualified, hpackage] using hat
  | some package =>
      obtain ⟨q, hlines⟩ := hsections.lines (p := .line) rfl
      refine ⟨q, ?_⟩
      rw [text, hpackage, List.append_assoc]
      refine (hheader.append ((lays_package (h.package package hpackage) hfits).append
        hlines)).mono ?_
      rintro ts us ⟨_, rfl, ms, hstatement, hseq⟩ atEnd
      have hat := hitems hseq atEnd
      rw [hpackage] at hat
      have hall : FileItemsAt none ts (.package package :: f.qualified.declarations) us :=
        .cons hstatement hat
      simpa [items, qualified, hpackage] using hall

/-- The text of a legible and legal file is parsed as the file named afresh. -/
theorem SchemaFile.Legible.parse_text {f : SchemaFile} (h : f.Legible) (valid : f.IsValid) :
    SchemaFile.parse f.fileName (String.ofList f.text) = .ok f.qualified := by
  obtain ⟨q, ws, hwrites, hstands⟩ := h.lays valid
  obtain ⟨ts, e, tokens, hts⟩ := hwrites.tokensOf f.fileName
  have hitems := hstands ts [e] hts (atKind_of_isEnd tokens.2)
  refine SchemaFile.parse_eq_ok.mpr ⟨ts, e, ?_, ⟨f.qualified.items, hitems, ?_⟩, valid.qualified⟩
  · rwa [String.toList_ofList]
  · exact f.qualified.fileOfItems_items.symm

end Proto2

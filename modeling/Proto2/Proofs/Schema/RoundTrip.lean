import Proto2.Proofs.Schema.Reparsed

/-!
Round trips of files.

What is parsed from a text with literals in range is legible and legal, so it can be printed, and
its text is parsed again.  If the package statement of the text stands before everything that is
named within the package, the result is the same file.  Wherever it stands, printing what was
parsed again gives the same text.
-/

namespace Proto2

open Proto2.Parser

/-! ### Files that may be written -/

theorem Enumeration.Legible.settings {e : Enumeration} (h : e.Legible) :
    LegibleSettings e.settings :=
  List.forall_mem_append.mpr
    ⟨h.options, List.forall_mem_flatMap.mpr fun v hv => (h.values v hv).options⟩

theorem Extend.Legible.settings {e : Extend} (h : e.Legible) : LegibleSettings e.settings :=
  List.forall_mem_flatMap.mpr fun f hf => (h.fields f hf).options

theorem Service.Legible.settings {s : Service} (h : s.Legible) : LegibleSettings s.settings :=
  List.forall_mem_append.mpr
    ⟨h.options, List.forall_mem_flatMap.mpr fun r hr => (h.rpcs r hr).options⟩

theorem TypeDecl.Legible.settings {t : TypeDecl} (h : t.Legible) : LegibleSettings t.settings := by
  induction h with
  | enumeration legible =>
      rw [TypeDecl.settings]
      exact legible.settings
  | message alone nested ih =>
      rw [TypeDecl.settings, Message.settings_eq]
      refine List.forall_mem_append.mpr ⟨List.forall_mem_append.mpr ⟨alone.options, ?_⟩, ?_⟩
      · exact List.forall_mem_flatMap.mpr fun f hf => (alone.fields f hf).options
      · exact List.forall_mem_flatMap.mpr ih

/-- The settings in a legible file are legible, at any depth. -/
theorem SchemaFile.Legible.settings {f : SchemaFile} (h : f.Legible) :
    LegibleSettings f.settings := by
  rw [SchemaFile.settings, TypeDecl.settingsOf_eq]
  refine List.forall_mem_append.mpr ⟨List.forall_mem_append.mpr
    ⟨List.forall_mem_append.mpr ⟨h.options, ?_⟩, ?_⟩, ?_⟩
  · exact List.forall_mem_flatMap.mpr fun t ht => (h.types t ht).settings
  · exact List.forall_mem_flatMap.mpr fun e he => (h.extensions e he).settings
  · exact List.forall_mem_flatMap.mpr fun s hs => (h.services s hs).settings

/-- A legible file may be written. -/
theorem SchemaFile.Legible.print {f : SchemaFile} (h : f.Legible) :
    f.print = .ok (String.ofList f.text) := by
  have hwritable : f.isWritable = true :=
    List.all_eq_true.mpr fun s hs => (h.settings s hs).isWritable
  rw [SchemaFile.print, if_pos hwritable]

/-! ### Files that were parsed -/

variable {fileName source : String} {f : SchemaFile}

/-- What is parsed from a text with literals in range is legible. -/
theorem SchemaFile.legible_of_parse (parsed : SchemaFile.parse fileName source = .ok f)
    (inRange : ∀ t ∈ (Lexed.ofText fileName source.toList).tokens, t.InRange) : f.Legible := by
  obtain ⟨ts, e, tokens, ⟨items, hitems, rfl⟩, -⟩ := SchemaFile.parse_eq_ok.mp parsed
  exact legible_fileOfItems (hitems.forall_legible (tokens.allLegible inRange))

theorem SchemaFile.fileName_of_parse (parsed : SchemaFile.parse fileName source = .ok f) :
    f.fileName = fileName := by
  obtain ⟨ts, e, -, ⟨items, -, rfl⟩, -⟩ := SchemaFile.parse_eq_ok.mp parsed
  rfl

theorem SchemaFile.isValid_of_parse (parsed : SchemaFile.parse fileName source = .ok f) :
    f.IsValid := by
  obtain ⟨-, -, -, -, hvalid⟩ := SchemaFile.parse_eq_ok.mp parsed
  exact hvalid

/-- The one list of items in a text gives the file. -/
theorem SchemaFile.ItemsOf.eq_fileOfItems {items : List FileItem}
    (parsed : SchemaFile.parse fileName source = .ok f)
    (standing : SchemaFile.ItemsOf fileName source items) : f = fileOfItems fileName items := by
  obtain ⟨ts, e, tokens, hstands, -⟩ := SchemaFile.parse_eq_ok.mp parsed
  obtain ⟨ts', e', tokens', hitems⟩ := standing
  have heq : ts ++ [e] = ts' ++ [e'] :=
    congrArg Lexed.tokens (tokens.1.symm.trans tokens'.1)
  obtain ⟨rfl, he⟩ := List.append_inj' heq rfl
  cases he
  exact hstands.unique ⟨items, hitems, rfl⟩

theorem SchemaFile.ItemsOf.namesFollowPackage_iff {items : List FileItem}
    (standing : SchemaFile.ItemsOf fileName source items) :
    (fileOfItems fileName items).NamesFollowPackage ↔ PackageFirst items := by
  obtain ⟨ts, e, tokens, hitems⟩ := standing
  exact hitems.namesFollowPackage_iff tokens.hasNames

/-- A file that starts with its package statement declares the package before all else. -/
theorem FileItemsAt.packageFirst {t : Token} {ts us : List Token} {items : List FileItem}
    (h : FileItemsAt none (t :: ts) items us) (names : HasNames (t :: ts))
    (isWord : t.isWord "package" = true) : PackageFirst items := by
  cases h with
  | nil atEnd =>
      rw [atKind_cons, Token.kind_of_isWord isWord] at atEnd
      cases atEnd
  | @cons _ _ ms _ item items head tail =>
      obtain ⟨name, rfl⟩ : ∃ name, item = .package name := by
        have hstart := head.startsWith
        cases item <;> simp_all [FileItem.StartsWith, Token.isWord_iff]
      obtain ⟨-, -, hname⟩ := head.eq_package names rfl
      have hafter := FileItemsAt.isDeclaredIn tail (head.hasNames names) hname
      have hpackage : ∀ i ∈ items, i.package? = none := fun i hi => (hafter i hi).notPackage
      exact (packageFirst_iff (List.forall_mem_nil _) hpackage).mpr (List.forall_mem_nil _)

theorem SchemaFile.ItemsOf.packageFirst {items : List FileItem}
    (standing : SchemaFile.ItemsOf fileName source items)
    (start : (Lexed.ofText fileName source.toList).tokens.head?.any (·.isWord "package") = true) :
    PackageFirst items := by
  obtain ⟨ts, e, tokens, hitems⟩ := standing
  have hnames := tokens.hasNames
  rw [tokens.1] at start
  cases hts : ts ++ [e] with
  | nil => simp at hts
  | cons t rest =>
      rw [hts] at hitems hnames start
      exact hitems.packageFirst hnames (by simpa using start)

/-- If no declaration whose name depends on the package stands before the package statement, a
file that is printed and parsed again is the same in every part. -/
theorem file_reparsed {items : List FileItem}
    (parsed : SchemaFile.parse fileName source = .ok f)
    (standing : SchemaFile.ItemsOf fileName source items) (first : PackageFirst items)
    (inRange : ∀ t ∈ (Lexed.ofText fileName source.toList).tokens, t.InRange) :
    ∃ text, f.print = .ok text ∧ SchemaFile.parse f.fileName text = .ok f := by
  have legible : f.Legible := SchemaFile.legible_of_parse parsed inRange
  have named : f.NamesFollowPackage := by
    rw [standing.eq_fileOfItems parsed]
    exact standing.namesFollowPackage_iff.mpr first
  refine ⟨_, legible.print, ?_⟩
  rw [legible.parse_text (SchemaFile.isValid_of_parse parsed), legible.qualified_eq_self named]

theorem file_reparsed_in_package :
    ∃ f items text,
      SchemaFile.parse "a.proto"
        "package p; message A { extend B { optional C c = 0x7 [d = -1.5e3]; } }" = .ok f ∧
      SchemaFile.ItemsOf "a.proto"
        "package p; message A { extend B { optional C c = 0x7 [d = -1.5e3]; } }" items ∧
      PackageFirst items ∧ f.print = .ok text ∧ SchemaFile.parse f.fileName text = .ok f := by
  obtain ⟨f, parsed, -⟩ := exists_parse_of_map (·.package) (by decide +kernel :
    (SchemaFile.parse "a.proto"
      "package p; message A { extend B { optional C c = 0x7 [d = -1.5e3]; } }").toOption.map _ =
        some (some "p"))
  obtain ⟨ts, e, tokens, ⟨items, hitems, -⟩, -⟩ := SchemaFile.parse_eq_ok.mp parsed
  have standing : SchemaFile.ItemsOf _ _ items := ⟨ts, e, tokens, hitems⟩
  have first : PackageFirst items := standing.packageFirst (by decide +kernel)
  obtain ⟨text, hprint, hparse⟩ := file_reparsed parsed standing first (by decide +kernel)
  exact ⟨f, items, text, parsed, standing, first, hprint, hparse⟩

/-- A file that is printed is parsed again, wherever its package statement stood, and what is
parsed then has the same text. -/
theorem text_reparsed (parsed : SchemaFile.parse fileName source = .ok f)
    (inRange : ∀ t ∈ (Lexed.ofText fileName source.toList).tokens, t.InRange) :
    ∃ text g, f.print = .ok text ∧ SchemaFile.parse fileName text = .ok g ∧
      g.print = .ok text := by
  have legible : f.Legible := SchemaFile.legible_of_parse parsed inRange
  refine ⟨_, f.qualified, legible.print, ?_, ?_⟩
  · rw [← SchemaFile.fileName_of_parse parsed]
    exact legible.parse_text (SchemaFile.isValid_of_parse parsed)
  · rw [f.print_qualified, legible.print]

theorem text_reparsed_late_package :
    ∃ f text g, SchemaFile.parse "a.proto" "message A {} package foo;" = .ok f ∧
      f.print = .ok text ∧ SchemaFile.parse "a.proto" text = .ok g ∧ g.print = .ok text := by
  obtain ⟨f, parsed, -⟩ := exists_parse_of_map (·.package) (by decide +kernel :
    (SchemaFile.parse "a.proto" "message A {} package foo;").toOption.map _ = some (some "foo"))
  obtain ⟨text, g, hprint, hparse, hagain⟩ := text_reparsed parsed (by decide +kernel)
  exact ⟨f, text, g, parsed, hprint, hparse, hagain⟩

end Proto2

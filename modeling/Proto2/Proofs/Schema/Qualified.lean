import Proto2.Printer.File
import Proto2.Proofs.Schema.Legible
import Proto2.Proofs.Schema.Names
import Proto2.Proofs.Schema.Valid

/-!
Files named afresh.

`f.qualified` is the file with the names that its package gives to what is declared in it, as if
the package statement had stood first.  Neither the rules of the model nor the printer look at
fully qualified names, so a file and the file named afresh are legal together and have the same
text.  A file whose names follow its package is left as it is.
-/

namespace Proto2

/-! ### Names given by a scope -/

/-- The enum, with the name that the scope gives it. -/
def Enumeration.qualifiedIn (scope : Scope) (e : Enumeration) : Enumeration :=
  { e with fullName := scope.qualify e.name }

mutual

/-- The message, with the names that the scope gives to it and to the types in it. -/
def Message.qualifiedIn (scope : Scope) : Message → Message
  | ⟨name, _, doc, fields, nestedTypes, ranges, options⟩ =>
    ⟨name, scope.qualify name, doc, fields,
      TypeDecl.allQualifiedIn (scope.nested name) nestedTypes, ranges, options⟩

/-- The type, with the names that the scope gives to it and to the types in it. -/
def TypeDecl.qualifiedIn (scope : Scope) : TypeDecl → TypeDecl
  | .message m => .message (m.qualifiedIn scope)
  | .enumeration e => .enumeration (e.qualifiedIn scope)

/-- The types, with the names that the scope gives to them and to the types in them. -/
def TypeDecl.allQualifiedIn (scope : Scope) : List TypeDecl → List TypeDecl
  | [] => []
  | t :: ts => t.qualifiedIn scope :: TypeDecl.allQualifiedIn scope ts

end

/-- The service, with the name that the scope gives it. -/
def Service.qualifiedIn (scope : Scope) (s : Service) : Service :=
  { s with fullName := scope.qualify s.name }

/-- The extension, with the name that the scope gives to the extended message. -/
def Extend.qualifiedIn (scope : Scope) (e : Extend) : Extend :=
  { e with fullName := scope.qualifyExtended e.name }

/-- The file, with the names that its package gives to what is declared in it. -/
def SchemaFile.qualified (f : SchemaFile) : SchemaFile :=
  { f with
    types := f.types.map (·.qualifiedIn (.top f.package))
    services := f.services.map (·.qualifiedIn (.top f.package))
    extensions := f.extensions.map (·.qualifiedIn (.top f.package)) }

theorem TypeDecl.allQualifiedIn_eq (scope : Scope) (types : List TypeDecl) :
    TypeDecl.allQualifiedIn scope types = types.map (·.qualifiedIn scope) := by
  induction types with
  | nil => rfl
  | cons t types ih => rw [TypeDecl.allQualifiedIn, ih, List.map_cons]

theorem Message.qualifiedIn_eq (scope : Scope) (m : Message) :
    m.qualifiedIn scope =
      { m with
        fullName := scope.qualify m.name
        nestedTypes := m.nestedTypes.map (·.qualifiedIn (scope.nested m.name)) } := by
  cases m
  rw [Message.qualifiedIn, TypeDecl.allQualifiedIn_eq]

@[simp] theorem TypeDecl.qualifiedIn_message (scope : Scope) (m : Message) :
    (TypeDecl.message m).qualifiedIn scope = .message (m.qualifiedIn scope) := by
  rw [TypeDecl.qualifiedIn]

@[simp] theorem TypeDecl.qualifiedIn_enumeration (scope : Scope) (e : Enumeration) :
    (TypeDecl.enumeration e).qualifiedIn scope = .enumeration (e.qualifiedIn scope) := by
  rw [TypeDecl.qualifiedIn]

/-! ### What names do not touch -/

mutual

theorem Message.text_qualifiedIn (scope : Scope) : (m : Message) →
    (m.qualifiedIn scope).text = m.text
  | ⟨name, _, _, _, nestedTypes, _, _⟩ => by
      rw [Message.qualifiedIn, Message.text, Message.text,
        TypeDecl.texts_allQualifiedIn (scope.nested name) nestedTypes]

theorem TypeDecl.text_qualifiedIn (scope : Scope) : (t : TypeDecl) →
    (t.qualifiedIn scope).text = t.text
  | .message m => by
      rw [TypeDecl.qualifiedIn, TypeDecl.text, TypeDecl.text, Message.text_qualifiedIn scope m]
  | .enumeration e => rfl

theorem TypeDecl.texts_allQualifiedIn (scope : Scope) : (types : List TypeDecl) →
    TypeDecl.texts (TypeDecl.allQualifiedIn scope types) = TypeDecl.texts types
  | [] => rfl
  | t :: types => by
      rw [TypeDecl.allQualifiedIn, TypeDecl.texts, TypeDecl.texts,
        TypeDecl.text_qualifiedIn scope t, TypeDecl.texts_allQualifiedIn scope types]

end

/-- The text of a file does not depend on the names that are not written. -/
theorem SchemaFile.text_qualified (f : SchemaFile) : f.qualified.text = f.text := by
  have htypes : TypeDecl.texts f.qualified.types = TypeDecl.texts f.types := by
    rw [qualified, ← TypeDecl.allQualifiedIn_eq, TypeDecl.texts_allQualifiedIn]
  have hextensions : f.qualified.extensions.map Extend.text = f.extensions.map Extend.text := by
    rw [qualified, List.map_map]
    rfl
  have hservices : f.qualified.services.map Service.text = f.services.map Service.text := by
    rw [qualified, List.map_map]
    rfl
  rw [text, sections, htypes, hextensions, hservices]
  rfl

mutual

theorem Message.settings_qualifiedIn (scope : Scope) : (m : Message) →
    (m.qualifiedIn scope).settings = m.settings
  | ⟨name, _, _, _, nestedTypes, _, _⟩ => by
      rw [Message.qualifiedIn, Message.settings, Message.settings,
        TypeDecl.settingsOf_allQualifiedIn (scope.nested name) nestedTypes]

theorem TypeDecl.settings_qualifiedIn (scope : Scope) : (t : TypeDecl) →
    (t.qualifiedIn scope).settings = t.settings
  | .message m => by
      rw [TypeDecl.qualifiedIn, TypeDecl.settings, TypeDecl.settings,
        Message.settings_qualifiedIn scope m]
  | .enumeration e => rfl

theorem TypeDecl.settingsOf_allQualifiedIn (scope : Scope) : (types : List TypeDecl) →
    TypeDecl.settingsOf (TypeDecl.allQualifiedIn scope types) = TypeDecl.settingsOf types
  | [] => rfl
  | t :: types => by
      rw [TypeDecl.allQualifiedIn, TypeDecl.settingsOf, TypeDecl.settingsOf,
        TypeDecl.settings_qualifiedIn scope t, TypeDecl.settingsOf_allQualifiedIn scope types]

end

/-- Neither do the numbers in it. -/
theorem SchemaFile.settings_qualified (f : SchemaFile) : f.qualified.settings = f.settings := by
  have htypes : TypeDecl.settingsOf f.qualified.types = TypeDecl.settingsOf f.types := by
    rw [qualified, ← TypeDecl.allQualifiedIn_eq, TypeDecl.settingsOf_allQualifiedIn]
  have hextensions : f.qualified.extensions.flatMap Extend.settings =
      f.extensions.flatMap Extend.settings := by
    rw [qualified, List.flatMap_map]
    rfl
  have hservices : f.qualified.services.flatMap Service.settings =
      f.services.flatMap Service.settings := by
    rw [qualified, List.flatMap_map]
    rfl
  rw [settings, htypes, hextensions, hservices]
  rfl

theorem SchemaFile.print_qualified (f : SchemaFile) : f.qualified.print = f.print := by
  rw [print, isWritable, f.settings_qualified, f.text_qualified]
  rfl

theorem Validation.enumValueNames_allQualifiedIn (scope : Scope) (types : List TypeDecl) :
    enumValueNames (TypeDecl.allQualifiedIn scope types) = enumValueNames types := by
  induction types with
  | nil => rfl
  | cons t types ih =>
      cases t with
      | message m => simpa [TypeDecl.allQualifiedIn, enumValueNames] using ih
      | enumeration e =>
          simpa [TypeDecl.allQualifiedIn, enumValueNames, Enumeration.qualifiedIn] using ih

theorem Enumeration.IsValid.qualifiedIn {e : Enumeration} (h : e.IsValid) (scope : Scope) :
    (e.qualifiedIn scope).IsValid :=
  ⟨h.values, h.aliasing⟩

mutual

theorem Message.IsValid.qualifiedIn (scope : Scope) : {m : Message} → m.IsValid →
    (m.qualifiedIn scope).IsValid
  | ⟨name, _, _, _, nestedTypes, _, _⟩, h => by
      rw [Message.IsValid] at h
      obtain ⟨alone, nested⟩ := h
      rw [Message.qualifiedIn, Message.IsValid]
      refine ⟨⟨alone.fields, alone.tags, ?_, alone.ranges⟩,
        TypeDecl.AllValid.allQualifiedIn (scope.nested name) nested⟩
      rw [Validation.enumValueNames_allQualifiedIn]
      exact alone.valueNames

theorem TypeDecl.IsValid.qualifiedIn (scope : Scope) : {t : TypeDecl} → t.IsValid →
    (t.qualifiedIn scope).IsValid
  | .message m, h => by
      rw [TypeDecl.isValid_message] at h
      rw [TypeDecl.qualifiedIn_message, TypeDecl.isValid_message]
      exact Message.IsValid.qualifiedIn scope h
  | .enumeration e, h => by
      rw [TypeDecl.isValid_enumeration] at h
      rw [TypeDecl.qualifiedIn_enumeration, TypeDecl.isValid_enumeration]
      exact Enumeration.IsValid.qualifiedIn h scope

theorem TypeDecl.AllValid.allQualifiedIn (scope : Scope) : {types : List TypeDecl} →
    TypeDecl.AllValid types → TypeDecl.AllValid (TypeDecl.allQualifiedIn scope types)
  | [], h => h
  | t :: types, h => by
      rw [TypeDecl.AllValid] at h
      rw [TypeDecl.allQualifiedIn, TypeDecl.AllValid]
      exact ⟨TypeDecl.IsValid.qualifiedIn scope h.1, TypeDecl.AllValid.allQualifiedIn scope h.2⟩

end

/-- A legal file stays legal, as no rule is about fully qualified names. -/
theorem SchemaFile.IsValid.qualified {f : SchemaFile} (h : f.IsValid) : f.qualified.IsValid := by
  constructor
  case types =>
    intro t ht
    obtain ⟨u, hu, rfl⟩ := List.mem_map.mp ht
    exact (h.types u hu).qualifiedIn _
  case extensions =>
    intro e he
    obtain ⟨d, hd, rfl⟩ := List.mem_map.mp he
    exact ⟨(h.extensions d hd).fields, (h.extensions d hd).tags⟩

/-! ### Names that are right already -/

theorem map_eq_self {α : Type} {f : α → α} {as : List α} (h : ∀ a ∈ as, f a = a) :
    as.map f = as := by
  rw [List.map_congr_left h, List.map_id']

theorem IsIdentifier.ne_empty {name : String} (h : IsIdentifier name) : name ≠ "" := by
  obtain ⟨c, cs, hname, -⟩ := h
  rintro rfl
  cases hname

theorem IsName.ne_empty {name : String} (h : IsName name) : name ≠ "" := by
  obtain ⟨first, parts, hparts, rfl | rfl⟩ := h
  · exact dotted_cons_ne_empty (IsIdentifier.ne_empty (hparts first (by simp))) parts
  · intro heq
    have := congrArg String.toList heq
    simp [toList_dotted] at this

theorem TypeDecl.Legible.name_ne_empty {t : TypeDecl} (h : t.Legible) : t.name ≠ "" := by
  cases h with
  | message alone nested => exact IsIdentifier.ne_empty alone.name
  | enumeration legible => exact IsIdentifier.ne_empty legible.name

/-- A type that is named as the scope has it, with names in it that follow it, is left as it
is. -/
theorem TypeDecl.Legible.qualifiedIn_eq_self {t : TypeDecl} (h : t.Legible) {scope : Scope}
    (named : t.fullName = scope.qualify t.name) (nesting : t.FollowsNesting) :
    t.qualifiedIn scope = t := by
  induction h generalizing scope with
  | @enumeration e legible =>
      rw [qualifiedIn_enumeration, Enumeration.qualifiedIn]
      rw [show scope.qualify e.name = e.fullName from named.symm]
  | @message m alone nested ih =>
      have hnested : m.nestedTypes.map (·.qualifiedIn (scope.nested m.name)) = m.nestedTypes := by
        refine map_eq_self fun u hu => ?_
        have hname : u.fullName = (scope.nested m.name).qualify u.name := by
          rw [Scope.qualify_nested (IsIdentifier.ne_empty alone.name) (nested u hu).name_ne_empty]
          rw [nesting _ .self u hu, named]
          rfl
        exact ih u hu hname fun v hv => nesting v (.nested hv hu)
      rw [qualifiedIn_message, Message.qualifiedIn_eq, hnested,
        show scope.qualify m.name = m.fullName from named.symm]
      cases m
      rfl

/-- A legible file whose names follow its package is left as it is. -/
theorem SchemaFile.Legible.qualified_eq_self {f : SchemaFile} (h : f.Legible)
    (named : f.NamesFollowPackage) : f.qualified = f := by
  have hpackage : f.package ≠ some "" := fun heq => (h.package "" heq).ne_empty rfl
  have htypes : f.types.map (·.qualifiedIn (.top f.package)) = f.types := by
    refine map_eq_self fun t ht => ?_
    refine (h.types t ht).qualifiedIn_eq_self ?_ (named.nested t ht)
    rw [Scope.qualify_top hpackage (h.types t ht).name_ne_empty, named.types t ht]
  have hservices : f.services.map (·.qualifiedIn (.top f.package)) = f.services := by
    refine map_eq_self fun s hs => ?_
    rw [Service.qualifiedIn,
      Scope.qualify_top hpackage (IsIdentifier.ne_empty (h.services s hs).name),
      ← named.services s hs]
  have hextensions : f.extensions.map (·.qualifiedIn (.top f.package)) = f.extensions := by
    refine map_eq_self fun e he => ?_
    have hname : (Scope.top f.package).qualifyExtended e.name = e.fullName := by
      rw [named.extensions e he, Scope.qualifyExtended]
      split
      · rfl
      · exact Scope.qualify_top hpackage (h.extensions e he).name.ne_empty
    rw [Extend.qualifiedIn, hname]
  rw [qualified, htypes, hservices, hextensions]

end Proto2

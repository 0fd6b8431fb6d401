import Proto2.Proofs.Schema.Files
import Proto2.Proofs.Schema.Grammar

/-!
Fully qualified names.

A declaration is named within the package that was declared before it.  So the names in a file
follow its package exactly if nothing that has a name stands before the package statement.
Within a message they follow the message in any case.
-/

namespace Proto2

open Proto2.Parser

/-! ### Dotted names -/

theorem toList_dotted (parts : List String) :
    (dotted parts).toList = ['.'].intercalate (parts.map String.toList) := by
  simp [dotted]

theorem dotted_singleton (name : String) : dotted [name] = name := by
  simp [dotted]

theorem dotted_concat {parts : List String} (h : parts ≠ []) (name : String) :
    dotted (parts ++ [name]) = dotted parts ++ "." ++ name := by
  apply String.toList_injective
  simp only [toList_dotted, String.toList_append]
  induction parts with
  | nil => exact absurd rfl h
  | cons part parts ih =>
      cases parts with
      | nil => simp
      | cons other parts => simpa using ih (by simp)

theorem dotted_cons_ne_empty {name : String} (h : name ≠ "") (parts : List String) :
    dotted (name :: parts) ≠ "" := by
  intro heq
  have hnil := congrArg String.toList heq
  rw [toList_dotted] at hnil
  cases hname : name.toList with
  | nil => exact h (by simpa using hname)
  | cons c cs => simp [hname] at hnil

/-- The name with the package, if there is one, in front. -/
def inPackage (package : Option String) (name : String) : String :=
  match package with
  | none => name
  | some p => p ++ "." ++ name

theorem inPackage_ne {package name : String} : inPackage (some package) name ≠ name := by
  intro h
  have := congrArg (List.length ∘ String.toList) h
  simp only [inPackage, Function.comp_apply, String.toList_append, List.length_append] at this
  have hdot : ".".toList.length = 1 := rfl
  omega

namespace Scope

variable {scope : Scope} {package : Option String} {name inner : String}

theorem filter_concat (parts : List String) (hname : name ≠ "") :
    (parts ++ [name]).filter (· ≠ "") = parts.filter (· ≠ "") ++ [name] := by
  simp [List.filter_append, hname]

/-- A name that is not empty is kept, whatever is left out before it. -/
theorem qualify_eq (hname : name ≠ "") :
    scope.qualify name = dotted ((scope.package :: scope.path).filter (· ≠ "") ++ [name]) := by
  rw [qualify, filter_concat _ hname]

/-- What is named in a message has the name of the message in front. -/
theorem qualify_nested (hname : name ≠ "") (hinner : inner ≠ "") :
    (scope.nested name).qualify inner = scope.qualify name ++ "." ++ inner := by
  have hkept : (scope.package :: (scope.path ++ [name])).filter (· ≠ "") =
      (scope.package :: scope.path).filter (· ≠ "") ++ [name] := by
    rw [← List.cons_append, filter_concat _ hname]
  rw [qualify_eq hinner, qualify_eq hname, nested, hkept, dotted_concat (by simp)]

theorem qualify_top (hpackage : package ≠ some "") (hname : name ≠ "") :
    (Scope.top package).qualify name = inPackage package name := by
  cases package with
  | none => simp [qualify, top, hname, inPackage, dotted_singleton]
  | some p =>
      have hp : p ≠ "" := fun h => hpackage (by rw [h])
      have : dotted ([p] ++ [name]) = p ++ "." ++ name := by
        rw [dotted_concat (by simp), dotted_singleton]
      simpa [qualify, top, hname, hp, inPackage] using this

end Scope

/-! ### Names that follow the package -/

namespace TypeDecl

/-- The name of a declared type. -/
def name : TypeDecl → String
  | message m => m.name
  | enumeration e => e.name

/-- The fully qualified name of a declared type. -/
def fullName : TypeDecl → String
  | message m => m.fullName
  | enumeration e => e.fullName

/-- A declared type is another one or declared in it, at any depth. -/
inductive Within : TypeDecl → TypeDecl → Prop
  | self {t : TypeDecl} : Within t t
  | nested {t u v : TypeDecl} (inner : Within t u) (declared : u ∈ v.nestedTypes) : Within t v

/-- Every type that is declared in this one, at any depth, has the name of the type around it in
front of its own. -/
def FollowsNesting (t : TypeDecl) : Prop :=
  ∀ u : TypeDecl, u.Within t → ∀ v ∈ u.nestedTypes, v.fullName = u.fullName ++ "." ++ v.name

theorem followsNesting_of_forall {t : TypeDecl}
    (direct : ∀ v ∈ t.nestedTypes, v.fullName = t.fullName ++ "." ++ v.name)
    (inner : ∀ v ∈ t.nestedTypes, v.FollowsNesting) : t.FollowsNesting := by
  intro u hu
  cases hu with
  | self => exact direct
  | nested hwithin declared => exact inner _ declared u hwithin

end TypeDecl

/-- The names in the file are those that its package gives them: types and services at top level
have it in front, nested types have the name of the type around them in front, and an extended
message has the package in front unless its name is written with a dot. -/
structure SchemaFile.NamesFollowPackage (f : SchemaFile) : Prop where
  types : ∀ t ∈ f.types, t.fullName = inPackage f.package t.name
  services : ∀ s ∈ f.services, s.fullName = inPackage f.package s.name
  nested : ∀ t ∈ f.types, t.FollowsNesting
  extensions : ∀ e ∈ f.extensions,
    e.fullName = if '.' ∈ e.name.toList then e.name else inPackage f.package e.name

/-- The items of the file in the text. -/
def SchemaFile.ItemsOf (fileName source : String) (items : List FileItem) : Prop :=
  ∃ ts e, TokensOf fileName source.toList ts e ∧ FileItemsAt none (ts ++ [e]) items [e]

/-- The item declares something whose name depends on the package. -/
def Parser.FileItem.IsNamed : FileItem → Prop
  | .message _ => True
  | .enumeration _ => True
  | .service _ => True
  | .extension e => '.' ∉ e.name.toList
  | _ => False

/-- Nothing whose name depends on the package stands before a package statement. -/
def PackageFirst (items : List FileItem) : Prop :=
  ∀ before name after, items = before ++ .package name :: after → ∀ i ∈ before, ¬ i.IsNamed

/-! ### Names of declarations -/

/-- No identifier among the tokens is empty. -/
def HasNames (ts : List Token) : Prop :=
  ∀ t ∈ ts, t.kind = .identifier → t.lexeme ≠ ""

theorem Begins.hasNames {readable : Token → Prop} {p : Phrase} {ts us : List Token}
    (h : Begins readable p ts us) (names : HasNames ts) : HasNames us :=
  h.forall_mem names

theorem TokensOf.hasNames {file : String} {source : List Char} {ts : List Token} {e : Token}
    (tokens : TokensOf file source ts e) : HasNames (ts ++ [e]) := by
  intro t ht kind
  rcases List.mem_append.mp ht with ht | ht
  · obtain ⟨c, rest, hform, -⟩ := (tokens.isScanned t ht).identifierForm kind
    rintro hempty
    simp [hempty] at hform
  · cases List.mem_singleton.mp ht
    have := tokens.2
    simp [Token.isEnd, kind] at this

theorem NameAt.ne_empty {ts us : List Token} {name : String} (h : NameAt ts name us)
    (names : HasNames ts) : name ≠ "" := by
  cases h with
  | relative kind tail => exact dotted_cons_ne_empty (names _ (by simp) kind) _
  | rooted dotKind kind tail =>
      intro heq
      have := congrArg String.toList heq
      simp [toList_dotted] at this

/-- The names in a declared type are those that the scope gives them. -/
structure TypeDecl.NamedIn (scope : Scope) (t : TypeDecl) : Prop where
  name : t.name ≠ ""
  fullName : t.fullName = scope.qualify t.name
  nested : t.FollowsNesting

theorem EnumerationAt.namedIn {scope : Scope} {ts us : List Token} {e : Enumeration}
    (h : EnumerationAt scope ts e us) (names : HasNames ts) :
    (TypeDecl.enumeration e).NamedIn scope := by
  cases h with
  | mk isWord kind =>
      refine ⟨names _ (by simp) kind, rfl, TypeDecl.followsNesting_of_forall ?_ ?_⟩
      · simp [TypeDecl.nestedTypes]
      · simp [TypeDecl.nestedTypes]

/-- The extended message is named within the package. -/
def Extend.NamedIn (package : String) (e : Extend) : Prop :=
  e.name ≠ "" ∧ e.fullName = Scope.qualifyExtended ⟨package, []⟩ e.name

theorem ExtendAt.namedIn {scope : Scope} {ts us : List Token} {e : Extend}
    (h : ExtendAt scope ts e us) (names : HasNames ts) : e.NamedIn scope.package := by
  cases h with
  | mk isWord extended =>
      exact ⟨extended.ne_empty fun t ht => names t (by simp [ht]), rfl⟩

/-- The names in an item of a message are those that the scope gives them. -/
structure Parser.MessageItem.NamedIn (scope : Scope) (i : MessageItem) : Prop where
  type : ∀ t ∈ i.type?, t.NamedIn scope
  extensions : ∀ e ∈ i.extensions, e.NamedIn scope.package

theorem PlainItemAt.namedIn {scope : Scope} {ts us : List Token} {i : MessageItem}
    (h : PlainItemAt scope ts i us) (names : HasNames ts) : i.NamedIn scope := by
  cases h with
  | enumeration h => exact ⟨by simpa [MessageItem.type?] using h.namedIn names,
      by simp [MessageItem.extensions]⟩
  | extension h => exact ⟨by simp [MessageItem.type?],
      by simpa [MessageItem.extensions] using h.namedIn names⟩
  | _ => exact ⟨by simp [MessageItem.type?], by simp [MessageItem.extensions]⟩

/-- The names in a message, or in items of one, are those that the scope gives them. -/
def MessagePart.NamedIn (scope : Scope) : MessagePart → Prop
  | .message m => (MessageItem.message m).NamedIn scope
  | .items is => ∀ i ∈ is, i.NamedIn scope

theorem MessageAt.namedIn {scope : Scope} {part : MessagePart} {ts us : List Token}
    (h : MessageAt scope part ts us) (names : HasNames ts) : part.NamedIn scope := by
  induction h with
  | @message scope word name opening closing ts us items isWord kind openKind body closeKind ih =>
      -- The items are named in the scope of the message, which is named in the scope around it.
      have hname : name.lexeme ≠ "" := names name (by simp) kind
      have hitems : ∀ i ∈ items, i.NamedIn (scope.nested name.lexeme) :=
        ih fun t ht => names t (by simp [ht])
      have hnested : ∀ t ∈ items.filterMap (·.type?), t.NamedIn (scope.nested name.lexeme) := by
        intro t ht
        obtain ⟨i, hi, hit⟩ := List.mem_filterMap.mp ht
        exact (hitems i hi).type t hit
      refine ⟨?_, ?_⟩
      · simp only [MessageItem.type?, Option.mem_def, Option.some.injEq, forall_eq']
        refine ⟨hname, rfl, TypeDecl.followsNesting_of_forall ?_ fun t ht => (hnested t ht).nested⟩
        intro t ht
        rw [(hnested t ht).fullName, Scope.qualify_nested hname (hnested t ht).name]
        rfl
      · intro e he
        obtain ⟨i, hi, hie⟩ := List.mem_flatMap.mp he
        exact (hitems i hi).extensions e hie
  | noItems => simp [MessagePart.NamedIn]
  | plain head tail ih =>
      have htail := ih (head.begins.hasNames names)
      simpa [MessagePart.NamedIn] using ⟨head.namedIn names, htail⟩
  | nested head tail ih₁ ih₂ =>
      have hhead := ih₁ names
      have htail := ih₂ (head.begins.hasNames names)
      simpa [MessagePart.NamedIn] using ⟨hhead, htail⟩

/-! ### Names in a file -/

/-- The names in an item of a file are those that the package gives them. -/
structure Parser.FileItem.FollowsPackage (package : Option String) (i : FileItem) : Prop where
  type : ∀ t ∈ i.type?, t.fullName = inPackage package t.name
  service : ∀ s ∈ i.service?, s.fullName = inPackage package s.name
  extensions : ∀ e ∈ i.extensions,
    e.fullName = if '.' ∈ e.name.toList then e.name else inPackage package e.name

theorem Extend.NamedIn.follows {package : Option String} {e : Extend}
    (h : e.NamedIn (Scope.top package).package) (hpackage : package ≠ some "") :
    e.fullName = if '.' ∈ e.name.toList then e.name else inPackage package e.name := by
  rw [h.2, Scope.qualifyExtended]
  split
  · rfl
  · exact Scope.qualify_top hpackage h.1

theorem FileItemAt.followsPackage {package : Option String} {ts us : List Token} {i : FileItem}
    (h : FileItemAt package ts i us) (names : HasNames ts) (hpackage : package ≠ some "") :
    i.FollowsPackage package ∧ ∀ t ∈ i.type?, t.FollowsNesting := by
  have htype {t : TypeDecl} (h : t.NamedIn (.top package)) :
      t.fullName = inPackage package t.name := by
    rw [h.fullName, Scope.qualify_top hpackage h.name]
  cases h with
  | message h =>
      have hnamed : (MessageItem.message _).NamedIn (.top package) := h.namedIn names
      have hm := hnamed.type _ rfl
      exact ⟨⟨by simpa [FileItem.type?] using htype hm, by simp [FileItem.service?],
        fun e he => (hnamed.extensions e he).follows hpackage⟩,
        by simpa [FileItem.type?] using hm.nested⟩
  | enumeration h =>
      have he := h.namedIn names
      exact ⟨⟨by simpa [FileItem.type?] using htype he, by simp [FileItem.service?],
        by simp [FileItem.extensions]⟩, by simpa [FileItem.type?] using he.nested⟩
  | service h =>
      refine ⟨⟨by simp [FileItem.type?], ?_, by simp [FileItem.extensions]⟩,
        by simp [FileItem.type?]⟩
      cases h with
      | mk isWord kind =>
          simpa [FileItem.service?] using Scope.qualify_top hpackage (names _ (by simp) kind)
  | extension h =>
      refine ⟨⟨by simp [FileItem.type?], by simp [FileItem.service?], ?_⟩,
        by simp [FileItem.type?]⟩
      simpa [FileItem.extensions] using (h.namedIn names).follows hpackage
  | _ => exact ⟨⟨by simp [FileItem.type?], by simp [FileItem.service?],
      by simp [FileItem.extensions]⟩, by simp [FileItem.type?]⟩

/-- The item is no package statement and its names are those that the package gives them. -/
structure Parser.FileItem.IsDeclaredIn (package : Option String) (i : FileItem) : Prop where
  notPackage : i.package? = none
  follows : i.FollowsPackage package
  nested : ∀ t ∈ i.type?, t.FollowsNesting

theorem FileItemAt.hasNames {package : Option String} {ts us : List Token} {i : FileItem}
    (h : FileItemAt package ts i us) (names : HasNames ts) : HasNames us := by
  rcases h.begins with ⟨-, hbegins⟩ | ⟨-, -, hbegins⟩
  · exact hbegins.hasNames names
  · exact hbegins.hasNames names

theorem FileItemAt.eq_package {package : Option String} {ts us : List Token} {i : FileItem}
    {name : String} (h : FileItemAt package ts i us) (names : HasNames ts)
    (hname : i.package? = some name) : package = none ∧ i = .package name ∧ name ≠ "" := by
  cases h with
  | package undeclared isWord inner semiKind =>
      cases hname
      exact ⟨undeclared, rfl, inner.ne_empty fun t ht => names t (by simp [ht])⟩
  | _ => cases hname

/-- Behind the package statement everything is declared in the package. -/
theorem FileItemsAt.isDeclaredIn {package : String} {ts us : List Token} {items : List FileItem}
    (h : FileItemsAt (some package) ts items us) (names : HasNames ts) (hpackage : package ≠ "") :
    ∀ i ∈ items, i.IsDeclaredIn (some package) := by
  generalize hp : some package = p at h
  induction h with
  | nil => simp
  | @cons _ ts ms us item items head tail ih =>
      subst hp
      have hnone : item.package? = none := by
        cases hname : item.package? with
        | none => rfl
        | some name => cases (head.eq_package names hname).1
      obtain ⟨hfollows, hnested⟩ := head.followsPackage names (by simpa using hpackage)
      have hitems := ih (head.hasNames names) (by simp [hnone])
      rw [hnone, Option.none_or] at hitems
      simpa using ⟨⟨hnone, hfollows, hnested⟩, hitems⟩

/-- What stands before the package statement is declared in no package, and what stands behind
it is declared in the package. -/
theorem FileItemsAt.isDeclared {ts us : List Token} {items : List FileItem}
    (h : FileItemsAt none ts items us) (names : HasNames ts) :
    (∀ i ∈ items, i.IsDeclaredIn none) ∨
      ∃ before name after, items = before ++ .package name :: after ∧
        (∀ i ∈ before, i.IsDeclaredIn none) ∧ ∀ i ∈ after, i.IsDeclaredIn (some name) := by
  generalize hp : none = p at h
  induction h with
  | nil => exact .inl (by simp)
  | @cons _ ts ms us item items head tail ih =>
      subst hp
      cases hname : item.package? with
      | some name =>
          obtain ⟨-, rfl, hne⟩ := head.eq_package names hname
          exact .inr ⟨[], name, items, rfl, by simp,
            FileItemsAt.isDeclaredIn tail (head.hasNames names) hne⟩
      | none =>
          obtain ⟨hfollows, hnested⟩ := head.followsPackage names (by simp)
          have hitem : item.IsDeclaredIn none := ⟨hname, hfollows, hnested⟩
          have hitems := ih (head.hasNames names) (by simp [hname])
          rw [hname, Option.none_or] at hitems
          rcases hitems with hall | ⟨before, name, after, rfl, hbefore, hafter⟩
          · exact .inl (by simpa using ⟨hitem, hall⟩)
          · exact .inr ⟨item :: before, name, after, rfl, by simpa using ⟨hitem, hbefore⟩, hafter⟩

/-- A package declared later gives no other names just if nothing has a name. -/
theorem Parser.FileItem.FollowsPackage.followsPackage_iff {i : FileItem}
    (h : i.FollowsPackage none) (package : String) :
    i.FollowsPackage (some package) ↔ ¬ i.IsNamed := by
  constructor
  · rintro h' hnamed
    have differs {name : String} : name ≠ inPackage (some package) name := inPackage_ne.symm
    cases i with
    | message m => exact differs ((h.type _ rfl).symm.trans (h'.type _ rfl))
    | enumeration e => exact differs ((h.type _ rfl).symm.trans (h'.type _ rfl))
    | service s => exact differs ((h.service _ rfl).symm.trans (h'.service _ rfl))
    | extension e =>
        have heq := (h.extensions e (by simp [FileItem.extensions])).symm.trans
          (h'.extensions e (by simp [FileItem.extensions]))
        rw [if_neg hnamed, if_neg hnamed] at heq
        exact differs heq
    | _ => exact hnamed
  · intro hnamed
    cases i with
    | message m => exact absurd trivial hnamed
    | enumeration e => exact absurd trivial hnamed
    | service s => exact absurd trivial hnamed
    | extension e =>
        have hdot : '.' ∈ e.name.toList := not_not.mp hnamed
        have heq := h.extensions e (by simp [FileItem.extensions])
        rw [if_pos hdot] at heq
        exact ⟨by simp [FileItem.type?], by simp [FileItem.service?],
          by simpa [FileItem.extensions, hdot] using heq⟩
    | _ => exact ⟨by simp [FileItem.type?], by simp [FileItem.service?],
        by simp [FileItem.extensions]⟩

theorem namesFollowPackage_fileOfItems {fileName : String} {items : List FileItem} :
    (fileOfItems fileName items).NamesFollowPackage ↔
      (∀ i ∈ items, i.FollowsPackage (fileOfItems fileName items).package) ∧
        ∀ i ∈ items, ∀ t ∈ i.type?, t.FollowsNesting := by
  constructor
  · rintro ⟨htypes, hservices, hnested, hextensions⟩
    refine ⟨fun i hi => ⟨fun t ht => ?_, fun s hs => ?_, fun e he => ?_⟩, fun i hi t ht => ?_⟩
    · exact htypes t (List.mem_filterMap.mpr ⟨i, hi, ht⟩)
    · exact hservices s (List.mem_filterMap.mpr ⟨i, hi, hs⟩)
    · exact hextensions e (List.mem_flatMap.mpr ⟨i, hi, he⟩)
    · exact hnested t (List.mem_filterMap.mpr ⟨i, hi, ht⟩)
  · rintro ⟨hfollows, hnested⟩
    refine ⟨fun t ht => ?_, fun s hs => ?_, fun t ht => ?_, fun e he => ?_⟩
    · obtain ⟨i, hi, ht⟩ := List.mem_filterMap.mp ht
      exact (hfollows i hi).type t ht
    · obtain ⟨i, hi, hs⟩ := List.mem_filterMap.mp hs
      exact (hfollows i hi).service s hs
    · obtain ⟨i, hi, ht⟩ := List.mem_filterMap.mp ht
      exact hnested i hi t ht
    · obtain ⟨i, hi, he⟩ := List.mem_flatMap.mp he
      exact (hfollows i hi).extensions e he

/-- A statement among others that are none of the kind stands in one place only. -/
theorem packageFirst_iff {before after : List FileItem} {name : String}
    (hbefore : ∀ i ∈ before, i.package? = none) (hafter : ∀ i ∈ after, i.package? = none) :
    PackageFirst (before ++ .package name :: after) ↔ ∀ i ∈ before, ¬ i.IsNamed := by
  constructor
  · exact fun h => h before name after rfl
  · intro h before' name' after' heq
    rcases List.append_eq_append_iff.mp heq with ⟨ds, rfl, heq⟩ | ⟨ds, rfl, heq⟩
    · cases ds with
      | nil => simpa using h
      | cons d ds =>
          obtain ⟨rfl, rfl⟩ : d = .package name ∧ ds ++ .package name' :: after' = after := by
            simpa using heq.symm
          have := hafter (.package name') (by simp)
          cases this
    · exact fun i hi => h i (by simp [hi])

/-- The names in a file follow its package if and only if nothing whose name depends on the
package stands before the package statement. -/
theorem FileItemsAt.namesFollowPackage_iff {fileName : String} {ts us : List Token}
    {items : List FileItem} (h : FileItemsAt none ts items us) (names : HasNames ts) :
    (fileOfItems fileName items).NamesFollowPackage ↔ PackageFirst items := by
  rw [namesFollowPackage_fileOfItems]
  rcases h.isDeclared names with hall | ⟨before, name, after, rfl, hbefore, hafter⟩
  · have hpackage : (fileOfItems fileName items).package = none :=
      List.findSome?_eq_none_iff.mpr fun i hi => (hall i hi).notPackage
    rw [hpackage]
    refine iff_of_true ⟨fun i hi => (hall i hi).follows, fun i hi => (hall i hi).nested⟩ ?_
    rintro before name after rfl
    have := (hall (.package name) (by simp)).notPackage
    cases this
  · have hnone : before.findSome? (·.package?) = none :=
      List.findSome?_eq_none_iff.mpr fun i hi => (hbefore i hi).notPackage
    have hpackage :
        (fileOfItems fileName (before ++ .package name :: after)).package = some name := by
      rw [fileOfItems, List.findSome?_append, hnone]
      rfl
    rw [hpackage, packageFirst_iff (fun i hi => (hbefore i hi).notPackage)
      fun i hi => (hafter i hi).notPackage]
    constructor
    · rintro ⟨hfollows, -⟩ i hi
      exact ((hbefore i hi).follows.followsPackage_iff name).mp (hfollows i (by simp [hi]))
    · intro hunnamed
      have hstatement : (FileItem.package name).FollowsPackage (some name) :=
        ⟨by simp [FileItem.type?], by simp [FileItem.service?], by simp [FileItem.extensions]⟩
      constructor
      · intro i hi
        rcases List.mem_append.mp hi with hi | hi
        · exact ((hbefore i hi).follows.followsPackage_iff name).mpr (hunnamed i hi)
        · rcases List.mem_cons.mp hi with rfl | hi
          · exact hstatement
          · exact (hafter i hi).follows
      · intro i hi
        rcases List.mem_append.mp hi with hi | hi
        · exact (hbefore i hi).nested
        · rcases List.mem_cons.mp hi with rfl | hi
          · simp [FileItem.type?]
          · exact (hafter i hi).nested

/-- A file is made of the items in its text, and the names in it follow its package if and only
if nothing whose name depends on the package stands before the package statement. -/
theorem names_follow_package_iff {fileName source : String} {f : SchemaFile}
    (parsed : SchemaFile.parse fileName source = .ok f) :
    ∃ items, SchemaFile.ItemsOf fileName source items ∧ f = fileOfItems fileName items ∧
      (f.NamesFollowPackage ↔ PackageFirst items) := by
  obtain ⟨ts, e, tokens, ⟨items, hitems, rfl⟩, -⟩ := SchemaFile.parse_eq_ok.mp parsed
  exact ⟨items, ⟨ts, e, tokens, hitems⟩, rfl, hitems.namesFollowPackage_iff tokens.hasNames⟩

/-- What is to be seen of the result of a successful parse. -/
theorem exists_parse_of_map {α : Type} {fileName source : String} (view : SchemaFile → α) {a : α}
    (h : (SchemaFile.parse fileName source).toOption.map view = some a) :
    ∃ f, SchemaFile.parse fileName source = .ok f ∧ view f = a := by
  cases hparse : SchemaFile.parse fileName source with
  | error e => simp [hparse, Except.toOption] at h
  | ok f => exact ⟨f, rfl, by simpa [hparse, Except.toOption] using h⟩

theorem names_follow_package_iff_first :
    ∃ f, SchemaFile.parse "a.proto" "package foo; message A { enum B { C = 1; } }" = .ok f ∧
      ∃ items, SchemaFile.ItemsOf "a.proto" "package foo; message A { enum B { C = 1; } }" items ∧
        f = fileOfItems "a.proto" items ∧ (f.NamesFollowPackage ↔ PackageFirst items) := by
  obtain ⟨f, hparse, -⟩ := exists_parse_of_map (·.package) (by decide +kernel :
    (SchemaFile.parse "a.proto" "package foo; message A { enum B { C = 1; } }").toOption.map _ =
      some (some "foo"))
  exact ⟨f, hparse, names_follow_package_iff hparse⟩

/-- A message before the package statement is not named within the package. -/
theorem not_names_follow_package :
    ¬ ∀ (fileName source : String) (f : SchemaFile),
      SchemaFile.parse fileName source = .ok f → f.NamesFollowPackage := by
  intro h
  obtain ⟨f, hparse, hview⟩ := exists_parse_of_map
    (fun f => (f.package, f.types.map fun t => (t.name, t.fullName)))
    (by decide +kernel : (SchemaFile.parse "a.proto" "message A {} package foo;").toOption.map _ =
      some (some "foo", [("A", "A")]))
  obtain ⟨hpackage, htypes⟩ := Prod.mk.inj hview
  obtain ⟨t, ht, heq⟩ : ∃ t ∈ f.types, (t.name, t.fullName) = ("A", "A") :=
    List.mem_map.mp (htypes ▸ List.mem_singleton_self _)
  obtain ⟨hname, hfullName⟩ := Prod.mk.inj heq
  have hfollows := (h _ _ f hparse).types t ht
  rw [hpackage, hname, hfullName] at hfollows
  exact inPackage_ne hfollows.symm

end Proto2

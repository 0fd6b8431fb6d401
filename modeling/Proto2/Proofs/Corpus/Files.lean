import Proto2.Proofs.Corpus.Messages

/-!
Random files.

A random file is made of sections.  No item of it but its package statement declares a package,
and it imports only from the files that it is given.  A file of a corpus is given those before it,
and its name has the number of its place, so that no file leads back to itself.
-/

namespace Proto2.Corpus

open Generator (Yields)
open Proto2.Parser (FileItem)

variable {σ : Type} {d : DrawSource σ}

/-! ### Items of a file -/

/-- The item is legal, declares no package, and imports only what may be imported. -/
structure Admitted (importable : List Line) (i : FileItem) : Prop where
  valid : i.IsValid
  package : i.package? = none
  imports : ∀ publicly, ∀ path ∈ i.imported? publicly, path.toList ∈ importable

/-- The lines bear admitted items of a file, given the package declared before them. -/
def LaysItemsOf (importable : List Line) (package : Option String) (ls : List Line) : Prop :=
  LaysLines ls fun ts us =>
    ∃ items, Sequence (FileItemAt package) ts items us ∧ ∀ i ∈ items, Admitted importable i

namespace LaysItemsOf

variable {importable : List Line} {package : Option String} {ls ms : List Line}

theorem nil : LaysItemsOf importable package [] :=
  LaysBody.nil (List.forall_mem_nil _)

theorem one (h : LaysLines ls fun ts us =>
    ∃ i, FileItemAt package ts i us ∧ Admitted importable i) :
    LaysItemsOf importable package ls :=
  LaysBody.one h

theorem append (h : LaysItemsOf importable package ls) (h' : LaysItemsOf importable package ms) :
    LaysItemsOf importable package (ls ++ ms) :=
  LaysBody.append h h' fun _ _ has hbs => List.forall_mem_append.mpr ⟨has, hbs⟩

theorem flatten {lss : List (List Line)} (h : ∀ ls ∈ lss, LaysItemsOf importable package ls) :
    LaysItemsOf importable package lss.flatten := by
  induction lss with
  | nil => exact .nil
  | cons ls lss ih =>
      obtain ⟨hfirst, hrest⟩ := List.forall_mem_cons.mp h
      exact hfirst.append (ih hrest)

end LaysItemsOf

/-! ### Sections -/

/-- An empty line behind a section changes nothing. -/
theorem laysLines_section {ls : List Line} {R : List Token → List Token → Prop}
    (h : LaysLines ls R) : LaysLines (sectionLines ls) R := by
  unfold sectionLines
  split
  · rename_i hnone
    rwa [List.isEmpty_iff.mp hnone] at h
  · refine (h.append .empty).mono ?_
    rintro ts us ⟨ms, hR, rfl⟩
    exact hR

theorem laysItems_dialect {importable : List Line} {package : Option String} :
    LaysItemsOf importable package ["syntax = \"proto2\";".toList] := by
  have hquoted : Lexeme.Spells ('"' :: "proto2".toList ++ ['"']) .string "proto2".toList :=
    Lexeme.spells_quotation (by decide) fun _ => rfl
  have hname := Lays.token (p := .gap) hquoted (fun c _ => Pen.fits_gap c) (lays_semicolon .string)
  have hequals := Lays.symbol (p := .gap) (c := '=') rfl (Pen.fits_gap _)
    (Lays.space (p := .behind .equals) hname)
  have hline := lays_keyword (w := "syntax") (isIdentifier_of rfl rfl rfl) hequals 0 []
  refine .one (.single ((hline.of_eq (by simp [spaces])).mono ?_))
  rintro ts us ⟨word, _, rfl, hword, equals, _, rfl, hequals, name, _, rfl, hname, semi, rfl, hsemi⟩
  exact ⟨.dialect, .dialect hword hequals (Token.kind_of_written hname) hsemi,
    FileItem.isValid_iff.mpr trivial, rfl, by simp [FileItem.imported?]⟩

/-- The package statement, if there is one, stands before the other items. -/
theorem yields_package :
    Yields d (sometimes 60 do return ["package ".toList ++ (← dottedName 4) ++ [';']])
      fun ls => ∃ package : Option String, LaysLines ls fun ts us => ∀ items vs,
        FileItemsAt package us items vs →
          FileItemsAt none ts (package.toList.map .package ++ items) vs := by
  refine yields_sometimes 60 (.bind (yields_dottedName 4) fun cs hcs => .pure ?_) ⟨none, ?_⟩
  · refine ⟨some (String.ofList cs), .single (((lays_package hcs Pen.fits_line).of_eq ?_).mono ?_)⟩
    · simp [SchemaFile.packageText_some]
    · intro ts us hstatement items vs hitems
      exact .cons hstatement hitems
  · refine LaysLines.nil.mono ?_
    rintro ts us rfl items vs hitems
    exact hitems

section Items

variable {importable : List Line} (package : Option String)

/-- An import of a file whose name stands in a string literal as it is. -/
theorem yields_importLine {target : Line} (mem : target ∈ importable)
    (plain : StringBody.encode target = target) :
    Yields d (importLine target) fun l => LaysItemsOf importable package [l] := by
  refine .bind (.any _) fun isPublic _ => .pure (.one (.single ?_))
  refine ((lays_import package isPublic (String.ofList target)).of_eq ?_).mono fun ts us h => ?_
  · cases isPublic <;> simp [SchemaFile.importText, importWords, plain]
  · refine ⟨_, h, FileItem.isValid_iff.mpr trivial, rfl, fun publicly path hpath => ?_⟩
    have hsame : String.ofList target = path := by
      simpa [FileItem.imported?] using (Option.ite_some_none_eq_some.mp hpath).2
    rwa [← hsame, String.toList_ofList]

theorem yields_importLines {targets : List Line} (mem : ∀ target ∈ targets, target ∈ importable)
    (plain : ∀ target ∈ importable, StringBody.encode target = target) :
    Yields d (importLines targets) (LaysItemsOf importable package) := by
  induction targets with
  | nil => exact .pure .nil
  | cons target targets ih =>
      obtain ⟨hfirst, hrest⟩ := List.forall_mem_cons.mp mem
      refine .bind (yields_importLine package hfirst (plain target hfirst)) fun first hfirst =>
        .bind (ih hrest) fun rest hrest => .pure ?_
      exact hfirst.append hrest

theorem yields_imports (plain : ∀ target ∈ importable, StringBody.encode target = target) :
    Yields d (imports importable) (LaysItemsOf importable package) := by
  unfold imports
  split
  · exact .pure .nil
  · exact .bind (.any _) fun count _ => .bind (.sample importable _) fun targets htargets =>
      yields_importLines package htargets plain

variable (importable)

theorem yields_fileOption (inRange : d.InRange) :
    Yields d (optionLine []) (LaysItemsOf importable package) := by
  refine (yields_optionLine inRange 0).mono fun ls h => .one (h.mono ?_)
  rintro ts us ⟨s, hs⟩
  exact ⟨.option s, .option hs, FileItem.isValid_iff.mpr trivial, rfl,
    by simp [FileItem.imported?]⟩

/-- A declaration, with an empty line behind it. -/
theorem yields_declaration (inRange : d.InRange) :
    Yields d declaration fun ls => ∃ ms, ls = ms ++ [[]] ∧ LaysItemsOf importable package ms := by
  have hended {ms : List Line} (h : LaysLines ms fun ts us =>
      ∃ i, FileItemAt package ts i us ∧ Admitted importable i) :
      ∃ ls, ms ++ [[]] = ls ++ [[]] ∧ LaysItemsOf importable package ls := ⟨ms, rfl, .one h⟩
  refine .bind (.any _) fun k _ => ?_
  split
  · refine .bind (yields_message inRange 2 0 (.top package)) fun ms hms =>
      .pure (hended (hms.mono ?_))
    rintro ts us ⟨m, hm, hvalid⟩
    exact ⟨.message m, .message hm, FileItem.isValid_iff.mpr hvalid, rfl,
      by simp [FileItem.imported?]⟩
  split
  · refine .bind (yields_enumeration inRange (List.forall_mem_nil _) 0 (.top package))
      fun ms hms => .pure (hended (hms.mono ?_))
    rintro ts us ⟨e, he, hvalid, -⟩
    exact ⟨.enumeration e, .enumeration he, FileItem.isValid_iff.mpr hvalid, rfl,
      by simp [FileItem.imported?]⟩
  split
  · refine .bind (yields_service inRange (.top package)) fun ms hms => .pure (hended (hms.mono ?_))
    rintro ts us ⟨s, hs⟩
    exact ⟨.service s, .service hs, FileItem.isValid_iff.mpr trivial, rfl,
      by simp [FileItem.imported?]⟩
  · refine .bind (yields_extension inRange 0 (.top package)) fun ms hms =>
      .pure (hended (hms.mono ?_))
    rintro ts us ⟨e, he, hvalid⟩
    exact ⟨.extension e, .extension he, FileItem.isValid_iff.mpr hvalid, rfl,
      by simp [FileItem.imported?]⟩

variable {importable}

/-- Lines that each end in an empty one end in an empty line together. -/
theorem laysItems_flatten {lss : List (List Line)} (some : lss ≠ [])
    (h : ∀ ls ∈ lss, ∃ ms, ls = ms ++ [[]] ∧ LaysItemsOf importable package ms) :
    ∃ ms, lss.flatten = ms ++ [[]] ∧ LaysItemsOf importable package ms := by
  obtain rfl | ⟨before, last, rfl⟩ := lss.eq_nil_or_concat
  · exact absurd rfl some
  simp only [List.concat_eq_append, List.forall_mem_append, List.forall_mem_singleton] at h
  obtain ⟨hbefore, ms, rfl, hlast⟩ := h
  have hempty : LaysItemsOf importable package [[]] := by
    refine LaysLines.mono .empty ?_
    rintro ts us rfl
    exact ⟨[], .nil, List.forall_mem_nil _⟩
  have hflat : LaysItemsOf importable package before.flatten := .flatten fun ls hls => by
    obtain ⟨ms, rfl, hms⟩ := hbefore ls hls
    exact hms.append hempty
  exact ⟨before.flatten ++ ms, by simp, hflat.append hlast⟩

end Items

/-! ### Files -/

/-- The text is that of a legal file, whatever its name, which imports only what may be
imported. -/
def Accepts (importable : List Line) (text : Line) : Prop :=
  ∀ fileName, ∃ f, SchemaFile.parse fileName (String.ofList text) = .ok f ∧
    ∀ path ∈ f.imports ++ f.publicImports, path.toList ∈ importable

theorem accepts_of_items {importable : List Line} {ls : List Line}
    (h : LaysLines ls fun ts us => AtKind .endOfInput us → ∃ items, FileItemsAt none ts items us ∧
      ∀ i ∈ items, i.IsValid ∧
        ∀ publicly, ∀ path ∈ i.imported? publicly, path.toList ∈ importable) :
    Accepts importable (Text.ended ls) := by
  intro fileName
  obtain ⟨ws, hw, hR⟩ := h
  obtain ⟨ts, e, tokens, hts⟩ := hw.tokensOf fileName
  obtain ⟨items, hat, hitems⟩ := hR ts [e] hts (atKind_of_isEnd tokens.2)
  have hvalid : (Parser.fileOfItems fileName items).IsValid :=
    Parser.isValid_fileOfItems.mpr fun i hi => (hitems i hi).1
  refine ⟨_, SchemaFile.parse_eq_ok.mpr ⟨ts, e, ?_, ⟨items, hat, rfl⟩, hvalid⟩, ?_⟩
  · rwa [String.toList_ofList]
  · intro path hpath
    rcases List.mem_append.mp hpath with hpath | hpath <;>
      obtain ⟨i, hi, hpath⟩ := List.mem_filterMap.mp hpath
    · exact (hitems i hi).2 false path hpath
    · exact (hitems i hi).2 true path hpath

/-- The sections of a file, the last of which ends in an empty line of its own. -/
theorem accepts_sections {importable dialect statement imports options declarations : List Line}
    {package : Option String} (hdialect : LaysItemsOf importable none dialect)
    (hstatement : LaysLines statement fun ts us => ∀ items vs,
      FileItemsAt package us items vs →
        FileItemsAt none ts (package.toList.map .package ++ items) vs)
    (himports : LaysItemsOf importable package imports)
    (hoptions : LaysItemsOf importable package options)
    (hdeclarations : LaysItemsOf importable package declarations) :
    Accepts importable (Text.unlines (sectionLines dialect ++ sectionLines statement ++
      sectionLines imports ++ sectionLines options ++ (declarations ++ [[]]))) := by
  have hitems : LaysItemsOf importable package
      (sectionLines imports ++ sectionLines options ++ declarations) :=
    .append (.append (laysLines_section himports) (laysLines_section hoptions)) hdeclarations
  have hall := (laysLines_section hdialect).append ((laysLines_section hstatement).append hitems)
  have haccepts : Accepts importable (Text.ended (sectionLines dialect ++ (sectionLines statement ++
      (sectionLines imports ++ sectionLines options ++ declarations)))) := by
    refine accepts_of_items (hall.mono ?_)
    rintro ts us ⟨ms, ⟨first, hfirst, hlegal⟩, ns, hpackage, items, hat, hadmitted⟩ atEnd
    have hbehind := hat.fileItemsAt atEnd fun i hi => (hadmitted i hi).package
    refine ⟨_, hfirst.fileItemsAt_append (fun i hi => (hlegal i hi).package)
      (hpackage items us hbehind), fun i hi => ?_⟩
    rcases List.mem_append.mp hi with hi | hi
    · exact ⟨(hlegal i hi).valid, (hlegal i hi).imports⟩
    rcases List.mem_append.mp hi with hi | hi
    · obtain ⟨name, -, rfl⟩ := List.mem_map.mp hi
      exact ⟨FileItem.isValid_iff.mpr trivial, by simp [FileItem.imported?]⟩
    · exact ⟨(hadmitted i hi).valid, (hadmitted i hi).imports⟩
  rw [← Text.unlines_append_nil] at haccepts
  simpa only [List.append_assoc] using haccepts

/-- Every random file is accepted. -/
theorem yields_schema (inRange : d.InRange) {importable : List Line}
    (plain : ∀ target ∈ importable, StringBody.encode target = target) :
    Yields d (schema importable) (Accepts importable) := by
  have hdialect : Yields d (sometimes 50 (return ["syntax = \"proto2\";".toList]))
      (LaysItemsOf importable none) := yields_sometimes 50 (.pure laysItems_dialect) .nil
  refine .bind hdialect fun dialect hdialect =>
    .bind yields_package fun statement ⟨package, hstatement⟩ =>
    .bind (yields_imports package plain) fun imports himports => .bind (.any _) fun count _ => ?_
  refine .bind (.times (yields_fileOption importable package inRange) count) fun options hoptions =>
    .bind (.between_least 1 4) fun count hcount => ?_
  refine .bind (.times (yields_declaration importable package inRange) count) fun lss hlss =>
    .pure ?_
  have hsome : lss ≠ [] := List.ne_nil_of_length_pos (by omega)
  obtain ⟨ms, hms, hdeclarations⟩ := laysItems_flatten package hsome hlss.2
  rw [hms]
  exact accepts_sections hdialect hstatement himports (.flatten hoptions.2) hdeclarations

end Proto2.Corpus

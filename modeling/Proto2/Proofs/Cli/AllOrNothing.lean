import Proto2.Cli.Run
import Proto2.Proofs.Cli.Arguments
import Proto2.Proofs.Schema.Diagnosed
import Proto2.Proofs.Schema.Writable

/-!
The command prints all files or none.

A file holds a schema, is refused with a diagnostic, or has no path at all.  The run prints the
schemas of all files if each holds one, each file once and in the order in which the files are
first named.  Else the first file that holds none decides: it ends the run with its diagnostic and
nothing else, or breaks it off.
-/

namespace Proto2

theorem SchemaFile.isDiagnostic_or_isOverlong {fileName source : String} {failure : Failure}
    (refused : SchemaFile.parse fileName source = .error failure) :
    failure.IsDiagnostic ∨ failure.IsOverlong (Lexed.ofText fileName source.toList).tokens := by
  let l := Lexed.ofText fileName source.toList
  have hfile : Parser.Diagnosed l.tokens (Parser.file fileName) l fun _ _ => True :=
    Parser.diagnosed_file
  have hleft := hfile (Lexed.leftOf_ofText fileName source.toList)
  rwa [SchemaFile.outcome_of_parse_error refused] at hleft

/-- An integer is too long only if it cannot be read or cannot be written. -/
theorem Failure.IsOverlong.not_forall {text : List Token} {failure : Failure}
    (h : failure.IsOverlong text) :
    ¬ ∀ t ∈ text, t.kind = .integer → IntegerLiteral.Bounded t.lexeme.toList ∧ t.IsWritable := by
  intro hintegers
  cases h with
  | unread mem kind long => exact long (hintegers _ mem kind).1
  | unwritten mem kind value long =>
      rw [(hintegers _ mem kind).2 kind _ value] at long
      cases long

namespace Cli

variable (read : Path → Except FileError (List UInt8))

/-! ### Single files -/

/-- The file at the path has the given text. -/
def HasText (path : String) (source : String) : Prop :=
  ∃ p bytes cs, Path.ofText path = .ok p ∧ read p = .ok bytes ∧
    Text.decodeUtf8 bytes = .ok cs ∧ source = String.ofList (Text.normalizeNewlines cs)

/-- The file at the path holds the schema. -/
def Holds (path : String) (f : SchemaFile) : Prop :=
  ∃ source, HasText read path source ∧ SchemaFile.parse path source = .ok f

/-- The file at the path is refused with the diagnostic: it cannot be read, its text is malformed,
or what it declares is against a rule. -/
inductive Refused (path : String) : String → Prop
  | unreadable {p : Path} {e : FileError} (isPath : Path.ofText path = .ok p)
      (failed : read p = .error e) : Refused path (path ++ ": " ++ e.message)
  | malformed {source : String} {e : ParseError} (text : HasText read path source)
      (failed : SchemaFile.parse path source = .error (.parse e)) : Refused path e.text
  | illegal {source : String} {e : ModelError} (text : HasText read path source)
      (failed : SchemaFile.parse path source = .error (.build (.invalid e))) :
      Refused path (path ++ ": " ++ e.message)

/-- The file at the path is given up without a diagnostic: the argument is no path, the file is no
text, or an integer in it has too many digits to be converted. -/
inductive Unreported (path : String) : Abort → Prop
  | noPath {e : PathError} (isNone : Path.ofText path = .error e) : Unreported path (.path e)
  | noText {p : Path} {bytes : List UInt8} {e : Text.Utf8Error} (isPath : Path.ofText path = .ok p)
      (found : read p = .ok bytes) (invalid : Text.decodeUtf8 bytes = .error e) :
      Unreported path (.encoding e)
  | overlong {source : String} {failure : Failure} (text : HasText read path source)
      (failed : SchemaFile.parse path source = .error failure)
      (overlong : failure.IsOverlong (Lexed.ofText path source.toList).tokens) :
      Unreported path (.failure failure)

/-- The file at the path, if there is one, is a text, and the integers in it can be read and
written. -/
def IsSound (path : String) : Prop :=
  ∀ p bytes, Path.ofText path = .ok p → read p = .ok bytes →
    ∃ source, HasText read path source ∧
      ∀ t ∈ (Lexed.ofText path source.toList).tokens, t.kind = .integer →
        IntegerLiteral.Bounded t.lexeme.toList ∧ t.IsWritable

variable {read}

theorem HasText.readText {path source : String} (h : HasText read path source) :
    readText read path = .ok source := by
  obtain ⟨p, bytes, cs, hpath, hread, hdecode, rfl⟩ := h
  simp [Cli.readText, hpath, hread, decodeFile, hdecode, Except.mapError]

/-- A file has one text only. -/
theorem HasText.unique {path source source' : String} (h : HasText read path source)
    (h' : HasText read path source') : source = source' := by
  simpa using h.readText.symm.trans h'.readText

theorem readSchema_of_holds {path : String} {f : SchemaFile} (h : Holds read path f) :
    (readSchema read path).2 = .ok f := by
  obtain ⟨source, htext, hparse⟩ := h
  simp [readSchema, htext.readText, hparse]

theorem HasText.readSchema_of_failure {path source : String} {failure : Failure}
    (h : HasText read path source) (refused : SchemaFile.parse path source = .error failure) :
    (readSchema read path).2 = .error (.ofFailure path failure) := by
  simp [readSchema, h.readText, refused]

theorem Unreported.readSchema {path : String} {a : Abort} (h : Unreported read path a) :
    (readSchema read path).2 = .error (.abort a) := by
  cases h with
  | noPath isNone => simp [Cli.readSchema, Cli.readText, isNone]
  | noText isPath found invalid =>
      simp [Cli.readSchema, Cli.readText, isPath, found, decodeFile, invalid, Except.mapError]
  | overlong text failed overlong =>
      rw [text.readSchema_of_failure failed]
      cases overlong <;> rfl

/-- A file holds a schema, is refused with a diagnostic, or is given up without one. -/
theorem readSchema_trichotomy (read : Path → Except FileError (List UInt8)) (path : String) :
    (∃ f, Holds read path f) ∨
      (∃ d, Refused read path d ∧ (readSchema read path).2 = .error (.diagnostic d)) ∨
      ∃ a, Unreported read path a ∧ (readSchema read path).2 = .error (.abort a) := by
  have unreported {a : Abort} (h : Unreported read path a) :
      ∃ a, Unreported read path a ∧ (readSchema read path).2 = .error (.abort a) :=
    ⟨a, h, h.readSchema⟩
  cases hpath : Path.ofText path with
  | error e => exact .inr (.inr (unreported (.noPath hpath)))
  | ok p =>
      cases hread : read p with
      | error e =>
          exact .inr (.inl ⟨_, .unreadable hpath hread,
            by simp [readSchema, readText, hpath, hread]⟩)
      | ok bytes =>
          cases hdecode : Text.decodeUtf8 bytes with
          | error e => exact .inr (.inr (unreported (.noText hpath hread hdecode)))
          | ok cs =>
              have htext : HasText read path _ := ⟨p, bytes, cs, hpath, hread, hdecode, rfl⟩
              cases hparse : SchemaFile.parse path _ with
              | ok f => exact .inl ⟨f, _, htext, hparse⟩
              | error failure =>
                  rcases SchemaFile.isDiagnostic_or_isOverlong hparse with hdiagnostic | hoverlong
                  · have hread := htext.readSchema_of_failure hparse
                    cases failure with
                    | parse e => exact .inr (.inl ⟨_, .malformed htext hparse, hread⟩)
                    | build e =>
                        cases e with
                        | invalid e => exact .inr (.inl ⟨_, .illegal htext hparse, hread⟩)
                        | _ => exact hdiagnostic.elim
                    | _ => exact hdiagnostic.elim
                  · exact .inr (.inr (unreported (.overlong htext hparse hoverlong)))

/-- Of the files with sound contents, only those without a path are given up. -/
theorem Unreported.exists_noPath {path : String} {a : Abort} (h : Unreported read path a)
    (sound : IsSound read path) : ∃ e, Path.ofText path = .error e ∧ a = .path e := by
  cases h with
  | noPath isNone => exact ⟨_, isNone, rfl⟩
  | noText isPath found invalid =>
      obtain ⟨source, ⟨p, bytes, cs, hpath, hread, hdecode, -⟩, -⟩ := sound _ _ isPath found
      cases isPath.symm.trans hpath
      cases found.symm.trans hread
      cases invalid.symm.trans hdecode
  | overlong text failed overlong =>
      have ⟨p, bytes, cs, hpath, hread, hdecode, hsource⟩ := text
      obtain ⟨source', htext', hintegers⟩ := sound p bytes hpath hread
      cases text.unique htext'
      exact absurd hintegers overlong.not_forall

/-- A file with sound contents holds a schema, is refused with a diagnostic, or has no path. -/
theorem readSchema_cases {path : String} (sound : IsSound read path) :
    (∃ f, Holds read path f) ∨
      (∃ d, Refused read path d ∧ (readSchema read path).2 = .error (.diagnostic d)) ∨
      ∃ e, Path.ofText path = .error e ∧ (readSchema read path).2 = .error (.abort (.path e)) := by
  refine (readSchema_trichotomy read path).imp_right (Or.imp_right ?_)
  rintro ⟨a, ha, hread⟩
  obtain ⟨e, he, rfl⟩ := ha.exists_noPath sound
  exact ⟨e, he, hread⟩

theorem Holds.isWritable {path : String} {f : SchemaFile} (h : Holds read path f)
    (sound : IsSound read path) : f.isWritable = true := by
  obtain ⟨source, htext, hparse⟩ := h
  have ⟨p, bytes, cs, hpath, hread, hdecode, hsource⟩ := htext
  obtain ⟨source', htext', hintegers⟩ := sound p bytes hpath hread
  cases htext.unique htext'
  exact SchemaFile.isWritable_of_parse hparse fun t ht kind => (hintegers t ht kind).2 kind

/-! ### Files in a row -/

/-- The files each hold a schema, and these are read. -/
theorem readSchemas_of_holds {schema : String → SchemaFile} {files : List String}
    (hold : ∀ p ∈ files, Holds read p (schema p)) (schemas : List (String × SchemaFile)) :
    (readSchemas read schemas files).2 =
      .ok (files.foldl (fun schemas p => Entries.put p (schema p) schemas) schemas) := by
  induction files generalizing schemas with
  | nil => rfl
  | cons p files ih =>
      obtain ⟨hp, hrest⟩ := List.forall_mem_cons.mp hold
      have hread := readSchema_of_holds hp
      rw [readSchemas]
      cases hlog : readSchema read p with
      | mk log result =>
          rw [hlog] at hread
          subst hread
          exact ih hrest _

/-- The first file that holds no schema ends the reading. -/
theorem readSchemas_of_refused {before : List String} {path : String} {r : Refusal}
    (hold : ∀ p ∈ before, ∃ f, Holds read p f) (refused : (readSchema read path).2 = .error r)
    (after : List String) (schemas : List (String × SchemaFile)) :
    (readSchemas read schemas (before ++ path :: after)).2 = .error r := by
  induction before generalizing schemas with
  | nil =>
      rw [List.nil_append, readSchemas]
      cases hlog : readSchema read path with
      | mk log result =>
          rw [hlog] at refused
          subst refused
          rfl
  | cons p before ih =>
      obtain ⟨⟨f, hp⟩, hrest⟩ := List.forall_mem_cons.mp hold
      have hread := readSchema_of_holds hp
      rw [List.cons_append, readSchemas]
      cases hlog : readSchema read p with
      | mk log result =>
          rw [hlog] at hread
          subst hread
          exact ih hrest _

theorem put_of_mem {schema : String → SchemaFile} {paths : List String} {path : String}
    (mem : path ∈ paths) :
    Entries.put path (schema path) (paths.map fun p => (p, schema p)) =
      paths.map fun p => (p, schema p) := by
  induction paths with
  | nil => cases mem
  | cons p paths ih =>
      rw [List.map_cons, Entries.put]
      by_cases h : p = path
      · rw [if_pos h, h]
      · rw [if_neg h, ih ((List.mem_cons.mp mem).resolve_left (Ne.symm h))]

theorem put_of_notMem {schema : String → SchemaFile} {paths : List String} {path : String}
    (notMem : path ∉ paths) :
    Entries.put path (schema path) (paths.map fun p => (p, schema p)) =
      (paths ++ [path]).map fun p => (p, schema p) := by
  induction paths with
  | nil => rfl
  | cons p paths ih =>
      rw [List.mem_cons, not_or] at notMem
      rw [List.map_cons, Entries.put, if_neg (Ne.symm notMem.1), ih notMem.2]
      rfl

/-- A file that is named again does not count again. -/
theorem foldl_put (schema : String → SchemaFile) (files : List String) :
    files.foldl (fun schemas p => Entries.put p (schema p) schemas) [] =
      files.eraseDups.map fun p => (p, schema p) := by
  induction files using List.reverseRecOn with
  | nil => rfl
  | append_singleton files p ih =>
      rw [List.foldl_append, List.foldl_cons, List.foldl_nil, ih, List.eraseDups_append]
      by_cases h : p ∈ files
      · rw [put_of_mem (List.mem_eraseDups.mpr h)]
        simp [List.removeAll, h]
      · rw [put_of_notMem (by rwa [List.mem_eraseDups])]
        simp [List.removeAll, h, List.eraseDups_cons]

/-! ### Runs -/

variable (read)

/-- Every file holds a schema, and these are printed, each once, where its path stands first. -/
def PrintsAll (json : Bool) (files : List String) (result : Except Abort Outcome) : Prop :=
  ∃ schema : String → SchemaFile, (∀ p ∈ files, Holds read p (schema p)) ∧
    result = .ok ⟨0,
      if json then jsonOutput (files.eraseDups.map fun p => (p, schema p))
      else String.ofList (files.eraseDups.flatMap fun p => (schema p).text), ""⟩

/-- The first file that holds no schema is refused, and nothing but its diagnostic is printed. -/
def RefusesFirst (files : List String) (result : Except Abort Outcome) : Prop :=
  ∃ before path after diagnostic, files = before ++ path :: after ∧
    (∀ p ∈ before, ∃ f, Holds read p f) ∧ Refused read path diagnostic ∧
    result = .ok ⟨1, "", diagnostic ++ "\n"⟩

/-- All files are printed, or the first one that cannot be is refused and nothing is printed. -/
def AllOrNothing (json : Bool) (files : List String) (result : Except Abort Outcome) : Prop :=
  PrintsAll read json files result ∨ RefusesFirst read files result

/-- The first file that holds no schema has no path, and this breaks the run off. -/
def BreaksOff (files : List String) (result : Except Abort Outcome) : Prop :=
  ∃ before path after e, files = before ++ path :: after ∧
    (∀ p ∈ before, ∃ f, Holds read p f) ∧ Path.ofText path = .error e ∧
    result = .error (.path e)

/-- Either every file holds a schema, or there is a first one that does not. -/
theorem exists_first_not (files : List String) :
    (∀ p ∈ files, ∃ f, Holds read p f) ∨
      ∃ before path after, files = before ++ path :: after ∧
        (∀ p ∈ before, ∃ f, Holds read p f) ∧ ¬ ∃ f, Holds read path f := by
  induction files with
  | nil => exact .inl (List.forall_mem_nil _)
  | cons p files ih =>
      by_cases hp : ∃ f, Holds read p f
      · rcases ih with hall | ⟨before, path, after, rfl, hbefore, hpath⟩
        · exact .inl (List.forall_mem_cons.mpr ⟨hp, hall⟩)
        · exact .inr ⟨p :: before, path, after, rfl, List.forall_mem_cons.mpr ⟨hp, hbefore⟩, hpath⟩
      · exact .inr ⟨[], p, files, rfl, List.forall_mem_nil _, hp⟩

variable {read}

/-- What is printed for files that hold schemas. -/
theorem readAndPrint_of_holds {schema : String → SchemaFile} {files : List String} {json : Bool}
    (hold : ∀ p ∈ files, Holds read p (schema p)) :
    readAndPrint read files json false =
      (output json (files.eraseDups.map fun p => (p, schema p))).map fun text => ⟨0, text, ""⟩ := by
  have hread : (readSchemas read [] files).2 =
      .ok (files.eraseDups.map fun p => (p, schema p)) :=
    (readSchemas_of_holds hold []).trans (congrArg Except.ok (foldl_put schema files))
  simp only [readAndPrint, hread]
  rfl

theorem allWritable_iff (schema : String → SchemaFile) (files : List String) :
    (files.eraseDups.map fun p => (p, schema p)).all (·.2.isWritable) = true ↔
      ∀ p ∈ files, (schema p).isWritable = true := by
  simp [List.all_map, List.all_eq_true, List.mem_eraseDups]

theorem printsAll_of_holds {json : Bool} {schema : String → SchemaFile} {files : List String}
    (hold : ∀ p ∈ files, Holds read p (schema p)) (sound : ∀ p ∈ files, IsSound read p) :
    PrintsAll read json files (readAndPrint read files json false) := by
  have hwritable := (allWritable_iff schema files).mpr fun p hp =>
    (hold p hp).isWritable (sound p hp)
  refine ⟨schema, hold, ?_⟩
  rw [readAndPrint_of_holds hold, output, if_pos hwritable]
  simp only [Except.map, jsonOutput, canonicalOutput, List.flatMap_map]

/-- The text of a message with nothing in it. -/
def emptyMessage : String := "message M \x7b\x7d\n"

/-- The same as it is in a file. -/
def emptyMessageBytes : List UInt8 :=
  emptyMessage.toList.map fun c => UInt8.ofNat c.toNat

theorem hasText_emptyMessage {path : String} {p : Path} (isPath : Path.ofText path = .ok p)
    (found : read p = .ok emptyMessageBytes) : HasText read path emptyMessage :=
  ⟨p, _, _, isPath, found, rfl, rfl⟩

theorem isSound_emptyMessage :
    IsSound (FileTree.ofList [("a.proto", emptyMessageBytes)]).read "a.proto" := by
  have hkinds : ∀ t ∈ (Lexed.ofText "a.proto" emptyMessage.toList).tokens, t.kind ≠ .integer := by
    decide +kernel
  exact fun _ _ _ _ =>
    ⟨_, hasText_emptyMessage rfl rfl, fun t ht kind => absurd kind (hkinds t ht)⟩

end Cli

end Proto2

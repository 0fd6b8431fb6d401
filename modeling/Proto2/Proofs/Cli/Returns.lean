import Proto2.Proofs.Cli.AllOrNothing

/-!
When the command returns.

A run that returns has printed the schemas and no diagnostic, or nothing but a diagnostic about one
of its files.  A run that does not return is given up for one of four reasons.  At the first file
that holds no schema, the argument may be no path, the bytes may be no text, or an integer may have
too many digits to be converted; and when all files are read, there may be an integer too long to
be written.  The bytes are the most common reason: nothing in the source makes sure that a file is a
text, and the error of the decoder is no error with a place.
-/

namespace Proto2.Cli

variable (read : Path → Except FileError (List UInt8))

/-- The run succeeds without a word, or fails with a diagnostic about one of the files. -/
def Reports (files : List String) (o : Outcome) : Prop :=
  (o.exit = 0 ∧ o.errors = "") ∨
    (o.exit = 1 ∧ ∃ path ∈ files, ∃ d, Refused read path d ∧ o.errors = d ++ "\n")

/-- The run is given up without a diagnostic: at the first file that holds no schema, or behind the
last file, because of a schema that cannot be written. -/
inductive GivesUp (files : List String) : Abort → Prop
  | reading {before after : List String} {path : String} {a : Abort}
      (split : files = before ++ path :: after) (hold : ∀ p ∈ before, ∃ f, Holds read p f)
      (unreported : Unreported read path a) : GivesUp files a
  | writing {schema : String → SchemaFile} {path : String}
      (hold : ∀ p ∈ files, Holds read p (schema p)) (mem : path ∈ files)
      (unwritable : (schema path).isWritable = false) : GivesUp files (.unwritable {})

variable {read} {files : List String}

theorem GivesUp.readAndPrint {a : Abort} (h : GivesUp read files a) (json : Bool) :
    readAndPrint read files json false = .error a := by
  cases h with
  | reading split hold unreported =>
      subst split
      simp only [Cli.readAndPrint, readSchemas_of_refused hold unreported.readSchema]
  | writing hold mem unwritable =>
      rw [readAndPrint_of_holds hold, output, if_neg]
      · rfl
      · rw [allWritable_iff]
        intro hall
        rw [hall _ mem] at unwritable
        cases unwritable

/-- A run returns with a report, or it is given up. -/
theorem reports_or_givesUp (read : Path → Except FileError (List UInt8)) (json : Bool)
    (nonempty : files ≠ []) :
    (∃ o, readAndPrint read files json false = .ok o ∧ Reports read files o) ∨
      ∃ a, GivesUp read files a := by
  -- Only the first file that holds no schema counts, as the files behind it are not read.
  rcases exists_first_not read files with hall | ⟨before, path, after, rfl, hbefore, hpath⟩
  · obtain ⟨p, hp⟩ := List.exists_mem_of_ne_nil files nonempty
    have : Nonempty SchemaFile := (hall p hp).nonempty
    choose! schema hschema using hall
    by_cases hwritable : ∀ p ∈ files, (schema p).isWritable = true
    · obtain ⟨text, htext⟩ : ∃ text,
          output json (files.eraseDups.map fun p => (p, schema p)) = .ok text :=
        ⟨_, if_pos ((allWritable_iff schema files).mpr hwritable)⟩
      refine .inl ⟨⟨0, text, ""⟩, ?_, .inl ⟨rfl, rfl⟩⟩
      rw [readAndPrint_of_holds hschema, htext]
      rfl
    · obtain ⟨q, hq, hnot⟩ : ∃ q ∈ files, ¬(schema q).isWritable = true := by
        simpa using hwritable
      exact .inr ⟨_, .writing hschema hq (by simpa using hnot)⟩
  · rcases readSchema_trichotomy read path with hf | ⟨d, hrefused, hread⟩ | ⟨a, ha, -⟩
    · exact absurd hf hpath
    · refine .inl ⟨⟨1, "", d ++ "\n"⟩, ?_, .inr ⟨rfl, path, by simp, d, hrefused, rfl⟩⟩
      simp only [readAndPrint, readSchemas_of_refused hbefore hread]
      rfl
    · exact .inr ⟨a, .reading rfl hbefore ha⟩

/-- A run on paths of files with sound contents is not given up. -/
theorem GivesUp.not_sound {a : Abort} (h : GivesUp read files a) :
    ¬ ∀ p ∈ files, IsSound read p ∧ ∃ q, Path.ofText p = .ok q := by
  intro hsound
  cases h with
  | @reading before after path _ split hold unreported =>
      obtain ⟨hpath, q, hq⟩ := hsound path (by simp [split])
      obtain ⟨e, he, -⟩ := unreported.exists_noPath hpath
      cases he.symm.trans hq
  | @writing schema path hold mem unwritable =>
      have hwritable := (hold path mem).isWritable (hsound path mem).1
      rw [hwritable] at unwritable
      cases unwritable

end Proto2.Cli

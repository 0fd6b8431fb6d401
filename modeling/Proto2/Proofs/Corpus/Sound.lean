import Mathlib.Data.List.Nodup
import Mathlib.Logic.Relation
import Proto2.Proofs.Corpus.Files

/-!
Soundness of random corpora.

Whatever is drawn, every text of a corpus is a legal file, and it imports only files that stand
before it.  The files have different names, so the place of a file falls along every import and
no chain of imports comes back to where it began.
-/

namespace Proto2.Corpus

open Generator (Yields)

variable {σ : Type} {d : DrawSource σ}

/-! ### Names of files -/

theorem ofDigitChars_padded (n k : Nat) :
    Nat.ofDigitChars 10 (List.replicate k '0' ++ number n) 0 = n := by
  rw [Nat.ofDigitChars_append, Nat.ofDigitChars_replicate_zero, Nat.mul_zero]
  exact Nat.ofDigitChars_ten_toDigits

/-- The digits of a name are read back as its place. -/
theorem fileName_injective : Function.Injective fileName := by
  intro m n h
  simp only [fileName, List.append_assoc, List.append_cancel_left_eq] at h
  rw [← List.append_assoc, ← List.append_assoc] at h
  rw [← ofDigitChars_padded m, List.append_cancel_right h, ofDigitChars_padded n]

theorem encodeChar_of_isDigit {c : Char} (digit : c.isDigit = true) :
    StringBody.encodeChar c = [c] := by
  have hne (b : Char) (other : b.isDigit = false) : c ≠ b := by
    rintro rfl
    rw [digit] at other
    cases other
  simp [StringBody.encodeChar, hne '\\' rfl, hne '"' rfl, hne '\t' rfl, hne '\r' rfl, hne '\n' rfl]

/-- A name of a file stands in a string literal as it is. -/
theorem encode_fileName (place : Nat) : StringBody.encode (fileName place) = fileName place := by
  have hplain : ∀ c ∈ fileName place, StringBody.encodeChar c = [c] := by
    simp only [fileName, List.forall_mem_append]
    refine ⟨⟨⟨by simp [StringBody.encodeChar], fun c hc => ?_⟩, fun c hc => ?_⟩,
      by simp [StringBody.encodeChar]⟩
    · rw [List.eq_of_mem_replicate hc]
      rfl
    · exact encodeChar_of_isDigit (Numeral.isDigit_of_mem_natText hc)
  rw [StringBody.encode, List.flatMap_congr hplain, List.flatMap_singleton']

/-! ### Corpora -/

/-- The file of that name imports the target. -/
def Imports (files : List (Line × Line)) (name target : Line) : Prop :=
  ∃ text f, (name, text) ∈ files ∧
    SchemaFile.parse (String.ofList name) (String.ofList text) = .ok f ∧
    String.ofList target ∈ f.imports ++ f.publicImports

/-- There are so many texts, and each is that of a legal file which imports nothing. -/
structure SourcesSound (count : Nat) (sources : List Line) : Prop where
  length : sources.length = count
  accepted : ∀ text ∈ sources, Accepts [] text

/-- Each text is that of a legal file, which imports only files before it. -/
def ImportsEarlier (files : List (Line × Line)) : Prop :=
  ∀ (i : Nat) (name text : Line), files[i]? = some (name, text) →
    Accepts ((files.take i).map Prod.fst) text

/-- There are so many files with the names of their places.  Each imports only files before it,
and none leads back to itself. -/
structure CorpusSound (count : Nat) (files : List (Line × Line)) : Prop where
  names : files.map Prod.fst = (List.range count).map fileName
  accepted : ImportsEarlier files
  acyclic : ∀ name, ¬ Relation.TransGen (Imports files) name name

/-- If the names differ and each file imports only files before it, each import leads to a file
at a smaller place. -/
theorem Imports.idxOf_lt {files : List (Line × Line)} (nodup : (files.map Prod.fst).Nodup)
    (accepted : ImportsEarlier files) {name target : Line} (h : Imports files name target) :
    (files.map Prod.fst).idxOf target < (files.map Prod.fst).idxOf name := by
  obtain ⟨text, f, hfile, hparse, htarget⟩ := h
  obtain ⟨i, hi, hget⟩ := List.mem_iff_getElem.mp hfile
  obtain ⟨g, hg, himports⟩ := accepted i name text (hget ▸ List.getElem?_eq_getElem hi)
    (String.ofList name)
  obtain rfl : g = f := Except.ok.inj (hg.symm.trans hparse)
  have hbefore := himports _ htarget
  rw [String.toList_ofList, List.map_take] at hbefore
  obtain ⟨j, hj, htarget⟩ := List.mem_iff_getElem.mp hbefore
  rw [List.length_take, Nat.lt_min] at hj
  rw [List.getElem_take] at htarget
  have hplace := nodup.idxOf_getElem i (by simpa using hi)
  rw [List.getElem_map, hget] at hplace
  rw [← htarget, nodup.idxOf_getElem j hj.2, hplace]
  exact hj.1

theorem not_transGen_imports {files : List (Line × Line)} (nodup : (files.map Prod.fst).Nodup)
    (accepted : ImportsEarlier files) (name : Line) :
    ¬ Relation.TransGen (Imports files) name name := by
  intro h
  have hfalls : ∀ target, Relation.TransGen (Imports files) name target →
      (files.map Prod.fst).idxOf target < (files.map Prod.fst).idxOf name := by
    intro target h
    induction h with
    | single himport => exact himport.idxOf_lt nodup accepted
    | tail _ himport ih => exact (himport.idxOf_lt nodup accepted).trans ih
  exact (hfalls name h).false

theorem yields_sources (inRange : d.InRange) (count : Nat) :
    Yields d (sources count) (SourcesSound count) :=
  (Yields.times (yields_schema inRange (List.forall_mem_nil _)) count).mono fun _ h => ⟨h.1, h.2⟩

/-- The file has the name of its place, and may import what has the name of a smaller place. -/
def MadeFor (place : Nat) (file : Line × Line) : Prop :=
  file.1 = fileName place ∧ Accepts ((List.range place).map fileName) file.2

theorem names_of_madeFor {count : Nat} {files : List (Line × Line)}
    (h : List.Forall₂ MadeFor (List.range' 0 count) files) :
    files.map Prod.fst = (List.range count).map fileName := by
  have hsame : List.Forall₂ (· = ·) ((List.range count).map fileName) (files.map Prod.fst) := by
    rw [List.forall₂_map_left_iff, List.forall₂_map_right_iff, List.range_eq_range']
    exact h.imp fun _ _ h => h.1.symm
  rw [List.forall₂_eq_eq_eq] at hsame
  exact hsame.symm

theorem importsEarlier_of_madeFor {count : Nat} {files : List (Line × Line)}
    (h : List.Forall₂ MadeFor (List.range' 0 count) files) : ImportsEarlier files := by
  intro i name text hi
  obtain ⟨hlt, hget⟩ := List.getElem?_eq_some_iff.mp hi
  have hcount : i < count := by simpa [← h.length_eq] using hlt
  have hmade := (h.get (by simpa using hcount) hlt).2
  rw [List.map_take, names_of_madeFor h, ← List.map_take, List.take_range, min_eq_left hcount.le]
  simpa [hget] using hmade

theorem yields_namedFiles (inRange : d.InRange) (count : Nat) :
    Yields d (namedFiles count) (CorpusSound count) := by
  have hfile (i : Nat) : Yields d (do return (fileName i, ← schema ((List.range i).map fileName)))
      (MadeFor i) := by
    refine .bind (yields_schema inRange ?_) fun text htext => .pure ⟨rfl, htext⟩
    simp [encode_fileName]
  refine (Yields.places hfile count).mono fun files h => ?_
  have hnames := names_of_madeFor h
  have haccepted := importsEarlier_of_madeFor h
  have hnodup : (files.map Prod.fst).Nodup := by
    rw [hnames]
    exact List.nodup_range.map fileName_injective
  exact ⟨hnames, haccepted, not_transGen_imports hnodup haccepted⟩

/-- Whatever seed is taken, and whatever is drawn within the ranges asked for, every random text
is that of a legal file, and the files of a corpus import only files before them. -/
theorem random_files_sound :
    (∀ (seed : Int) (count : Nat), SourcesSound count (fromSeed seed (sources count)) ∧
      CorpusSound count (fromSeed seed (namedFiles count))) ∧
    ∀ {σ : Type} (d : DrawSource σ), d.InRange → ∀ (s : σ) (count : Nat),
      SourcesSound count ((sources count).run d s).1 ∧
      CorpusSound count ((namedFiles count).run d s).1 := by
  refine ⟨fun seed count => ⟨?_, ?_⟩, fun d inRange s count => ⟨?_, ?_⟩⟩
  · exact yields_sources Twister.source_inRange count _
  · exact yields_namedFiles Twister.source_inRange count _
  · exact yields_sources inRange count s
  · exact yields_namedFiles inRange count s

theorem random_files_sound_twister : Twister.source.InRange ∧
    SourcesSound 3 ((sources 3).run Twister.source (Twister.ofSeed 7)).1 ∧
    CorpusSound 3 ((namedFiles 3).run Twister.source (Twister.ofSeed 7)).1 :=
  ⟨Twister.source_inRange,
    random_files_sound.2 Twister.source Twister.source_inRange (Twister.ofSeed 7) 3⟩

end Proto2.Corpus

import Mathlib.Logic.Function.Iterate
import Proto2.Proofs.Layout.Lays
import Proto2.Proofs.Token.Continued

/-!
Documentation is kept when it is printed.

Documentation that comments give is tidy, and tidy documentation is what its own comment lines give:
printed above a token, at any depth and behind any text at whose end no comment waits, they are
attached to the token, and nothing else is.
-/

namespace Proto2

namespace Documentation

/-! ### Tidy documentation -/

/-- No line ends in a blank, and unless there is nothing at all, the first line and the last one are
not empty. -/
structure IsTidy (doc : String) : Prop where
  trimmed : ∀ l ∈ Text.lines doc.toList, ∀ c ∈ l.getLast?, Text.isBlank c = false
  first : doc ≠ "" → (Text.lines doc.toList).head? ≠ some []
  last : doc ≠ "" → (Text.lines doc.toList).getLast? ≠ some []

theorem trimEnd_eq_self_iff {l : List Char} :
    Text.trimEnd l = l ↔ ∀ c ∈ l.getLast?, Text.isBlank c = false := by
  show List.rdropWhile Text.isBlank l = l ↔ _
  rw [List.rdropWhile_eq_self_iff]
  rcases List.eq_nil_or_concat l with rfl | ⟨init, c, rfl⟩
  · simp
  · simp

theorem dropWhile_isEmpty_eq_self_iff {ls : List (List Char)} :
    ls.dropWhile List.isEmpty = ls ↔ ls.head? ≠ some [] := by
  cases ls with
  | nil => simp
  | cons l ls => simp [List.dropWhile_eq_self_iff]

theorem rdropWhile_isEmpty_eq_self_iff {ls : List (List Char)} :
    ls.rdropWhile List.isEmpty = ls ↔ ls.getLast? ≠ some [] := by
  rw [List.rdropWhile_eq_self_iff]
  rcases List.eq_nil_or_concat ls with rfl | ⟨init, l, rfl⟩
  · simp
  · simp

theorem trimEmptyEdges_eq_self_iff {ls : List (List Char)} :
    trimEmptyEdges ls = ls ↔ ls.head? ≠ some [] ∧ ls.getLast? ≠ some [] := by
  rw [trimEmptyEdges_eq, ← dropWhile_isEmpty_eq_self_iff, ← rdropWhile_isEmpty_eq_self_iff]
  constructor
  · intro h
    have hlength : ls.length ≤ (ls.dropWhile List.isEmpty).length := by
      have hle := (List.rdropWhile_prefix List.isEmpty (ls.dropWhile List.isEmpty)).length_le
      rwa [h] at hle
    have hdrop : ls.dropWhile List.isEmpty = ls :=
      (List.dropWhile_suffix List.isEmpty).eq_of_length_le hlength
    rw [hdrop] at h
    exact ⟨hdrop, h⟩
  · rintro ⟨hfirst, hlast⟩
    rw [hfirst, hlast]

theorem map_trimEnd_eq_self_iff {ls : List (List Char)} :
    ls.map Text.trimEnd = ls ↔ ∀ l ∈ ls, ∀ c ∈ l.getLast?, Text.isBlank c = false := by
  have hid : ls.map Text.trimEnd = ls ↔ ls.map Text.trimEnd = ls.map id := by rw [List.map_id]
  rw [hid, List.map_inj_left]
  exact forall₂_congr fun l _ => trimEnd_eq_self_iff

/-- Documentation is normal if it is tidy, and only then. -/
theorem isNormal_iff_isTidy {doc : String} : IsNormal doc ↔ IsTidy doc := by
  constructor
  · rintro ⟨ls, hls, rfl⟩
    rcases eq_or_ne ls [] with rfl | hsome
    · have hlines : Text.lines (String.ofList (Text.unlines [])).toList = [[]] := rfl
      refine ⟨?_, fun hdoc => absurd rfl hdoc, fun hdoc => absurd rfl hdoc⟩
      rw [hlines]
      simp
    · have hlines : Text.lines (String.ofList (Text.unlines ls)).toList = ls := by
        rw [String.toList_ofList, Text.lines_unlines hls.oneLine hsome]
      obtain ⟨hfirst, hlast⟩ := trimEmptyEdges_eq_self_iff.mp hls.edges
      refine ⟨?_, fun _ => ?_, fun _ => ?_⟩
      · rw [hlines]
        exact map_trimEnd_eq_self_iff.mp hls.trimmed
      · rwa [hlines]
      · rwa [hlines]
  · intro h
    rcases eq_or_ne doc "" with rfl | hdoc
    · exact ⟨[], ⟨by simp, rfl, rfl⟩, rfl⟩
    · refine ⟨Text.lines doc.toList, ⟨?_, ?_, ?_⟩, ?_⟩
      · exact fun l hl => Text.not_newline_of_mem_lines hl
      · exact map_trimEnd_eq_self_iff.mpr h.trimmed
      · exact trimEmptyEdges_eq_self_iff.mpr ⟨h.first hdoc, h.last hdoc⟩
      · rw [Text.unlines_lines, String.ofList_toList]

end Documentation

/-! ### Documentation above a token -/

/-- What is printed at some depth bears the same tokens. -/
theorem Writes.indent_iterate {p q : Pen} {cs : List Char} {ws : List Written}
    (h : Writes p cs ws q) (depth : Nat) : Writes p (Text.indent^[depth] cs) ws q := by
  induction depth with
  | zero => exact h
  | succ depth ih =>
      rw [Function.iterate_succ_apply']
      exact ih.indent

/-- The text is read to its end, which is the end of a line, and no comment waits there. -/
structure Lexed.EndsClear (file : String) (text : List Char) (ts : List Token) : Prop where
  ends : text = [] ∨ Text.EndsLine text
  tokens : ∃ e, TokensOf file text ts e ∧ e.comments = []

/-- What comments give is tidy.  Tidy documentation whose comment lines are printed above a token,
at any depth, is what the comments attached to the token give. -/
theorem documentation_kept :
    (∀ comments : List Comment, (∀ c ∈ comments, c.IsLexed) →
      Documentation.IsTidy (Documentation.ofComments comments)) ∧
    ∀ doc : String, Documentation.IsTidy doc →
      ∀ (depth : Nat) (file : String) (before pad after : List Char) (ts : List Token) (t : Token),
        Lexed.EndsClear file before ts → (∀ c ∈ pad, Lexeme.isSpace c = true ∧ c ≠ '\n') →
        Lexed.StartsWith file after t →
        let printed := before ++ Text.indent^[depth] (Layout.commentLines doc)
        ∃ t' us, (Lexed.ofText file (printed ++ (pad ++ after))).tokens = ts ++ t' :: us ∧
          t'.kind = t.kind ∧ t'.lexeme = t.lexeme ∧
          t'.span.start = Position.start.advance (printed ++ pad) ∧
          Documentation.ofComments t'.comments = doc := by
  refine ⟨fun comments h => ?_, ?_⟩
  · exact Documentation.isNormal_iff_isTidy.mp (Documentation.isNormal_ofComments h)
  · intro doc tidy depth file before pad after ts t clear blank startsWith
    obtain ⟨e, tokens, none⟩ := clear.tokens
    have hbefore : Lexed.LeadsTo file 0 [] .start before ts .line := by
      have hleads := Lexed.leadsTo_of_tokensOf tokens clear.ends
      rwa [none] at hleads
    have hprinted := hbefore.writes ((Writes.documentation doc).indent_iterate depth)
    obtain ⟨t', us, htokens, hkind, hlexeme, hstart, hcomments⟩ :=
      hprinted.exists_token blank startsWith
    have normal := Documentation.isNormal_iff_isTidy.mpr tidy
    have hdoc := Documentation.ofComments_written normal hcomments
    exact ⟨t', us, htokens, hkind, hlexeme, hstart, hdoc⟩

/-- Documentation with a space at its start, an empty line and slashes in it is kept below a line with
a comment of its own. -/
theorem documentation_kept_below_line :
    let comment : Comment := ⟨true, "/**\n *  a \n *\n * // b\n */", ⟨"f.proto", .start, .start⟩⟩
    let doc := " a\n\n// b"
    let before := "x // c\n".toList
    let printed := before ++ Text.indent^[2] (Layout.commentLines doc)
    let t : Token := ⟨.semicolon, ";", ⟨"f.proto", .start, ⟨1, 1, 2⟩⟩, []⟩
    Documentation.ofComments [comment] = doc ∧ Documentation.IsTidy doc ∧
      ∃ ts t' us, Lexed.EndsClear "f.proto" before ts ∧ Lexed.StartsWith "f.proto" [';'] t ∧
        (Lexed.ofText "f.proto" (printed ++ (['\t', ' '] ++ [';']))).tokens = ts ++ t' :: us ∧
        t'.kind = .semicolon ∧ Documentation.ofComments t'.comments = doc := by
  intro comment doc before printed t
  have hdoc : Documentation.ofComments [comment] = doc := by decide +kernel
  have htidy : Documentation.IsTidy doc := by
    rw [← hdoc]
    exact documentation_kept.1 [comment] (by simp [Comment.IsLexed, comment])
  let tokens := (Lexed.ofText "f.proto" before).tokens
  have hclear : Lexed.EndsClear "f.proto" before tokens.dropLast := by
    refine ⟨.inr rfl, tokens.getLast (by decide +kernel), ⟨?_, by decide +kernel⟩,
      by decide +kernel⟩
    rw [List.dropLast_concat_getLast]
    decide +kernel
  have hstarts : Lexed.StartsWith "f.proto" [';'] t :=
    ⟨rfl, (Lexed.ofText "f.proto" [';']).tokens.tail, by decide +kernel⟩
  obtain ⟨t', us, htokens, hkind, -, -, hcomments⟩ :=
    documentation_kept.2 doc htidy 2 "f.proto" before ['\t', ' '] [';'] _ t hclear
      (by simp [Lexeme.isSpace]) hstarts
  exact ⟨hdoc, htidy, _, t', us, hclear, hstarts, htokens, hkind, hcomments⟩

end Proto2

import Proto2.Proofs.Layout.Documented
import Proto2.Proofs.Layout.Indent
import Proto2.Proofs.Text.LineEndings
import Proto2.Proofs.Token.Gap

/-!
Two styles of documentation, and that they say the same.

Lines may stand in a block comment, each behind a margin of a star and a space, or in line comments
with a space behind the slashes.  The margin of the block is found by looking at all of its lines,
the one with the closing delimiter among them, while each line comment is read on its own.  Both
give the lines as they are, with what stands before their first character that is not blank, less
the blanks at their ends and the blank lines at either end.
-/

namespace Proto2

namespace Text

theorem unlines_cons {ls : List (List Char)} (h : ls ≠ []) (l : List Char) :
    unlines (l :: ls) = l ++ '\n' :: unlines ls := by
  rw [unlines, List.intercalate_cons_of_ne_nil h, List.append_assoc]
  rfl

theorem unlines_concat_append (ls : List (List Char)) (l cs : List Char) :
    unlines (ls ++ [l ++ cs]) = unlines (ls ++ [l]) ++ cs := by
  induction ls with
  | nil => simp [unlines]
  | cons m ls ih =>
      rw [List.cons_append, List.cons_append, unlines_cons (by simp), unlines_cons (by simp), ih,
        List.append_assoc, List.cons_append]

end Text

namespace Gap

/-! ### Text in which no comment is closed -/

theorem stillOpen_cons {c : Char} {cs : List Char} (hc : c = '*' → cs.head? ≠ some '/')
    (h : ¬['*', '/'] <:+: cs) : ¬['*', '/'] <:+: c :: cs := by
  rw [List.infix_cons_iff, not_or]
  refine ⟨?_, h⟩
  rintro ⟨rest, hrest⟩
  cases hrest
  exact hc rfl rfl

theorem stillOpen_append {before cs : List Char} (noStar : '*' ∉ before)
    (h : ¬['*', '/'] <:+: cs) : ¬['*', '/'] <:+: before ++ cs := by
  induction before with
  | nil => exact h
  | cons c before ih =>
      rw [List.mem_cons, not_or] at noStar
      exact stillOpen_cons (fun hc => absurd hc.symm noStar.1) (ih noStar.2)

/-- A closing delimiter does not reach over the end of a line. -/
theorem stillOpen_append_newline {l cs : List Char} (line : ¬['*', '/'] <:+: l)
    (h : ¬['*', '/'] <:+: cs) : ¬['*', '/'] <:+: l ++ '\n' :: cs := by
  induction l with
  | nil => exact stillOpen_cons (by simp) h
  | cons c l ih =>
      rw [List.infix_cons_iff, not_or] at line
      refine stillOpen_cons ?_ (ih line.2)
      rintro rfl hslash
      cases l with
      | nil => simp at hslash
      | cons d l =>
          cases hslash
          exact line.1 ⟨l, rfl⟩

theorem stillOpen_unlines {ls : List (List Char)} (h : ∀ l ∈ ls, ¬['*', '/'] <:+: l) :
    ¬['*', '/'] <:+: Text.unlines ls := by
  induction ls with
  | nil => simp [Text.unlines]
  | cons l ls ih =>
      rw [List.forall_mem_cons] at h
      rcases eq_or_ne ls [] with rfl | hsome
      · rw [Text.unlines, List.intercalate_singleton]
        exact h.1
      · rw [Text.unlines_cons hsome]
        exact stillOpen_append_newline h.1 (ih h.2)

end Gap

namespace Documentation

/-! ### The two styles -/

/-- A line behind a margin of a star and a space. -/
def starLine (indent line : List Char) : List Char :=
  indent ++ ' ' :: '*' :: ' ' :: line

/-- The block comment with the lines behind its margin, between its delimiters on lines of their
own. -/
def starred (indent : List Char) (ls : List (List Char)) : List Char :=
  ['/', '*', '*'] ++
    Text.unlines ([] :: ls.map (starLine indent) ++ [indent ++ [' ', '*', '/']])

/-- The line comment with the line behind a space. -/
def slashed (line : List Char) : List Char :=
  '/' :: '/' :: ' ' :: line

/-- The first lines are the second ones with lines above and below that are blank, and the second
ones neither start nor end with a blank one. -/
structure TrimsTo (ls kept : List (List Char)) : Prop where
  parts : ∃ above below, ls = above ++ kept ++ below ∧ ∀ l ∈ above ++ below, Text.isAllBlank l
  first : ∀ l ∈ kept.head?, Text.isAllBlank l = false
  last : ∀ l ∈ kept.getLast?, Text.isAllBlank l = false

/-- The lines of a starred comment, from the one behind the opening delimiter to the one before the
closing one. -/
def starLines (indent : List Char) (ls : List (List Char)) : List (List Char) :=
  ls.map (starLine indent) ++ [indent ++ [' ']]

theorem starred_eq (indent : List Char) (ls : List (List Char)) :
    starred indent ls =
      '/' :: '*' :: (Text.unlines (['*'] :: starLines indent ls) ++ ['*', '/']) := by
  have hlast : indent ++ [' ', '*', '/'] = indent ++ [' '] ++ ['*', '/'] := by simp
  rw [starred, hlast, Text.unlines_concat_append, Text.unlines_cons_cons, starLines]
  rfl

/-! ### Complete comments -/

theorem stillOpen_starLine {indent line : List Char} (margin : ∀ c ∈ indent, isMarginBlank c)
    (h : ¬['*', '/'] <:+: line) : ¬['*', '/'] <:+: starLine indent line := by
  have hbehind : ¬['*', '/'] <:+: ' ' :: '*' :: ' ' :: line :=
    Gap.stillOpen_cons (by simp) (Gap.stillOpen_cons (by simp) (Gap.stillOpen_cons (by simp) h))
  exact Gap.stillOpen_append (fun hstar => absurd (margin _ hstar) (by decide)) hbehind

theorem isComment_starred {indent : List Char} (margin : ∀ c ∈ indent, isMarginBlank c)
    {ls : List (List Char)} (stillOpen : ∀ l ∈ ls, ¬['*', '/'] <:+: l) (after : List Char) :
    Gap.IsComment (starred indent ls) after := by
  rw [starred_eq]
  refine .block (Gap.stillOpen_unlines ?_)
  intro l hl
  rw [starLines, List.mem_cons, List.mem_append, List.mem_map, List.mem_singleton] at hl
  rcases hl with rfl | ⟨line, hline, rfl⟩ | rfl
  · decide
  · exact stillOpen_starLine margin (stillOpen line hline)
  · exact Gap.stillOpen_append (fun hstar => absurd (margin _ hstar) (by decide)) (by decide)

theorem isComment_slashed {line : List Char} (oneLine : '\n' ∉ line) (after : List Char) :
    Gap.IsComment (slashed line) ('\n' :: after) := by
  have hbody : '\n' ∉ ' ' :: line := by simpa using oneLine
  exact .line hbody (by simp)

/-! ### What they give -/

theorem lineBody_slashed (line : List Char) : lineBody (slashed line) = line := rfl

theorem blockBody_starred (indent : List Char) (ls : List (List Char)) :
    blockBody (starred indent ls) = Text.unlines ([] :: starLines indent ls) := by
  have hbody : starred indent ls =
      '/' :: '*' :: ('*' :: Text.unlines ([] :: starLines indent ls) ++ ['*', '/']) := by
    rw [starred_eq, Text.unlines_cons_cons]
  rw [blockBody, hbody]
  simp

theorem behindStar?_starLine {indent : List Char} (margin : ∀ c ∈ indent, isMarginBlank c)
    (line : List Char) : behindStar? (starLine indent line) = some (' ' :: line) := by
  rw [behindStar?, starLine, List.dropWhile_append_of_pos margin]
  rfl

theorem dropMargin_starLine {indent : List Char} (margin : ∀ c ∈ indent, isMarginBlank c)
    (line : List Char) : dropMargin (starLine indent line) = line := by
  rw [dropMargin_eq, behindStar?_starLine margin]
  rfl

/-- The line with the closing delimiter is blank, so it fits the margin and nothing is left of
it. -/
theorem lastLine_of_margin {indent : List Char} (margin : ∀ c ∈ indent, isMarginBlank c) :
    Text.isAllBlank (indent ++ [' ']) ∧ dropMargin (indent ++ [' ']) = indent ++ [' '] := by
  have hall : ∀ c ∈ indent ++ [' '], isMarginBlank c := by
    simpa [or_imp, forall_and] using ⟨margin, rfl⟩
  have hblank : ∀ c, isMarginBlank c → Text.isBlank c := by
    intro c hc
    rw [isMarginBlank, Bool.or_eq_true, beq_iff_eq, beq_iff_eq] at hc
    rcases hc with rfl | rfl <;> decide
  refine ⟨List.all_eq_true.mpr fun c hc => hblank c (hall c hc), ?_⟩
  rw [dropMargin_eq, behindStar?, List.dropWhile_eq_nil_iff.mpr hall]
  rfl

theorem blockLines_starred {indent : List Char} (margin : ∀ c ∈ indent, isMarginBlank c)
    {ls : List (List Char)} (oneLine : ∀ l ∈ ls, '\n' ∉ l) :
    blockLines (starred indent ls) = [] :: ls ++ [indent ++ [' ']] := by
  obtain ⟨hblank, hkept⟩ := lastLine_of_margin margin
  have hindent : '\n' ∉ indent := fun hn => absurd (margin _ hn) (by decide)
  have hfree : ∀ l ∈ [] :: starLines indent ls, '\n' ∉ l := by
    intro l hl
    rw [starLines, List.mem_cons, List.mem_append, List.mem_map, List.mem_singleton] at hl
    rcases hl with rfl | ⟨line, hline, rfl⟩ | rfl
    · simp
    · simp [starLine, hindent, oneLine line hline]
    · simp [hindent]
  have hfits : (starLines indent ls).all fitsMargin := by
    rw [starLines, List.all_append, List.all_map, Bool.and_eq_true, List.all_eq_true]
    refine ⟨fun l _ => ?_, ?_⟩
    · simp [fitsMargin, behindStar?_starLine margin]
    · simp [fitsMargin, hblank]
  have hdrop : (starLines indent ls).map dropMargin = ls ++ [indent ++ [' ']] := by
    rw [starLines, List.map_append, List.map_map, List.map_singleton, hkept]
    congr 1
    exact (List.map_congr_left fun l _ => dropMargin_starLine margin l).trans (List.map_id _)
  unfold blockLines
  rw [blockBody_starred, Text.lines_unlines hfree (by simp)]
  dsimp only
  rw [if_pos hfits, hdrop]
  rfl

theorem isEmpty_trimEnd (l : List Char) : (Text.trimEnd l).isEmpty = Text.isAllBlank l := by
  rw [Bool.eq_iff_iff, List.isEmpty_iff, Text.isAllBlank, List.all_eq_true]
  exact List.rdropWhile_eq_nil_iff

theorem trimsTo_of_trimmed (ls : List (List Char)) :
    TrimsTo ls ((ls.dropWhile Text.isAllBlank).rdropWhile Text.isAllBlank) := by
  let rest := ls.dropWhile Text.isAllBlank
  refine ⟨⟨ls.takeWhile Text.isAllBlank, rest.rtakeWhile Text.isAllBlank, ?_, ?_⟩, ?_, ?_⟩
  · rw [List.append_assoc, List.rdropWhile_append_rtakeWhile, List.takeWhile_append_dropWhile]
  · intro l hl
    rcases List.mem_append.mp hl with hl | hl
    · exact List.mem_takeWhile_imp hl
    · exact List.mem_rtakeWhile_imp hl
  · intro l hl
    obtain ⟨below, hbelow⟩ := List.rdropWhile_prefix Text.isAllBlank rest
    have hhead : rest.head? = some l := by
      rw [← hbelow, List.head?_append, Option.mem_def.mp hl, Option.some_or]
    have hnot := List.head?_dropWhile_not Text.isAllBlank ls
    rwa [hhead] at hnot
  · intro l hl
    obtain ⟨hsome, rfl⟩ := List.mem_getLast?_eq_getLast hl
    simpa using List.rdropWhile_last_not Text.isAllBlank rest hsome

/-- Lines that are empty once the blanks at their ends are gone are the blank ones. -/
theorem trimEmptyEdges_map_trimEnd (ls : List (List Char)) :
    trimEmptyEdges (ls.map Text.trimEnd) =
      ((ls.dropWhile Text.isAllBlank).rdropWhile Text.isAllBlank).map Text.trimEnd := by
  have hblank : List.isEmpty ∘ Text.trimEnd = Text.isAllBlank := funext isEmpty_trimEnd
  rw [trimEmptyEdges_eq, List.dropWhile_map, hblank, List.rdropWhile, List.rdropWhile,
    ← List.map_reverse, List.dropWhile_map, hblank, List.map_reverse]

/-- An empty line at either end makes no difference. -/
theorem trimEmptyEdges_between (ls : List (List Char)) :
    trimEmptyEdges ([] :: ls ++ [[]]) = trimEmptyEdges ls := by
  have hfirst : ([] :: ls ++ [[]]).dropWhile List.isEmpty = (ls ++ [[]]).dropWhile List.isEmpty :=
    rfl
  rw [trimEmptyEdges_eq, trimEmptyEdges_eq, hfirst, List.dropWhile_append]
  split
  · rename_i hnone
    rw [List.isEmpty_iff.mp hnone]
    rfl
  · exact List.rdropWhile_concat_pos _ _ _ rfl

/-! ### Comments in the two styles -/

/-- The comment is a block comment with the text. -/
def IsStarred (indent : List Char) (ls : List (List Char)) (c : Comment) : Prop :=
  c.block = true ∧ c.text.toList = starred indent ls

/-- The comments are line comments, one for each of the lines. -/
def AreSlashed (ls : List (List Char)) (run : List Comment) : Prop :=
  run.map (fun c => (c.block, c.text.toList)) = ls.map fun l => (false, slashed l)

theorem groupLines_starred {indent : List Char} (margin : ∀ c ∈ indent, isMarginBlank c)
    {ls : List (List Char)} (oneLine : ∀ l ∈ ls, '\n' ∉ l) {c : Comment}
    (isStarred : IsStarred indent ls c) (above : List Comment) :
    groupLines (above ++ [c]) = [] :: ls ++ [indent ++ [' ']] := by
  rw [groupLines_block isStarred.1, isStarred.2, blockLines_starred margin oneLine]

theorem groupLines_slashed {ls : List (List Char)} (hsome : ls ≠ []) {run : List Comment}
    (areSlashed : AreSlashed ls run) {above : List Comment}
    (habove : ∀ c ∈ above.getLast?, c.block) : groupLines (above ++ run) = ls := by
  have hline : ∀ c ∈ run, c.block = false := by
    intro c hc
    have hmem : (c.block, c.text.toList) ∈ ls.map fun l => (false, slashed l) := by
      rw [← areSlashed]
      exact List.mem_map_of_mem hc
    obtain ⟨l, -, heq⟩ := List.mem_map.mp hmem
    exact (congrArg Prod.fst heq).symm
  have hbody : run.map (lineBody ·.text.toList) = ls := by
    have hmap := congrArg (List.map fun p : Bool × List Char => lineBody p.2) areSlashed
    rw [List.map_map, List.map_map] at hmap
    exact hmap.trans ((List.map_congr_left fun l _ => lineBody_slashed l).trans (List.map_id _))
  have hrun : run ≠ [] := by
    rintro rfl
    exact hsome hbody.symm
  rw [groupLines_run hrun hline habove, hbody]

/-- Lines that close no comment may stand in a starred block comment, whatever blanks its margin
starts with, or in line comments.  Both give the same documentation: the lines without the blanks at
their ends, and without the blank lines at either end. -/
theorem documentation_styles_agree {indent : List Char} (margin : ∀ c ∈ indent, c = ' ' ∨ c = '\t')
    {ls : List (List Char)} (hsome : ls ≠ []) (oneLine : ∀ l ∈ ls, '\n' ∉ l)
    (stillOpen : ∀ l ∈ ls, ¬['*', '/'] <:+: l) :
    (∀ after, Gap.IsComment (starred indent ls) after ∧
      ∀ l ∈ ls, Gap.IsComment (slashed l) ('\n' :: after)) ∧
    ∃ kept, TrimsTo ls kept ∧
      ∀ (above above' run : List Comment) (c : Comment),
        IsStarred indent ls c → AreSlashed ls run → (∀ c ∈ above'.getLast?, c.block) →
        ofComments (above ++ [c]) = ofComments (above' ++ run) ∧
        ofComments (above' ++ run) = String.ofList (Text.unlines (kept.map Text.trimEnd)) := by
  have hmargin : ∀ c ∈ indent, isMarginBlank c := by
    intro c hc
    simpa [isMarginBlank] using margin c hc
  refine ⟨fun after => ⟨isComment_starred hmargin stillOpen after, fun l hl => ?_⟩, ?_⟩
  · exact isComment_slashed (oneLine l hl) after
  · refine ⟨_, trimsTo_of_trimmed ls, fun above above' run c isStarred areSlashed habove => ?_⟩
    have hstarred : ofComments (above ++ [c]) =
        String.ofList (Text.unlines (trimEmptyEdges (ls.map Text.trimEnd))) := by
      have hlast : Text.trimEnd (indent ++ [' ']) = [] :=
        List.isEmpty_iff.mp ((isEmpty_trimEnd _).trans (lastLine_of_margin hmargin).1)
      rw [ofComments, groupLines_starred hmargin oneLine isStarred, List.map_append, List.map_cons,
        List.map_singleton, hlast, ← trimEmptyEdges_between (ls.map Text.trimEnd)]
      rfl
    have hslashed : ofComments (above' ++ run) =
        String.ofList (Text.unlines (trimEmptyEdges (ls.map Text.trimEnd))) := by
      rw [ofComments, groupLines_slashed hsome areSlashed habove]
    rw [hstarred, hslashed, trimEmptyEdges_map_trimEnd]
    exact ⟨rfl, rfl⟩

/-- A line that starts with a star, an empty one and one that ends in a star are documented alike
behind a margin that starts with a tab and behind slashes. -/
theorem documentation_styles_agree_stars :
    let indent := ['\t', ' ']
    let ls := ["", "  * a ", "", " /b*\t"].map String.toList
    let span : Span := ⟨"f.proto", .start, .start⟩
    let block : Comment := ⟨true, String.ofList (starred indent ls), span⟩
    let run : List Comment := ls.map fun l => ⟨false, String.ofList (slashed l), span⟩
    Gap.IsComment (starred indent ls) [] ∧ ofComments [block] = ofComments run ∧
      ofComments run = "  * a\n\n /b*" := by
  intro indent ls span block run
  have hmargin : ∀ c ∈ indent, c = ' ' ∨ c = '\t' := by simp [indent]
  have hsome : ls ≠ [] := by decide
  obtain ⟨hcomment, kept, -, hagree⟩ :=
    documentation_styles_agree hmargin hsome (by decide +kernel) (by decide +kernel)
  have hblock : IsStarred indent ls block := ⟨rfl, String.toList_ofList⟩
  have hrun : AreSlashed ls run := by simp [AreSlashed, run, Function.comp_def]
  obtain ⟨hsame, -⟩ := hagree [] [] run block hblock hrun (by simp)
  exact ⟨(hcomment []).1, hsame, by decide +kernel⟩

end Documentation

end Proto2

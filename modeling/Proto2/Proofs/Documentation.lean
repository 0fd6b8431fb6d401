import Mathlib.Data.List.DropRight
import Proto2.Documentation
import Proto2.Printer.Declaration
import Proto2.Proofs.Token.Lexed

/-!
Documentation as it is read from comments, and as it is written.

What comments give is normal: its lines end in no blanks, and the first line and the last one
are not empty.  Documentation that is normal is what its own comment lines give.
-/

namespace Proto2

namespace Text

theorem not_newline_of_mem_lines {cs l : List Char} (h : l ∈ lines cs) : '\n' ∉ l := by
  induction cs generalizing l with
  | nil =>
      rw [List.mem_singleton.mp h]
      exact List.not_mem_nil
  | cons c cs ih =>
      rw [lines, List.splitOn_cons_eq_if_modifyHead] at h
      split at h
      · rcases List.mem_cons.mp h with rfl | h
        · exact List.not_mem_nil
        · exact ih h
      · rename_i hc
        obtain ⟨first, rest, hlines⟩ := List.exists_cons_of_ne_nil (List.splitOn_ne_nil '\n' cs)
        rw [hlines, List.modifyHead_cons] at h
        have hall : ∀ l ∈ first :: rest, '\n' ∉ l := by
          intro l hl
          apply ih
          rw [lines, hlines]
          exact hl
        rcases List.mem_cons.mp h with rfl | h
        · rw [List.mem_cons, not_or]
          refine ⟨fun heq => hc ?_, hall first (by simp)⟩
          rw [← heq]
          rfl
        · exact hall l (by simp [h])

theorem trimEnd_subset (l : List Char) : trimEnd l ⊆ l :=
  (List.rdropWhile_prefix isBlank l).subset

theorem trimEnd_trimEnd (l : List Char) : trimEnd (trimEnd l) = trimEnd l :=
  List.rdropWhile_idempotent isBlank l

theorem trim_subset (l : List Char) : trim l ⊆ l :=
  List.Subset.trans (trimEnd_subset _) (List.dropWhile_suffix isBlank).subset

end Text

namespace Documentation

/-! ### What comments give -/

theorem trimEmptyEdges_eq (ls : List (List Char)) :
    trimEmptyEdges ls = List.rdropWhile List.isEmpty (ls.dropWhile List.isEmpty) := rfl

theorem trimEmptyEdges_trimEmptyEdges (ls : List (List Char)) :
    trimEmptyEdges (trimEmptyEdges ls) = trimEmptyEdges ls := by
  have hdrop : (trimEmptyEdges ls).dropWhile List.isEmpty = trimEmptyEdges ls := by
    have hbegins : trimEmptyEdges ls <+: ls.dropWhile List.isEmpty :=
      List.rdropWhile_prefix _ _
    have hself := List.dropWhile_eq_self_iff.mp (List.dropWhile_idempotent List.isEmpty ls)
    rw [List.dropWhile_eq_self_iff]
    intro hpos
    rw [hbegins.getElem]
    exact hself _
  rw [trimEmptyEdges_eq, hdrop, trimEmptyEdges_eq, List.rdropWhile_idempotent]

theorem trimEmptyEdges_subset (ls : List (List Char)) : trimEmptyEdges ls ⊆ ls :=
  List.Subset.trans (List.rdropWhile_prefix _ _).subset (List.dropWhile_suffix _).subset

/-- Lines as documentation has them. -/
structure NormalLines (ls : List (List Char)) : Prop where
  oneLine : ∀ l ∈ ls, '\n' ∉ l
  trimmed : ls.map Text.trimEnd = ls
  edges : trimEmptyEdges ls = ls

/-- The text is documentation as comments give it. -/
def IsNormal (doc : String) : Prop :=
  ∃ ls, NormalLines ls ∧ doc = String.ofList (Text.unlines ls)

theorem behindStar?_subset {line cs : List Char} (h : behindStar? line = some cs) : cs ⊆ line := by
  unfold behindStar? at h
  split at h
  · rename_i rest heq
    cases h
    intro c hc
    apply (List.dropWhile_suffix isMarginBlank).subset
    rw [heq]
    exact List.mem_cons_of_mem _ hc
  · cases h

theorem dropMargin_subset (line : List Char) : dropMargin line ⊆ line := by
  unfold dropMargin
  split
  · rename_i cs h
    exact List.Subset.trans (List.subset_cons_self _ _) (behindStar?_subset h)
  · rename_i cs _ h
    exact behindStar?_subset h
  · exact List.Subset.refl _

theorem not_newline_of_mem_blockLines {text l : List Char} (h : l ∈ blockLines text) :
    '\n' ∉ l := by
  unfold blockLines at h
  split at h
  · cases h
  · rename_i first rest heq
    have hlines : ∀ l ∈ first :: rest, '\n' ∉ l := by
      rw [← heq]
      exact fun l hl => Text.not_newline_of_mem_lines hl
    rcases List.mem_cons.mp h with rfl | h
    · exact fun hc => hlines first (by simp) (Text.trim_subset _ hc)
    · split at h
      · obtain ⟨line, hline, rfl⟩ := List.mem_map.mp h
        exact fun hc => hlines line (by simp [hline]) (dropMargin_subset _ hc)
      · obtain ⟨line, hline, rfl⟩ := List.mem_map.mp h
        exact fun hc => hlines line (by simp [hline]) (Text.trim_subset _ hc)

theorem lineBody_subset (text : List Char) : lineBody text ⊆ text := by
  unfold lineBody
  split
  · rename_i cs heq
    intro c hc
    apply (List.drop_suffix 2 text).subset
    rw [heq]
    exact List.mem_cons_of_mem _ hc
  · exact (List.drop_suffix 2 text).subset

theorem not_newline_of_mem_groupLines {comments : List Comment}
    (hcomments : ∀ c ∈ comments, c.IsLexed) {l : List Char} (h : l ∈ groupLines comments) :
    '\n' ∉ l := by
  unfold groupLines at h
  split at h
  · cases h
  · split at h
    · exact not_newline_of_mem_blockLines h
    · obtain ⟨c, hc, rfl⟩ := List.mem_map.mp h
      have hmem : c ∈ comments.reverse.takeWhile (!·.block) := List.mem_reverse.mp hc
      have hline : c.block = false := by
        have := List.all_eq_true.mp List.all_takeWhile c hmem
        simpa using this
      have hc' := List.mem_reverse.mp ((List.takeWhile_prefix _).subset hmem)
      exact fun hn => hcomments c hc' hline (lineBody_subset _ hn)

/-- What comments give is normal. -/
theorem isNormal_ofComments {comments : List Comment} (h : ∀ c ∈ comments, c.IsLexed) :
    IsNormal (ofComments comments) := by
  refine ⟨_, ⟨?_, ?_, trimEmptyEdges_trimEmptyEdges _⟩, rfl⟩
  · intro l hl
    obtain ⟨line, hline, rfl⟩ := List.mem_map.mp (trimEmptyEdges_subset _ hl)
    exact fun hc => not_newline_of_mem_groupLines h hline (Text.trimEnd_subset _ hc)
  · refine (List.map_congr_left fun l hl => ?_).trans (List.map_id _)
    obtain ⟨line, -, rfl⟩ := List.mem_map.mp (trimEmptyEdges_subset _ hl)
    exact Text.trimEnd_trimEnd line

/-! ### The last group -/

/-- A block comment at the end is a group of its own. -/
theorem groupLines_block {c : Comment} (block : c.block = true) (above : List Comment) :
    groupLines (above ++ [c]) = blockLines c.text.toList := by
  rw [groupLines, List.getLast?_concat]
  exact if_pos block

/-- Line comments at the end are a group if no line comment stands before them. -/
theorem groupLines_run {run : List Comment} (hrun : run ≠ []) (hline : ∀ c ∈ run, c.block = false)
    {above : List Comment} (habove : ∀ c ∈ above.getLast?, c.block = true) :
    groupLines (above ++ run) = run.map (lineBody ·.text.toList) := by
  have hbefore : above.reverse.takeWhile (!·.block) = [] := by
    cases h : above.reverse with
    | nil => rfl
    | cons c rest =>
        have hlast : above.getLast? = some c := by rw [← List.head?_reverse, h, List.head?_cons]
        exact List.takeWhile_cons_of_neg (by simp [habove c hlast])
  have hlast : lastRun (above ++ run) = run := by
    have hpos : ∀ c ∈ run.reverse, (!c.block) = true := by
      intro c hc
      simp [hline c (List.mem_reverse.mp hc)]
    rw [lastRun, List.reverse_append, List.takeWhile_append_of_pos hpos, hbefore, List.append_nil,
      List.reverse_reverse]
  have hblock : (run.getLast hrun).block = false := hline _ (List.getLast_mem hrun)
  rw [groupLines, List.getLast?_append_of_ne_nil _ hrun, List.getLast?_eq_some_getLast hrun]
  simp only [hblock, hlast]
  rfl

/-! ### What is written -/

/-- The line comment for a line of documentation, without the end of the line. -/
def commentBody (line : List Char) : List Char :=
  if line.isEmpty then ['/', '/'] else '/' :: '/' :: ' ' :: line

theorem commentLine_eq (line : List Char) :
    Layout.commentLine line = commentBody line ++ ['\n'] := by
  unfold Layout.commentLine commentBody
  split <;> simp

/-- The comments in which documentation is written: kinds and texts. -/
def written (doc : String) : List (Bool × String) :=
  if doc = "" then []
  else (Text.lines doc.toList).map fun l => (false, String.ofList (commentBody l))

theorem lineBody_commentBody (line : List Char) : lineBody (commentBody line) = line := by
  unfold commentBody
  split
  · rename_i h
    rw [List.isEmpty_iff.mp h]
    rfl
  · rfl

theorem groupLines_of_lines {comments : List Comment} {ls : List (List Char)} (hsome : ls ≠ [])
    (hcomments : comments.map (fun c => (c.block, c.text)) =
      ls.map fun l => (false, String.ofList (commentBody l))) : groupLines comments = ls := by
  have hline : ∀ c ∈ comments, c.block = false := by
    intro c hc
    have hmem : (c.block, c.text) ∈ comments.map fun c => (c.block, c.text) :=
      List.mem_map_of_mem hc
    rw [hcomments] at hmem
    obtain ⟨l, -, heq⟩ := List.mem_map.mp hmem
    exact (congrArg Prod.fst heq).symm
  have hbody : comments.map (lineBody ·.text.toList) = ls := by
    have hmap := congrArg (List.map fun p : Bool × String => lineBody p.2.toList) hcomments
    rw [List.map_map, List.map_map] at hmap
    refine Eq.trans hmap ((List.map_congr_left fun l _ => ?_).trans (List.map_id _))
    simp [lineBody_commentBody]
  have hcons : comments ≠ [] := by
    rintro rfl
    exact hsome hbody.symm
  rw [← List.nil_append comments, groupLines_run hcons hline (by simp), hbody]

/-- Normal documentation is what the comments in which it is written give. -/
theorem ofComments_written {doc : String} (h : IsNormal doc) {comments : List Comment}
    (hcomments : comments.map (fun c => (c.block, c.text)) = written doc) :
    ofComments comments = doc := by
  by_cases hdoc : doc = ""
  · rw [written, if_pos hdoc, List.map_eq_nil_iff] at hcomments
    rw [hcomments, hdoc]
    rfl
  · obtain ⟨ls, hls, rfl⟩ := h
    have hsome : ls ≠ [] := by
      rintro rfl
      exact hdoc rfl
    rw [written, if_neg hdoc, String.toList_ofList, Text.lines_unlines hls.oneLine hsome]
      at hcomments
    rw [ofComments, groupLines_of_lines hsome hcomments, hls.trimmed, hls.edges]

end Documentation

end Proto2

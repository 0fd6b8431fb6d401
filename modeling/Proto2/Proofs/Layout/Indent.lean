import Proto2.Proofs.Layout.Pen
import Proto2.Text.Lines

/-!
Indented text bears the same tokens.

Indentation puts spaces before the lines that are not empty.  No token and no comment reaches
over the end of a line, so the spaces stand between tokens and change none of them.
-/

namespace Proto2

namespace Text

/-- Text one level deeper, given whether it starts a line. -/
def indentedFrom : Bool → List Char → List Char
  | _, [] => []
  | _, '\n' :: cs => '\n' :: indentedFrom true cs
  | true, c :: cs => ' ' :: ' ' :: c :: indentedFrom false cs
  | false, c :: cs => c :: indentedFrom false cs

theorem indentedFrom_cons {c : Char} (hc : c ≠ '\n') (b : Bool) (cs : List Char) :
    indentedFrom b (c :: cs) = (if b then [' ', ' '] else []) ++ c :: indentedFrom false cs := by
  cases b <;> simp [indentedFrom]

theorem unlines_cons_nil {ls : List (List Char)} (h : ls ≠ []) :
    unlines ([] :: ls) = '\n' :: unlines ls := by
  rw [unlines, List.intercalate_cons_of_ne_nil h]
  rfl

theorem unlines_cons_cons (c : Char) (l : List Char) (ls : List (List Char)) :
    unlines ((c :: l) :: ls) = c :: unlines (l :: ls) := by
  simp [unlines]

/-- In lines, the first line is indented if the text starts one, and the others always are. -/
theorem indentedFrom_eq (cs : List Char) :
    ∃ l ls, lines cs = l :: ls ∧
      indentedFrom true cs = unlines (indentLine l :: ls.map indentLine) ∧
      indentedFrom false cs = unlines (l :: ls.map indentLine) := by
  induction cs with
  | nil => exact ⟨[], [], rfl, rfl, rfl⟩
  | cons c cs ih =>
      obtain ⟨l, ls, hlines, htrue, hfalse⟩ := ih
      have hsplit : List.splitOn '\n' cs = l :: ls := hlines
      rw [lines, List.splitOn_cons_eq_if_modifyHead, hsplit]
      by_cases hc : c = '\n'
      · subst hc
        refine ⟨[], l :: ls, rfl, ?_, ?_⟩
        · rw [indentedFrom, htrue, indentLine, ← unlines_cons_nil (by simp), List.map_cons]
        · rw [indentedFrom, htrue, ← unlines_cons_nil (by simp), List.map_cons]
      · refine ⟨c :: l, ls, by rw [if_neg (by simpa using hc)]; rfl, ?_, ?_⟩
        · rw [indentedFrom_cons hc, hfalse, indentLine]
          simp only [unlines_cons_cons, if_true, List.cons_append, List.nil_append]
        · rw [indentedFrom_cons hc, hfalse, unlines_cons_cons]
          rfl

/-- Indenting a text is indenting it from the start of a line. -/
theorem indent_eq (cs : List Char) : indent cs = indentedFrom true cs := by
  obtain ⟨l, ls, hlines, htrue, -⟩ := indentedFrom_eq cs
  rw [indent, hlines, htrue, List.map_cons]

/-- A piece of a line is indented at its start at most. -/
theorem indentedFrom_append {run : List Char} (oneLine : '\n' ∉ run) (cs : List Char) :
    indentedFrom false (run ++ cs) = run ++ indentedFrom false cs := by
  induction run with
  | nil => rfl
  | cons c run ih =>
      rw [List.mem_cons, not_or] at oneLine
      rw [List.cons_append, indentedFrom_cons (Ne.symm oneLine.1), ih oneLine.2]
      rfl

/-- Within a line, only what stands behind a newline is indented. -/
theorem indentedFrom_false_cons (c : Char) (cs : List Char) :
    indentedFrom false (c :: cs) = c :: indentedFrom (c = '\n') cs := by
  by_cases hc : c = '\n'
  · subst hc
    rfl
  · rw [indentedFrom_cons hc, decide_eq_false hc]
    rfl

@[simp] theorem head?_indentedFrom (cs : List Char) :
    (indentedFrom false cs).head? = cs.head? := by
  cases cs with
  | nil => rfl
  | cons c cs => rw [indentedFrom_false_cons, List.head?_cons, List.head?_cons]

theorem take_drop_indentedFrom {cs : List Char} {n : Nat} (oneLine : '\n' ∉ cs.take n) :
    (indentedFrom false cs).take n = cs.take n ∧
      (indentedFrom false cs).drop n = indentedFrom false (cs.drop n) := by
  induction n generalizing cs with
  | zero => exact ⟨rfl, rfl⟩
  | succ n ih =>
      cases cs with
      | nil => exact ⟨rfl, rfl⟩
      | cons c cs =>
          rw [List.take_succ_cons, List.mem_cons, not_or] at oneLine
          obtain ⟨htake, hdrop⟩ := ih oneLine.2
          rw [indentedFrom_cons (Ne.symm oneLine.1)]
          exact ⟨congrArg (c :: ·) htake, hdrop⟩

end Text

namespace Writes

/-- A text may be written behind the spaces that indent a line. -/
theorem after_spaces {p q : Pen} {cs : List Char} {ws : List Written} (h : Writes p cs ws q)
    (b : Bool) : Writes p ((if b then [' ', ' '] else []) ++ cs) ws q := by
  cases b with
  | false => exact h
  | true => exact h.after_space.after_space

/-- Indented text bears the same tokens. -/
theorem indentedFrom {p q : Pen} {cs : List Char} {ws : List Written} (h : Writes p cs ws q)
    (b : Bool) : Writes p (Text.indentedFrom b cs) ws q := by
  -- Spaces are added at the start of a line only, and so never within a token or a comment.
  induction h generalizing b with
  | nil allows =>
      cases b with
      | false => exact .nil allows
      | true => exact .nil allows
  | space rest ih =>
      rw [Text.indentedFrom_cons (by decide)]
      exact (space (ih false)).after_spaces b
  | newline rest ih =>
      have hcons (cs : List Char) :
          Text.indentedFrom b ('\n' :: cs) = '\n' :: Text.indentedFrom true cs := by
        cases b <;> rfl
      rw [hcons]
      exact .newline (ih true)
  | comment fresh oneLine rest ih =>
      rw [List.cons_append, Text.indentedFrom_cons (by decide), List.cons_append,
        Text.indentedFrom_cons (by decide), Text.indentedFrom_append oneLine]
      exact (comment fresh oneLine (ih true)).after_spaces b
  | token spells fits rest ih =>
      obtain ⟨c, text, rfl, -⟩ := spells.start
      have oneLine := spells.oneLine
      rw [List.mem_cons, not_or] at oneLine
      rw [List.cons_append, Text.indentedFrom_cons (Ne.symm oneLine.1),
        Text.indentedFrom_append oneLine.2]
      exact (token spells fits (ih false)).after_spaces b

theorem indent {p q : Pen} {cs : List Char} {ws : List Written} (h : Writes p cs ws q) :
    Writes p (Text.indent cs) ws q := by
  rw [Text.indent_eq]
  exact h.indentedFrom true

end Writes

end Proto2

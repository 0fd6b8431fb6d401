import Mathlib.Data.List.Induction
import Proto2.Source.Span

/-!
Places in a source text.

The numbers of a position are kept up to date while a text is passed over.  A position that is
reached from the start in this way has the numbers that counting from the start would give.
-/

namespace Proto2

namespace Position

@[simp] theorem offset_next (p : Position) (c : Char) : (p.next c).offset = p.offset + 1 := by
  unfold next
  split <;> rfl

@[simp] theorem offset_advance (p : Position) (cs : List Char) :
    (p.advance cs).offset = p.offset + cs.length := by
  induction cs generalizing p with
  | nil => rfl
  | cons c cs ih =>
      rw [advance_cons, ih, offset_next, List.length_cons]
      omega

/-- What stands behind the last newline of a text. -/
def lastLine (cs : List Char) : List Char :=
  (cs.reverse.takeWhile (· != '\n')).reverse

theorem lastLine_newline (cs : List Char) : lastLine (cs ++ ['\n']) = [] := by
  simp [lastLine]

theorem lastLine_concat {c : Char} (h : c ≠ '\n') (cs : List Char) :
    lastLine (cs ++ [c]) = lastLine cs ++ [c] := by
  simp [lastLine, h]

/-- The numbers of the place behind a text: its length, its newlines, and the length of its
last line. -/
theorem advance_start (cs : List Char) :
    start.advance cs = ⟨cs.length, 1 + cs.count '\n', 1 + (lastLine cs).length⟩ := by
  induction cs using List.reverseRecOn with
  | nil => rfl
  | append_singleton cs c ih =>
      rw [advance_append, ih]
      show next _ c = _
      by_cases h : c = '\n'
      · subst h
        rw [lastLine_newline, next, if_pos rfl]
        simp [Nat.add_assoc]
      · rw [lastLine_concat h, next, if_neg h]
        simp [h, Nat.add_assoc]

/-- The position is one of the text, and its line and its column are what counting gives. -/
structure IsExact (source : List Char) (p : Position) : Prop where
  offset_le : p.offset ≤ source.length
  line_eq : p.line = 1 + (source.take p.offset).count '\n'
  column_eq : p.column = 1 + (lastLine (source.take p.offset)).length

/-- An offset has one position only. -/
theorem IsExact.eq_of_offset {source : List Char} {p q : Position} (hp : p.IsExact source)
    (hq : q.IsExact source) (offset : p.offset = q.offset) : p = q := by
  obtain ⟨-, hline, hcolumn⟩ := hp
  obtain ⟨-, hline', hcolumn'⟩ := hq
  rw [offset] at hline hcolumn
  cases p
  cases q
  cases offset
  cases hline.trans hline'.symm
  cases hcolumn.trans hcolumn'.symm
  rfl

theorem isExact_advance_start (before after : List Char) :
    (start.advance before).IsExact (before ++ after) := by
  rw [advance_start]
  constructor
  · simp
  · rw [List.take_left]
  · rw [List.take_left]

end Position

/-- The text from one offset up to another. -/
def between (source : List Char) (n m : Nat) : List Char :=
  (source.drop n).take (m - n)

theorem between_append (before text after : List Char) :
    between (before ++ (text ++ after)) before.length (before.length + text.length) = text := by
  rw [between, List.drop_left, Nat.add_sub_cancel_left, List.take_left]

theorem between_append_drop {n m : Nat} (h : n ≤ m) (source : List Char) :
    between source n m ++ source.drop m = source.drop n := by
  obtain ⟨k, rfl⟩ := Nat.exists_eq_add_of_le h
  rw [between, Nat.add_sub_cancel_left, ← List.drop_drop, List.take_append_drop]

namespace Span

/-- The text that a span covers. -/
def text (source : List Char) (s : Span) : List Char :=
  between source s.start.offset s.stop.offset

/-- The span is one of the file, its ends are exact, and they stand in this order. -/
structure IsExact (file : String) (source : List Char) (s : Span) : Prop where
  file_eq : s.file = file
  start : s.start.IsExact source
  stop : s.stop.IsExact source
  forwards : s.start.offset ≤ s.stop.offset

theorem IsExact.eq_of_offsets {file : String} {source : List Char} {s t : Span}
    (hs : s.IsExact file source) (ht : t.IsExact file source)
    (start : s.start.offset = t.start.offset) (stop : s.stop.offset = t.stop.offset) : s = t := by
  have hfile := hs.file_eq.trans ht.file_eq.symm
  have hstart := hs.start.eq_of_offset ht.start start
  have hstop := hs.stop.eq_of_offset ht.stop stop
  cases s
  cases t
  cases hfile
  cases hstart
  cases hstop
  rfl

end Span

end Proto2

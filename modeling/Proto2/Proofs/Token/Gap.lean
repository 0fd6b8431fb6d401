import Proto2.Proofs.Source.Place
import Proto2.Proofs.Token.Lexed

/-!
What the gaps between tokens are made of.

Gaps are white space and comments; what a comment is depends on the text behind it, since a
comment to the end of the line ends only there.  While a gap is read, the cursor stands in the
source text at the place that its position says, so each comment has the text of its span.
-/

namespace Proto2

theorem Lexeme.drop_runLength (p : Char → Bool) (cs : List Char) :
    cs.drop (runLength p cs) = cs.dropWhile p := by
  nth_rewrite 2 [← List.takeWhile_append_dropWhile (p := p) (l := cs)]
  rw [runLength, List.drop_left]

namespace Gap

/-- A complete comment, given the text behind it: one to the end of the line, or one up to the
first closing delimiter. -/
inductive IsComment : List Char → List Char → Prop
  | line {body after : List Char} :
      '\n' ∉ body → (∀ c ∈ after.head?, c = '\n') → IsComment ('/' :: '/' :: body) after
  | block {body after : List Char} :
      ¬['*', '/'] <:+: body → IsComment ('/' :: '*' :: (body ++ ['*', '/'])) after

/-- White space and complete comments, given the text behind them. -/
inductive IsGap : List Char → List Char → Prop
  | nil (after : List Char) : IsGap [] after
  | blank {c : Char} {gap after : List Char} :
      Lexeme.isSpace c = true → IsGap gap after → IsGap (c :: gap) after
  | comment {text gap after : List Char} :
      IsComment text (gap ++ after) → IsGap gap after → IsGap (text ++ gap) after

theorem IsGap.blanks {blanks gap after : List Char}
    (hblanks : ∀ c ∈ blanks, Lexeme.isSpace c = true) (h : IsGap gap after) :
    IsGap (blanks ++ gap) after := by
  induction blanks with
  | nil => exact h
  | cons c cs ih =>
      rw [List.forall_mem_cons] at hblanks
      exact .blank hblanks.1 (ih hblanks.2)

/-! ### The next piece -/

theorem closedLength?_cons {c : Char} {cs : List Char} (h : c = '*' → cs.head? ≠ some '/') :
    closedLength? (c :: cs) = (closedLength? cs).map (· + 1) := by
  rw [closedLength?]
  rintro _ rfl rfl
  exact h rfl rfl

/-- A comment ends behind the first closing delimiter. -/
theorem closedLength?_of_not_infix {body : List Char} (stillOpen : ¬['*', '/'] <:+: body)
    (cs : List Char) : closedLength? (body ++ '*' :: '/' :: cs) = some (body.length + 2) := by
  induction body with
  | nil => rfl
  | cons c body ih =>
      rw [List.infix_cons_iff, not_or] at stillOpen
      have hopen : c = '*' → (body ++ '*' :: '/' :: cs).head? ≠ some '/' := by
        rintro rfl hslash
        cases body with
        | nil => simp at hslash
        | cons d body =>
            cases hslash
            exact stillOpen.1 ⟨body, rfl⟩
      rw [List.cons_append, closedLength?_cons hopen, ih stillOpen.2]
      simp [Nat.add_right_comm]

/-- A comment whose body has no slash ends behind it. -/
theorem closedLength?_append {body : List Char} (noSlash : '/' ∉ body) (cs : List Char) :
    closedLength? (body ++ '*' :: '/' :: cs) = some (body.length + 2) :=
  closedLength?_of_not_infix (fun h => noSlash (h.subset (by simp))) cs

theorem closedLength?_eq_some {cs : List Char} {n : Nat} (h : closedLength? cs = some n) :
    ∃ body after, cs = body ++ ['*', '/'] ++ after ∧ n = body.length + 2 ∧
      ¬['*', '/'] <:+: body := by
  fun_induction closedLength? cs generalizing n with
  | case1 => cases h
  | case2 cs =>
      cases h
      exact ⟨[], cs, rfl, rfl, by simp⟩
  | case3 c cs notClosed ih =>
      obtain ⟨m, hm, rfl⟩ := Option.map_eq_some_iff.mp h
      obtain ⟨body, after, rfl, rfl, hbody⟩ := ih hm
      refine ⟨c :: body, after, rfl, rfl, ?_⟩
      rw [List.infix_cons_iff]
      rintro (hbefore | hinfix)
      · obtain ⟨rest, hrest⟩ := hbefore
        cases hrest
        exact notClosed _ rfl rfl
      · exact hbody hinfix

theorem take_of_next_blanks {cs : List Char} {n : Nat} (h : next cs = .blanks n) :
    ∀ c ∈ cs.take n, Lexeme.isSpace c = true := by
  unfold next at h
  split at h
  · cases h
  · cases h
  · split at h <;> cases h
  · rename_i c cs _ _
    split at h
    case isFalse => cases h
    case isTrue hspace =>
      cases h
      rw [Nat.add_comm, List.take_succ_cons, Lexeme.take_runLength]
      rintro d (_ | ⟨_, hd⟩)
      · exact hspace
      · exact List.all_eq_true.mp List.all_takeWhile d hd

theorem isComment_of_next {cs : List Char} {block : Bool} {n : Nat}
    (h : next cs = .comment block n) : IsComment (cs.take n) (cs.drop n) := by
  unfold next at h
  split at h
  · cases h
  · rename_i cs
    cases h
    rw [Nat.add_comm, List.take_succ_cons, List.take_succ_cons, Lexeme.take_runLength]
    refine .line ?_ ?_
    · intro hmem
      simpa using List.all_eq_true.mp List.all_takeWhile _ hmem
    · rw [List.drop_succ_cons, List.drop_succ_cons, Lexeme.drop_runLength]
      intro c hc
      have hstop := List.head?_dropWhile_not (· != '\n') cs
      rw [Option.mem_def.mp hc] at hstop
      simpa using hstop
  · rename_i cs
    split at h
    case h_2 => cases h
    case h_1 m hm =>
      cases h
      obtain ⟨body, after, rfl, rfl, hbody⟩ := closedLength?_eq_some hm
      have hlength : 2 + (body.length + 2) = (body ++ ['*', '/']).length + 1 + 1 := by
        simp; omega
      rw [hlength, List.take_succ_cons, List.take_succ_cons, List.take_left]
      exact .block hbody
  · split at h <;> cases h

end Gap

/-! ### Cursors in a text -/

namespace Cursor

/-- The cursor stands in a source text: the position is the one that what was passed over leads
to. -/
def IsIn (source : List Char) (c : Cursor) : Prop :=
  ∃ before, source = before ++ c.rest ∧ c.position = Position.start.advance before

theorem isIn_start (source : List Char) : (Cursor.mk source .start).IsIn source :=
  ⟨[], rfl, rfl⟩

section

variable {source : List Char} {c : Cursor}

theorem IsIn.advance (h : c.IsIn source) (n : Nat) : (c.advance n).IsIn source := by
  obtain ⟨before, hsource, hposition⟩ := h
  refine ⟨before ++ c.rest.take n, ?_, ?_⟩
  · show source = before ++ c.rest.take n ++ c.rest.drop n
    rw [List.append_assoc, List.take_append_drop, hsource]
  · show c.position.advance (c.rest.take n) = _
    rw [Position.advance_append, hposition]

theorem IsIn.isExact (h : c.IsIn source) : c.position.IsExact source := by
  obtain ⟨before, rfl, hposition⟩ := h
  rw [hposition]
  exact Position.isExact_advance_start before c.rest

theorem IsIn.offset_add_length (h : c.IsIn source) :
    c.position.offset + c.rest.length = source.length := by
  obtain ⟨before, rfl, hposition⟩ := h
  rw [hposition, Position.advance_start, List.length_append]

theorem IsIn.between_eq (h : c.IsIn source) {text after : List Char}
    (hrest : c.rest = text ++ after) :
    between source c.position.offset (c.position.offset + text.length) = text := by
  obtain ⟨before, rfl, hposition⟩ := h
  rw [hposition, Position.advance_start, hrest]
  exact between_append before text after

theorem IsIn.drop_offset (h : c.IsIn source) : source.drop c.position.offset = c.rest := by
  obtain ⟨before, rfl, hposition⟩ := h
  rw [hposition, Position.advance_start, List.drop_left]

theorem offset_advance (c : Cursor) (n : Nat) :
    (c.advance n).position.offset = c.position.offset + (c.rest.take n).length :=
  Position.offset_advance _ _

theorem offset_le_advance (c : Cursor) (n : Nat) :
    c.position.offset ≤ (c.advance n).position.offset := by
  rw [offset_advance]
  omega

theorem IsIn.drop_length_take (h : c.IsIn source) (n : Nat) :
    source.drop (c.position.offset + (c.rest.take n).length) = (c.advance n).rest := by
  rw [← offset_advance, (h.advance n).drop_offset]

theorem IsIn.span_isExact (h : c.IsIn source) (file : String) (n : Nat) :
    (c.span file n).IsExact file source where
  file_eq := rfl
  start := h.isExact
  stop := (h.advance n).isExact
  forwards := offset_le_advance c n

theorem IsIn.text_span (h : c.IsIn source) (file : String) (n : Nat) :
    (c.span file n).text source = c.rest.take n := by
  show between source c.position.offset (c.advance n).position.offset = _
  rw [offset_advance]
  exact h.between_eq (List.take_append_drop n c.rest).symm

end

end Cursor

/-! ### Whole gaps -/

/-- The comment stands in a source text between two offsets, and has the text of its span. -/
structure Comment.LiesIn (file : String) (source : List Char) (n m : Nat) (c : Comment) :
    Prop where
  isExact : c.span.IsExact file source
  behind : n ≤ c.span.start.offset
  before : c.span.stop.offset ≤ m
  text_eq : c.text.toList = c.span.text source

theorem Comment.LiesIn.mono {file : String} {source : List Char} {n n' m : Nat} {c : Comment}
    (h : c.LiesIn file source n' m) (hn : n ≤ n') : c.LiesIn file source n m :=
  { h with behind := Nat.le_trans hn h.behind }

namespace Gap

/-- What reading a gap passes over. -/
structure Passes (file : String) (source : List Char) (c : Cursor) (pieces : List Piece)
    (after : Cursor) : Prop where
  isIn : after.IsIn source
  isGap : ∃ gap, c.rest = gap ++ after.rest ∧ IsGap gap after.rest
  comments : ∀ d, .comment d ∈ pieces →
    d.LiesIn file source c.position.offset after.position.offset

variable {file : String} {source : List Char} {c after : Cursor} {pieces : List Piece}

theorem Passes.offset_le (h : Passes file source c pieces after) (hc : c.IsIn source) :
    c.position.offset ≤ after.position.offset := by
  obtain ⟨gap, hrest, -⟩ := h.isGap
  have hfrom := hc.offset_add_length
  have hto := h.isIn.offset_add_length
  rw [hrest, List.length_append] at hfrom
  omega

theorem Passes.between_isGap (h : Passes file source c pieces after) (hc : c.IsIn source) :
    IsGap (between source c.position.offset after.position.offset)
      (source.drop after.position.offset) := by
  obtain ⟨gap, hrest, hgap⟩ := h.isGap
  have hfrom := hc.offset_add_length
  have hto := h.isIn.offset_add_length
  rw [hrest, List.length_append] at hfrom
  have hoffset : after.position.offset = c.position.offset + gap.length := by omega
  rw [h.isIn.drop_offset, hoffset, hc.between_eq hrest]
  exact hgap

/-- One more piece in front of a gap. -/
theorem Passes.cons {n : Nat} {p : Piece} (hc : c.IsIn source)
    (h : Passes file source (c.advance n) pieces after)
    (isGap : ∀ gap, (c.advance n).rest = gap ++ after.rest → IsGap gap after.rest →
      IsGap (c.rest.take n ++ gap) after.rest)
    (comments : ∀ d, .comment d = p →
      d.LiesIn file source c.position.offset (c.advance n).position.offset) :
    Passes file source c (p :: pieces) after where
  isIn := h.isIn
  isGap := by
    obtain ⟨gap, hrest, hgap⟩ := h.isGap
    refine ⟨c.rest.take n ++ gap, ?_, isGap gap hrest hgap⟩
    rw [List.append_assoc, ← hrest]
    exact (List.take_append_drop n c.rest).symm
  comments := by
    have hle := h.offset_le (hc.advance n)
    intro d hd
    rcases List.mem_cons.mp hd with heq | hd
    · have hlies := comments d heq
      exact { hlies with before := Nat.le_trans hlies.before hle }
    · exact (h.comments d hd).mono (Cursor.offset_le_advance c n)

theorem passes_of_read (hc : c.IsIn source) (h : read file c = .ok (pieces, after)) :
    Passes file source c pieces after := by
  fun_induction read file c generalizing pieces with
  | case1 =>
      cases h
      exact ⟨hc, ⟨[], rfl, .nil _⟩, by simp⟩
  | case2 => cases h
  | case3 c n hnext pieces' after' hread ih =>
      cases h
      refine (ih (hc.advance n) hread).cons hc ?_ (by simp)
      intro gap _ hgap
      exact hgap.blanks (take_of_next_blanks hnext)
  | case4 => cases h
  | case5 c block n hnext comment =>
      rename_i hread ih
      cases h
      refine (ih (hc.advance n) hread).cons hc ?_ ?_
      · intro gap hrest hgap
        refine .comment ?_ hgap
        rw [← hrest]
        exact isComment_of_next hnext
      · rintro d heq
        cases heq
        refine ⟨hc.span_isExact file n, Nat.le_refl _, Nat.le_refl _, ?_⟩
        rw [hc.text_span, String.toList_ofList]
  | case6 => cases h

/-- An unterminated comment is reported at its place. -/
theorem isExact_of_read_error {e : LexicalError} (hc : c.IsIn source)
    (h : read file c = .error e) :
    e.span.IsExact file source ∧ c.position.offset ≤ e.span.start.offset := by
  fun_induction read file c with
  | case1 => cases h
  | case2 c =>
      cases h
      exact ⟨hc.span_isExact file c.rest.length, Nat.le_refl _⟩
  | case3 => cases h
  | case4 c n hnext e' hread ih =>
      cases h
      obtain ⟨hexact, hle⟩ := ih (hc.advance n) hread
      exact ⟨hexact, Nat.le_trans (Cursor.offset_le_advance c n) hle⟩
  | case5 => cases h
  | case6 c block n hnext comment =>
      rename_i hread ih
      cases h
      obtain ⟨hexact, hle⟩ := ih (hc.advance n) hread
      exact ⟨hexact, Nat.le_trans (Cursor.offset_le_advance c n) hle⟩

end Gap

end Proto2

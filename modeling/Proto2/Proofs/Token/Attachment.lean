import Mathlib.Data.List.DropRight
import Proto2.Proofs.Token.Reached

/-!
Which comments belong to a token.

The gap before a token divides in one way only into complete comments and the runs of white space
between them.  A run with an empty line in it separates the comments before it from the token.  Of
the comments behind the last such run, those that start on the line where the token before the gap
ends belong to that line, and all others to the token.
-/

namespace Proto2

namespace Gap

/-- A run of white space at an offset of a text, which is as long as it can be. -/
structure IsRun (source : List Char) (n : Nat) (text : List Char) : Prop where
  some : text ≠ []
  starts : text <+: source.drop n
  isSpace : ∀ c ∈ text, Lexeme.isSpace c = true
  stops : ∀ c ∈ (source.drop (n + text.length)).head?, Lexeme.isSpace c = false

/-- A complete comment at an offset of a text, which is where its span says. -/
structure IsCommentAt (file : String) (source : List Char) (n : Nat) (c : Comment) : Prop where
  isExact : c.span.IsExact file source
  start : c.span.start.offset = n
  stop : c.span.stop.offset = n + c.text.toList.length
  starts : c.text.toList <+: source.drop n
  isComment : IsComment c.text.toList (source.drop (n + c.text.toList.length))
  block : c.block = true ↔ ['/', '*'] <+: c.text.toList

/-- The comments of a text between two offsets, and the runs of white space between them. -/
inductive Divides (file : String) (source : List Char) : Nat → List Piece → Nat → Prop
  | nil (n : Nat) : Divides file source n [] n
  | blanks {n m : Nat} {text : List Char} {pieces : List Piece} (run : IsRun source n text)
      (rest : Divides file source (n + text.length) pieces m) :
      Divides file source n (.blanks text :: pieces) m
  | comment {n m : Nat} {c : Comment} {pieces : List Piece}
      (comment : IsCommentAt file source n c)
      (rest : Divides file source (n + c.text.toList.length) pieces m) :
      Divides file source n (.comment c :: pieces) m

/-- White space with an empty line in it. -/
def Piece.isBreak : Piece → Bool
  | .blanks text => 2 ≤ text.count '\n'
  | .comment _ => false

/-- The comment that a piece is. -/
def Piece.comment? : Piece → Option Comment
  | .blanks _ => none
  | .comment c => some c

/-- The comments behind the last empty line of a gap. -/
def behindBreak (pieces : List Piece) : List Comment :=
  (pieces.rtakeWhile fun p => !p.isBreak).filterMap Piece.comment?

variable {file : String} {source : List Char} {n m : Nat}

/-! ### The pieces that are read -/

theorem not_isSpace_of_next_blanks {cs : List Char} (h : next cs = .blanks n) :
    ∀ c ∈ (cs.drop n).head?, Lexeme.isSpace c = false := by
  unfold next at h
  split at h
  · cases h
  · cases h
  · split at h <;> cases h
  · rename_i c cs _ _
    split at h <;> cases h
    rw [Nat.add_comm, List.drop_succ_cons, Lexeme.drop_runLength]
    intro d hd
    have hstop := List.head?_dropWhile_not Lexeme.isSpace cs
    rw [Option.mem_def.mp hd] at hstop
    simpa using hstop

theorem block_of_next {cs : List Char} {block : Bool} (h : next cs = .comment block n) :
    block = true ↔ ['/', '*'] <+: cs.take n := by
  unfold next at h
  split at h
  · cases h
  · cases h
    simp [Nat.add_comm 2, List.take_succ_cons]
  · split at h <;> cases h
    simp [Nat.add_comm 2, List.take_succ_cons]
  · split at h <;> cases h

theorem isRun_of_next {c : Cursor} (hc : c.IsIn source) (h : next c.rest = .blanks n) :
    IsRun source c.position.offset (c.rest.take n) where
  some := by
    obtain ⟨hpos, hsome⟩ := next_blanks_pos h
    exact List.length_pos_iff.mp (by rw [List.length_take]; omega)
  starts := by
    rw [hc.drop_offset]
    exact List.take_prefix n c.rest
  isSpace := take_of_next_blanks h
  stops := by
    rw [hc.drop_length_take]
    exact not_isSpace_of_next_blanks h

theorem isCommentAt_of_next {c : Cursor} (hc : c.IsIn source) {block : Bool}
    (h : next c.rest = .comment block n) :
    IsCommentAt file source c.position.offset
      ⟨block, String.ofList (c.rest.take n), c.span file n⟩ where
  isExact := hc.span_isExact file n
  start := rfl
  stop := by
    rw [String.toList_ofList]
    exact Cursor.offset_advance c n
  starts := by
    rw [String.toList_ofList, hc.drop_offset]
    exact List.take_prefix n c.rest
  isComment := by
    rw [String.toList_ofList, hc.drop_length_take]
    exact isComment_of_next h
  block := by
    rw [String.toList_ofList]
    exact block_of_next h

theorem divides_of_read {c after : Cursor} {pieces : List Piece} (hc : c.IsIn source)
    (h : read file c = .ok (pieces, after)) :
    Divides file source c.position.offset pieces after.position.offset := by
  fun_induction read file c generalizing pieces with
  | case1 c here =>
      cases h
      exact .nil _
  | case2 => cases h
  | case3 c n here pieces' after' hread ih =>
      cases h
      have hrest := ih (hc.advance n) hread
      rw [Cursor.offset_advance] at hrest
      exact .blanks (isRun_of_next hc here) hrest
  | case4 => cases h
  | case5 c block n here comment =>
      rename_i hread ih
      cases h
      have hrest := ih (hc.advance n) hread
      have htext : comment.text.toList = c.rest.take n := String.toList_ofList
      rw [Cursor.offset_advance, ← htext] at hrest
      exact .comment (isCommentAt_of_next hc here) hrest
  | case6 => cases h

/-! ### The only division -/

theorem drop_eq_append {text : List Char} (starts : text <+: source.drop n) :
    source.drop n = text ++ source.drop (n + text.length) := by
  obtain ⟨rest, hrest⟩ := starts
  rw [← List.drop_drop, ← hrest, List.drop_left]

theorem eq_of_prefix_of_length {l₁ l₂ l : List Char} (h₁ : l₁ <+: l) (h₂ : l₂ <+: l)
    (length : l₁.length = l₂.length) : l₁ = l₂ :=
  (List.prefix_of_prefix_length_le h₁ h₂ length.le).eq_of_length length

theorem IsRun.next_eq {text : List Char} (h : IsRun source n text) :
    next (source.drop n) = .blanks text.length := by
  rw [drop_eq_append h.starts]
  exact next_blanks h.some h.isSpace h.stops

theorem IsCommentAt.next_eq {c : Comment} (h : IsCommentAt file source n c) :
    ∃ block, next (source.drop n) = .comment block c.text.toList.length := by
  rw [drop_eq_append h.starts]
  exact next_of_isComment h.isComment

theorem IsRun.unique {text text' : List Char} (h : IsRun source n text)
    (h' : IsRun source n text') : text = text' :=
  eq_of_prefix_of_length h.starts h'.starts (Next.blanks.inj (h.next_eq.symm.trans h'.next_eq))

theorem IsCommentAt.unique {c c' : Comment} (h : IsCommentAt file source n c)
    (h' : IsCommentAt file source n c') : c = c' := by
  obtain ⟨_, hnext⟩ := h.next_eq
  obtain ⟨_, hnext'⟩ := h'.next_eq
  have hlength := (Next.comment.inj (hnext.symm.trans hnext')).2
  have htext := eq_of_prefix_of_length h.starts h'.starts hlength
  have hspan := h.isExact.eq_of_offsets h'.isExact (h.start.trans h'.start.symm)
    (by rw [h.stop, h'.stop, hlength])
  have hblock : c.block = c'.block := by rw [Bool.eq_iff_iff, h.block, h'.block, htext]
  cases c
  cases c'
  cases String.toList_injective htext
  cases hspan
  cases hblock
  rfl

theorem IsCommentAt.length_pos {c : Comment} (h : IsCommentAt file source n c) :
    0 < c.text.toList.length := by
  obtain ⟨_, hnext⟩ := h.next_eq
  exact (next_comment_pos hnext).1

theorem Divides.le {pieces : List Piece} (h : Divides file source n pieces m) : n ≤ m := by
  induction h with
  | nil => exact Nat.le_refl _
  | blanks _ _ ih => omega
  | comment _ _ ih => omega

/-- There is text between two offsets if there is a piece. -/
theorem Divides.lt {p : Piece} {pieces : List Piece} (h : Divides file source n (p :: pieces) m) :
    n < m := by
  cases h with
  | blanks run rest =>
      have hpos := List.length_pos_iff.mpr run.some
      have hle := rest.le
      omega
  | comment comment rest =>
      have hpos := comment.length_pos
      have hle := rest.le
      omega

/-- A gap divides in one way only. -/
theorem Divides.unique {pieces others : List Piece} (h : Divides file source n pieces m)
    (h' : Divides file source n others m) : pieces = others := by
  induction h generalizing others with
  | nil =>
      cases others with
      | nil => rfl
      | cons => exact absurd h'.lt (Nat.lt_irrefl _)
  | blanks run rest ih =>
      cases h' with
      | nil => exact absurd (Divides.blanks run rest).lt (Nat.lt_irrefl _)
      | blanks run' rest' =>
          obtain rfl := run.unique run'
          rw [ih rest']
      | comment comment' _ =>
          obtain ⟨_, hnext⟩ := comment'.next_eq
          cases run.next_eq.symm.trans hnext
  | comment comment rest ih =>
      cases h' with
      | nil => exact absurd (Divides.comment comment rest).lt (Nat.lt_irrefl _)
      | blanks run' _ =>
          obtain ⟨_, hnext⟩ := comment.next_eq
          cases run'.next_eq.symm.trans hnext
      | comment comment' rest' =>
          obtain rfl := comment.unique comment'
          rw [ih rest']

/-! ### The comments that are attached -/

/-- Reading a gap piece by piece leaves the comments behind the last empty line, without those on
the line before. -/
theorem attached_eq (lastLine : Nat) (pieces : List Piece) :
    attached lastLine pieces =
      (behindBreak pieces).filter fun c => c.span.start.line ≠ lastLine := by
  -- From the last piece back: an empty line clears what waits, and a comment is added behind it.
  induction pieces using List.reverseRecOn with
  | nil => rfl
  | append_singleton pieces p ih =>
      rw [attached, List.foldl_append, List.foldl_cons, List.foldl_nil, ← attached, ih, behindBreak,
        behindBreak, List.rtakeWhile_concat]
      cases p with
      | blanks text =>
          by_cases hbreak : 2 ≤ text.count '\n' <;>
            simp [attach, Piece.isBreak, Piece.comment?, hbreak]
      | comment c =>
          by_cases hline : c.span.start.line = lastLine <;>
            simp [attach, Piece.isBreak, Piece.comment?, hline]

theorem mem_of_mem_behindBreak {pieces : List Piece} {c : Comment} (h : c ∈ behindBreak pieces) :
    .comment c ∈ pieces := by
  obtain ⟨p, hp, hcomment⟩ := List.mem_filterMap.mp h
  have hmem := (List.rtakeWhile_suffix _ pieces).subset hp
  cases p with
  | blanks => cases hcomment
  | comment c' =>
      cases hcomment
      exact hmem

theorem Divides.isCommentAt {pieces : List Piece} (h : Divides file source n pieces m) {c : Comment}
    (mem : .comment c ∈ pieces) : ∃ k, IsCommentAt file source k c := by
  induction h with
  | nil => cases mem
  | blanks _ _ ih => exact ih (by simpa using mem)
  | comment comment _ ih =>
      rcases List.mem_cons.mp mem with heq | mem
      · cases heq
        exact ⟨_, comment⟩
      · exact ih mem

end Gap

theorem Token.endLine_eq (n : Nat) (ts : List Token) :
    endLine n ts = (ts.getLast?.map (·.span.stop.line)).getD n := by
  induction ts generalizing n with
  | nil => rfl
  | cons t ts ih =>
      rw [endLine, ih]
      cases hlast : ts.getLast? <;> simp [List.getLast?_cons, hlast]

/-- Lines are counted from one, so none of them is the line of a token that is not there. -/
theorem Token.line_eq_endLine_iff {line : Nat} (h : 0 < line) (ts : List Token) :
    line = endLine 0 ts ↔ ts.getLast?.map (·.span.stop.line) = some line := by
  rw [endLine_eq]
  cases ts.getLast? with
  | none => simp [Nat.ne_of_gt h]
  | some t => simp [eq_comm]

namespace Lexed

variable {file : String} {source : List Char}

/-- Only the last token can be the end of the input. -/
theorem inText_of_ofText {before after : List Token} {t : Token}
    (tokens : (ofText file source).tokens = before ++ t :: after) :
    ∀ u ∈ before, u.kind ≠ .endOfInput := by
  intro u hu
  obtain ⟨ts, hts, ⟨e, htokens, -, -⟩ | ⟨htokens, -⟩⟩ := wellFormed_ofText file source
  · have hinit : ts = before ++ (t :: after).dropLast := by
      rw [← List.dropLast_append_of_ne_nil (List.cons_ne_nil t after), ← tokens, htokens,
        List.dropLast_concat]
    exact (hts u (by simp [hinit, hu])).kind_ne_endOfInput
  · exact (hts u (by simp [← htokens, tokens, hu])).kind_ne_endOfInput

/-- The gap before each token divides into white space and comments; attached to the token are the
comments behind the last empty line, apart from those on the line where the token before ends. -/
theorem comments_ofText {before after : List Token} {t : Token}
    (tokens : (ofText file source).tokens = before ++ t :: after) :
    (∃ pieces,
      Gap.Divides file source (Token.endOffset 0 before) pieces t.span.start.offset) ∧
    ∀ pieces, Gap.Divides file source (Token.endOffset 0 before) pieces t.span.start.offset →
      t.comments = (Gap.behindBreak pieces).filter fun c =>
        before.getLast?.map (·.span.stop.line) ≠ some c.span.start.line := by
  obtain ⟨c, hc, hoffset, htokens, -⟩ :=
    exists_readFrom_append (Cursor.isIn_start source) tokens (inText_of_ofText tokens)
  obtain ⟨pieces, c', hread, hstart, hcomments, -⟩ := exists_of_readFrom_cons htokens
  have hdivides := Gap.divides_of_read hc hread
  rw [hoffset, ← hstart] at hdivides
  refine ⟨⟨pieces, hdivides⟩, fun others hothers => ?_⟩
  obtain rfl := hdivides.unique hothers
  rw [hcomments, Gap.attached_eq]
  -- The lexer counts lines from one and starts as if a token had ended on line zero.
  refine List.filter_congr fun d hd => ?_
  obtain ⟨k, hcomment⟩ := hdivides.isCommentAt (Gap.mem_of_mem_behindBreak hd)
  have hline : 0 < d.span.start.line := by
    rw [hcomment.isExact.start.line_eq]
    omega
  rw [decide_eq_decide, ne_eq, ne_eq, Token.line_eq_endLine_iff hline]

/-- A comment on the line of the token before, one in front of an empty line, and one behind it. -/
theorem comments_ofText_trailing :
    let source := "; // a\n// b\n\n// c\n;".toList
    (∃ pieces, Gap.Divides "f.proto" source 1 pieces 18) ∧
    ∀ pieces, Gap.Divides "f.proto" source 1 pieces 18 →
      [⟨false, "// c", ⟨"f.proto", ⟨13, 4, 1⟩, ⟨17, 4, 5⟩⟩⟩] =
        (Gap.behindBreak pieces).filter fun c => some 1 ≠ some c.span.start.line := by
  intro source
  have htokens : (ofText "f.proto" source).tokens =
      [⟨.semicolon, ";", ⟨"f.proto", ⟨0, 1, 1⟩, ⟨1, 1, 2⟩⟩, []⟩] ++
        ⟨.semicolon, ";", ⟨"f.proto", ⟨18, 5, 1⟩, ⟨19, 5, 2⟩⟩,
          [⟨false, "// c", ⟨"f.proto", ⟨13, 4, 1⟩, ⟨17, 4, 5⟩⟩⟩]⟩ ::
        [⟨.endOfInput, "", ⟨"f.proto", ⟨19, 5, 2⟩, ⟨19, 5, 2⟩⟩, []⟩] := by
    decide +kernel
  exact comments_ofText htokens

end Lexed

end Proto2

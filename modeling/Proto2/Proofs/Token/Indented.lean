import Mathlib.Logic.Function.Iterate
import Proto2.Proofs.Layout.Indent
import Proto2.Proofs.Token.Spelled

/-!
The tokens of an indented text.

Indentation puts spaces at the starts of lines.  No token and no line comment reaches over the end
of a line, so if no block comment does so either, the spaces come between those: in the middle of a
run of white space, behind a newline of it, or in front of whatever the text starts with.  Neither
the lines that tokens and comments stand on nor the empty lines between them change, and so each
token keeps the comments that belong to it.
-/

namespace Proto2

namespace Text

/-- At the start of a line, spaces come first; the rest is indented as within a line. -/
theorem exists_indentedFrom (b : Bool) (cs : List Char) :
    ∃ pad, (∀ c ∈ pad, Lexeme.isSpace c = true) ∧ pad.count '\n' = 0 ∧
      indentedFrom b cs = pad ++ indentedFrom false cs := by
  cases cs with
  | nil => exact ⟨[], nofun, rfl, rfl⟩
  | cons c cs =>
      by_cases hc : c = '\n'
      · subst hc
        exact ⟨[], nofun, rfl, by cases b <;> rfl⟩
      · refine ⟨if b then [' ', ' '] else [], ?_, ?_, ?_⟩
        · cases b <;> simp [Lexeme.isSpace]
        · cases b <;> rfl
        · rw [indentedFrom_cons hc, indentedFrom_cons hc]
          rfl

/-- A run of white space has as many newlines in the indented text. -/
theorem exists_indentedFrom_blanks (b : Bool) {blanks : List Char}
    (isSpace : ∀ c ∈ blanks, Lexeme.isSpace c = true) (cs : List Char) :
    ∃ blanks', (∀ c ∈ blanks', Lexeme.isSpace c = true) ∧ blanks.length ≤ blanks'.length ∧
      blanks'.count '\n' = blanks.count '\n' ∧
      indentedFrom b (blanks ++ cs) = blanks' ++ indentedFrom false cs := by
  induction blanks generalizing b with
  | nil =>
      obtain ⟨pad, hspace, hcount, heq⟩ := exists_indentedFrom b cs
      exact ⟨pad, hspace, Nat.zero_le _, hcount, heq⟩
  | cons c blanks ih =>
      rw [List.forall_mem_cons] at isSpace
      obtain ⟨pad, hpad, hnone, hfirst⟩ := exists_indentedFrom b (c :: (blanks ++ cs))
      obtain ⟨blanks', hspace, hlength, hcount, heq⟩ := ih (c = '\n') isSpace.2
      refine ⟨pad ++ c :: blanks', ?_, ?_, ?_, ?_⟩
      · exact List.forall_mem_append.mpr ⟨hpad, List.forall_mem_cons.mpr ⟨isSpace.1, hspace⟩⟩
      · rw [List.length_append, List.length_cons, List.length_cons]
        omega
      · rw [List.count_append, hnone, Nat.zero_add, List.count_cons, List.count_cons, hcount]
      · rw [List.cons_append, hfirst, indentedFrom_false_cons, heq, List.append_assoc,
          List.cons_append]

end Text

namespace Lexeme

/-- A token is the same in the indented text, since what is indented stands behind its line. -/
theorem scan_indentedFrom {c : Char} (hc : c ≠ '\n') (cs : List Char) :
    scan c (Text.indentedFrom false cs) = scan c cs := by
  by_cases ends : '\n' ∈ cs
  · obtain ⟨l, r, rfl, oneLine⟩ := List.eq_append_cons_of_mem ends
    rw [Text.indentedFrom_append oneLine]
    exact scan_append_newline hc l _ _
  · rw [← List.append_nil cs, Text.indentedFrom_append ends]
    rfl

end Lexeme

/-! ### Places -/

namespace Cursor

/-- The second place is the first one in the indented text, given whether it starts a line. -/
structure Indents (b : Bool) (c d : Cursor) : Prop where
  rest : d.rest = Text.indentedFrom b c.rest
  line : c.position.line = d.position.line

/-- White space leads from the one place to the other. -/
structure Skips (blanks : List Char) (c d : Cursor) : Prop where
  isSpace : ∀ ch ∈ blanks, Lexeme.isSpace ch = true
  rest : c.rest = blanks ++ d.rest
  position : d.position = c.position.advance blanks

theorem Skips.eq_of_nil {c d : Cursor} (h : Skips [] c d) : c = d := by
  obtain ⟨-, hrest, hposition⟩ := h
  cases c
  cases d
  cases hrest
  cases hposition
  rfl

namespace Indents

variable {b : Bool} {c d : Cursor}

theorem head? (h : c.Indents false d) : d.rest.head? = c.rest.head? := by
  rw [h.rest, Text.head?_indentedFrom]

theorem take (h : c.Indents false d) {n : Nat} (oneLine : '\n' ∉ c.rest.take n) :
    d.rest.take n = c.rest.take n := by
  rw [h.rest, (Text.take_drop_indentedFrom oneLine).1]

theorem advance (h : c.Indents false d) {n : Nat} (oneLine : '\n' ∉ c.rest.take n) :
    (c.advance n).Indents false (d.advance n) := by
  constructor
  · rw [Cursor.advance, Cursor.advance, h.rest, (Text.take_drop_indentedFrom oneLine).2]
  · rw [Cursor.advance, Cursor.advance, h.take oneLine, Position.line_advance oneLine,
      Position.line_advance oneLine, h.line]

/-- Behind white space, the places correspond as they do within a line. -/
theorem exists_skips (h : c.Indents b d) (n : Nat)
    (isSpace : ∀ ch ∈ c.rest.take n, Lexeme.isSpace ch = true) :
    ∃ blanks d', d.Skips blanks d' ∧ (c.rest.take n).length ≤ blanks.length ∧
      blanks.count '\n' = (c.rest.take n).count '\n' ∧ (c.advance n).Indents false d' := by
  obtain ⟨blanks, hspace, hlength, hcount, heq⟩ :=
    Text.exists_indentedFrom_blanks b isSpace (c.rest.drop n)
  rw [List.take_append_drop, ← h.rest] at heq
  refine ⟨blanks, ⟨Text.indentedFrom false (c.rest.drop n), d.position.advance blanks⟩,
    ⟨hspace, heq, rfl⟩, hlength, hcount, rfl, ?_⟩
  rw [Cursor.advance, Position.line_advance_eq, Position.line_advance_eq, hcount, h.line]

end Indents

end Cursor

/-! ### Gaps -/

namespace Gap

/-- The comments among the pieces stand on one line each. -/
def IsFlat (pieces : List Piece) : Prop :=
  ∀ c, .comment c ∈ pieces → '\n' ∉ c.text.toList

theorem IsFlat.of_cons {p : Piece} {pieces : List Piece} (h : IsFlat (p :: pieces)) :
    IsFlat pieces :=
  fun c hc => h c (List.mem_cons_of_mem p hc)

/-- The pieces of a gap, and those of the same gap in the indented text: runs of white space may be
longer, and there may be one more of them on a line. -/
inductive Indents : List Piece → List Piece → Prop
  | nil : Indents [] []
  | spaces {b : List Char} {ps qs : List Piece} (newlines : b.count '\n' = 0)
      (rest : Indents ps qs) : Indents ps (.blanks b :: qs)
  | blanks {b b' : List Char} {ps qs : List Piece} (newlines : b'.count '\n' = b.count '\n')
      (rest : Indents ps qs) : Indents (.blanks b :: ps) (.blanks b' :: qs)
  | comment {c d : Comment} {ps qs : List Piece} (block : c.block = d.block)
      (text : c.text = d.text) (line : c.span.start.line = d.span.start.line)
      (rest : Indents ps qs) : Indents (.comment c :: ps) (.comment d :: qs)

namespace Indents

variable {ps qs : List Piece}

/-- The comments of both gaps have the same texts, so they stand on one line each in both. -/
theorem isFlat (h : Indents ps qs) (flat : IsFlat ps) : IsFlat qs := by
  induction h with
  | nil => exact flat
  | spaces _ _ ih => exact fun d hd => ih flat d (by simpa using hd)
  | blanks _ _ ih => exact fun d hd => ih flat.of_cons d (by simpa using hd)
  | @comment c d _ _ block text _ _ ih =>
      intro d' hd'
      rcases List.mem_cons.mp hd' with heq | hd'
      · cases heq
        rw [← text]
        exact flat c List.mem_cons_self
      · exact ih flat.of_cons d' hd'

/-- The same comments are left to the token behind the gap. -/
theorem map_foldl_attach (h : Indents ps qs) (lastLine : Nat) {ws ws' : List Comment}
    (alike : ws.map (fun c => (c.block, c.text)) = ws'.map fun c => (c.block, c.text)) :
    (ps.foldl (attach lastLine) ws).map (fun c => (c.block, c.text)) =
      (qs.foldl (attach lastLine) ws').map fun c => (c.block, c.text) := by
  induction h generalizing ws ws' with
  | nil => exact alike
  | @spaces b _ _ newlines _ ih =>
      have hkept : attach lastLine ws' (.blanks b) = ws' := by
        rw [attach, newlines, if_neg (by decide)]
      rw [List.foldl_cons, hkept]
      exact ih alike
  | blanks newlines _ ih => exact ih (attach_blanks_alike alike newlines)
  | comment block text line _ ih =>
      exact ih (attach_alike lastLine alike (congrArg₂ Prod.mk block text) line)

end Indents

/-! ### Reading gaps -/

theorem next_indentedFrom_of_done {cs : List Char} (h : next cs = .done) :
    next (Text.indentedFrom false cs) = .done := by
  cases cs with
  | nil => rfl
  | cons c cs =>
      rw [Text.indentedFrom_cons (ne_newline_of_done h)]
      exact next_eq_done_of_head? h (Text.head?_indentedFrom cs)

/-- A comment on one line is the same in the indented text. -/
theorem next_indentedFrom_of_comment {cs : List Char} {block : Bool} {n : Nat}
    (h : next cs = .comment block n) (oneLine : '\n' ∉ cs.take n) :
    next (Text.indentedFrom false cs) = .comment block n := by
  have hnext := next_take_append_of_comment h (Text.head?_indentedFrom (cs.drop n))
  rwa [← Text.indentedFrom_append oneLine, List.take_append_drop] at hnext

theorem not_isSpace_of_next {cs : List Char} (h : ∀ n, next cs ≠ .blanks n) :
    ∀ c ∈ cs.head?, Lexeme.isSpace c = false := by
  cases cs with
  | nil => nofun
  | cons c cs =>
      rintro _ ⟨⟩
      by_contra hspace
      exact h _ (next_of_isSpace (by simpa using hspace) cs)

variable {file : String} {c d after : Cursor} {ps qs : List Piece}

theorem read_of_skips {blanks : List Char} (skips : c.Skips blanks d) (some : blanks ≠ [])
    (stops : ∀ ch ∈ d.rest.head?, Lexeme.isSpace ch = false)
    (hread : read file d = .ok (qs, after)) :
    read file c = .ok (.blanks blanks :: qs, after) := by
  obtain ⟨cs, p⟩ := c
  obtain ⟨ds, p'⟩ := d
  obtain ⟨hspace, hrest, hposition⟩ := skips
  dsimp only at hrest hposition stops
  subst hrest hposition
  rw [read_of_next_blanks (next_blanks some hspace stops), advance_append, hread, List.take_left]
  rfl

/-- Where no white space stands, the spaces that indent a line come before what does. -/
theorem exists_behind_spaces {b : Bool} (indents : c.Indents b d)
    (stops : ∀ n, next c.rest ≠ .blanks n) :
    ∃ d', c.Indents false d' ∧ ∀ {ps qs : List Piece} {after : Cursor},
      read file d' = .ok (qs, after) → Indents ps qs →
        ∃ qs', read file d = .ok (qs', after) ∧ Indents ps qs' := by
  obtain ⟨blanks, d', hskips, -, hcount, hplace⟩ := indents.exists_skips 0 (by simp)
  refine ⟨d', hplace, fun {ps qs after} hread hpieces => ?_⟩
  rcases eq_or_ne blanks [] with rfl | some
  · rw [hskips.eq_of_nil]
    exact ⟨qs, hread, hpieces⟩
  · have hstop : ∀ ch ∈ d'.rest.head?, Lexeme.isSpace ch = false := by
      rw [hplace.head?]
      exact not_isSpace_of_next stops
    exact ⟨_, read_of_skips hskips some hstop hread, .spaces hcount hpieces⟩

/-- A gap whose comments stand on one line each is the same in the indented text, but for spaces. -/
theorem exists_read_indents (h : read file c = .ok (ps, after)) (flat : IsFlat ps) {b : Bool}
    (indents : c.Indents b d) :
    ∃ qs after', read file d = .ok (qs, after') ∧ Indents ps qs ∧ after.Indents false after' := by
  -- Along the pieces.  The indentation of a line is part of the run of white space that comes next,
  -- or of no run: then it comes first in the text, and is a piece of its own.
  fun_induction read file c generalizing ps b d with
  | case1 c here =>
      cases h
      obtain ⟨d', hplace, hread⟩ := exists_behind_spaces indents (by simp [here])
      have hdone : next d'.rest = .done := by
        rw [hplace.rest]
        exact next_indentedFrom_of_done here
      obtain ⟨qs, hqs, hpieces⟩ := hread (read_of_next_done hdone) .nil
      exact ⟨qs, d', hqs, hpieces, hplace⟩
  | case2 => cases h
  | case3 c n here ps' after read_ok ih =>
      cases h
      obtain ⟨blanks, d', hskips, hlength, hcount, hplace⟩ :=
        indents.exists_skips n (take_of_next_blanks here)
      obtain ⟨qs, after', hread, hpieces, hafter⟩ := ih read_ok flat.of_cons hplace
      have hsome : blanks ≠ [] := by
        obtain ⟨hpos, hrest⟩ := next_blanks_pos here
        rw [List.length_take] at hlength
        exact List.length_pos_iff.mp (by omega)
      have hstop : ∀ ch ∈ d'.rest.head?, Lexeme.isSpace ch = false := by
        rw [hplace.head?]
        exact not_isSpace_of_next_blanks here
      exact ⟨_, after', read_of_skips hskips hsome hstop hread, .blanks hcount hpieces, hafter⟩
  | case4 => cases h
  | case5 c block n here comment =>
      rename_i read_ok ih
      cases h
      have oneLine : '\n' ∉ c.rest.take n := by
        simpa [comment] using flat comment List.mem_cons_self
      obtain ⟨d', hplace, hread⟩ := exists_behind_spaces indents (by simp [here])
      have hnext : next d'.rest = .comment block n := by
        rw [hplace.rest]
        exact next_indentedFrom_of_comment here oneLine
      obtain ⟨qs, after', hbehind, hpieces, hafter⟩ :=
        ih read_ok flat.of_cons (hplace.advance oneLine)
      have hcomment : read file d' =
          .ok (.comment ⟨block, String.ofList (d'.rest.take n), d'.span file n⟩ :: qs, after') := by
        rw [read_of_next_comment hnext, hbehind]
        rfl
      have hindents : Indents (.comment comment :: _)
          (.comment ⟨block, String.ofList (d'.rest.take n), d'.span file n⟩ :: qs) :=
        .comment rfl (congrArg String.ofList (hplace.take oneLine).symm) hplace.line hpieces
      obtain ⟨qs', hqs, hpieces'⟩ := hread hcomment hindents
      exact ⟨qs', after', hqs, hpieces', hafter⟩
  | case6 => cases h

end Gap

/-! ### Texts -/

namespace Lexed

variable {file : String} {source : List Char}

/-- From a place on, a text is read to its end as the tokens, and the comments in it stand on one
line each. -/
inductive ReadsFlat (file : String) : Nat → Cursor → List Token → Prop
  | ended {lastLine : Nat} {c c' : Cursor} {pieces : List Gap.Piece}
      (gap : Gap.read file c = .ok (pieces, c')) (flat : Gap.IsFlat pieces) (rest : c'.rest = []) :
      ReadsFlat file lastLine c
        [⟨.endOfInput, "", c'.span file 0, Gap.attached lastLine pieces⟩]
  | token {lastLine : Nat} {c c' : Cursor} {pieces : List Gap.Piece} {ch : Char} {cs : List Char}
      {s : Lexeme.Scanned} {ts : List Token} (gap : Gap.read file c = .ok (pieces, c'))
      (flat : Gap.IsFlat pieces) (rest : c'.rest = ch :: cs) (scan : Lexeme.scan ch cs = .ok s)
      (more : ReadsFlat file (c'.advance s.length).position.line (c'.advance s.length) ts) :
      ReadsFlat file lastLine c
        (⟨s.kind, String.ofList s.lexeme, c'.span file s.length, Gap.attached lastLine pieces⟩ ::
          ts)

namespace ReadsFlat

variable {lastLine : Nat} {c d : Cursor} {ts : List Token}

theorem readFrom_eq (h : ReadsFlat file lastLine c ts) : readFrom file lastLine c = ⟨ts, none⟩ := by
  induction h with
  | ended gap _ rest =>
      rw [readFrom_of_read gap, readAt, rest]
  | @token _ _ c' _ _ _ _ _ gap _ rest scan _ ih =>
      obtain ⟨cs', p⟩ := c'
      dsimp only at rest
      subst rest
      rw [readFrom_of_read gap, readAt_of_scan scan, ← readFrom_eq_resume, ih]
      rfl

/-- The indented text is read as the same tokens with the same comments, and its comments stand on
one line each as well. -/
theorem indents (h : ReadsFlat file lastLine c ts) {b : Bool} (indents : c.Indents b d) :
    ∃ us, ReadsFlat file lastLine d us ∧ us.map Token.written = ts.map Token.written := by
  -- By the reading of the text, a gap and a token at a time.  Only the first gap may start a line.
  induction h generalizing b d with
  | @ended lastLine _ _ pieces gap flat rest =>
      obtain ⟨qs, d', hgap, hpieces, hplace⟩ := Gap.exists_read_indents gap flat indents
      have hrest : d'.rest = [] := by
        rw [hplace.rest, rest]
        rfl
      have hcomments := hpieces.map_foldl_attach lastLine (rfl : [].map _ = [].map _)
      refine ⟨_, .ended hgap (hpieces.isFlat flat) hrest, ?_⟩
      simp [Token.written, Gap.attached, hcomments]
  | @token lastLine _ c' pieces ch cs s ts gap flat rest scan more ih =>
      obtain ⟨qs, d', hgap, hpieces, hplace⟩ := Gap.exists_read_indents gap flat indents
      have hch : ch ≠ '\n' := by
        have hdone := Gap.next_of_read gap
        rw [rest] at hdone
        exact Gap.ne_newline_of_done hdone
      have hrest : d'.rest = ch :: Text.indentedFrom false cs := by
        rw [hplace.rest, rest, Text.indentedFrom_cons hch]
        rfl
      have hscan : Lexeme.scan ch (Text.indentedFrom false cs) = .ok s := by
        rw [Lexeme.scan_indentedFrom hch, scan]
      have oneLine : '\n' ∉ c'.rest.take s.length := by
        rw [rest]
        exact Lexeme.not_newline_of_scan scan hch
      have hbehind := hplace.advance oneLine
      obtain ⟨us, hmore, husame⟩ := ih hbehind
      rw [hbehind.line] at hmore
      have hcomments := hpieces.map_foldl_attach lastLine (rfl : [].map _ = [].map _)
      refine ⟨_, .token hgap (hpieces.isFlat flat) hrest hscan hmore, ?_⟩
      simp [Token.written, Gap.attached, hcomments, husame]

end ReadsFlat

/-- The comment stands before one of the tokens of a text, whether that token takes it or not. -/
def HasComment (file : String) (source : List Char) (c : Comment) : Prop :=
  ∃ before t after pieces, (ofText file source).tokens = before ++ t :: after ∧
    Gap.Divides file source (Token.endOffset 0 before) pieces t.span.start.offset ∧
    .comment c ∈ pieces

section

variable (flat : ∀ c, HasComment file source c → c.block = true → '\n' ∉ c.text.toList)

include flat

theorem isFlat_of_read {c c' : Cursor} {pieces : List Gap.Piece} {before after : List Token}
    {t : Token} (hc : c.IsIn source) (offset : c.position.offset = Token.endOffset 0 before)
    (gap : Gap.read file c = .ok (pieces, c')) (start : t.span.start = c'.position)
    (tokens : (ofText file source).tokens = before ++ t :: after) : Gap.IsFlat pieces := by
  intro d hd
  have hdivides := Gap.divides_of_read hc gap
  rw [offset, ← start] at hdivides
  cases hblock : d.block with
  | true => exact flat d ⟨before, t, after, pieces, tokens, hdivides, hd⟩ hblock
  | false => exact Gap.isLexed_of_read gap d hd hblock

/-- If the block comments of a text stand on one line each, all its comments do. -/
theorem readsFlat_readFrom {lastLine : Nat} {c : Cursor} (hc : c.IsIn source)
    (before : List Token) (offset : c.position.offset = Token.endOffset 0 before)
    (tokens : (ofText file source).tokens = before ++ (readFrom file lastLine c).tokens)
    (reads : (readFrom file lastLine c).failure = none) :
    ReadsFlat file lastLine c (readFrom file lastLine c).tokens := by
  fun_induction readFrom file lastLine c generalizing before with
  | case1 => cases reads
  | case2 lastLine c pieces c' hgap comments hrest =>
      exact .ended hgap (isFlat_of_read flat hc offset hgap rfl tokens) hrest
  | case3 => cases reads
  | case4 lastLine c pieces c' hgap comments ch cs hrest s hscan after ih =>
      have hin := (Gap.passes_of_read hc hgap).isIn
      refine .token hgap (isFlat_of_read flat hc offset hgap rfl tokens) hrest hscan
        (ih (hin.advance s.length)
          (before ++ [⟨s.kind, String.ofList s.lexeme, c'.span file s.length, comments⟩]) ?_ ?_
          reads)
      · rw [Token.endOffset_concat]
        rfl
      · rw [tokens, List.append_assoc]
        rfl

end

/-- However often a text is indented, it is read as the same tokens with the same comments. -/
theorem ReadsFlat.indent_iterate {ts : List Token} (h : ReadsFlat file 0 ⟨source, .start⟩ ts)
    (depth : Nat) :
    ∃ us, ReadsFlat file 0 ⟨Text.indent^[depth] source, .start⟩ us ∧
      us.map Token.written = ts.map Token.written := by
  induction depth with
  | zero => exact ⟨ts, h, rfl⟩
  | succ depth ih =>
      obtain ⟨us, hus, hwritten⟩ := ih
      have hindents : Cursor.Indents true ⟨Text.indent^[depth] source, .start⟩
          ⟨Text.indent^[depth + 1] source, .start⟩ := by
        refine ⟨?_, rfl⟩
        rw [Function.iterate_succ_apply', Text.indent_eq]
      obtain ⟨vs, hvs, hwritten'⟩ := hus.indents hindents
      exact ⟨vs, hvs, hwritten'.trans hwritten⟩

/-- Indentation, be it of any depth, does not show in the tokens of a text.  If the text is read to
its end and no block comment in it reaches over the end of a line, the indented text is read to its
end as well, and its tokens have the same kinds, lexemes and comments. -/
theorem written_ofText_indent (file : String) {source : List Char}
    (reads : (ofText file source).failure = none)
    (flat : ∀ c, HasComment file source c → c.block = true → '\n' ∉ c.text.toList)
    (depth : Nat) :
    (ofText file (Text.indent^[depth] source)).failure = none ∧
      (ofText file (Text.indent^[depth] source)).tokens.map Token.written =
        (ofText file source).tokens.map Token.written := by
  have hreads : ReadsFlat file 0 ⟨source, .start⟩ (ofText file source).tokens :=
    readsFlat_readFrom flat (Cursor.isIn_start source) [] rfl rfl reads
  obtain ⟨us, hus, hwritten⟩ := hreads.indent_iterate depth
  have hofText : ofText file (Text.indent^[depth] source) = ⟨us, none⟩ := hus.readFrom_eq
  rw [hofText]
  exact ⟨rfl, hwritten⟩

/-- A block comment in front of the first token, a comment on the line of a token, one below an
empty line, and one at the end. -/
theorem written_ofText_indent_commented :
    let source := "/* a */ message M \x7b // b\n\n// c\nx \"\\\" y\"; \x7d\n// d".toList
    ((ofText "f.proto" source).failure = none ∧
      ∀ c, HasComment "f.proto" source c → c.block = true → '\n' ∉ c.text.toList) ∧
    (ofText "f.proto" (Text.indent^[2] source)).failure = none ∧
      (ofText "f.proto" (Text.indent^[2] source)).tokens.map Token.written =
        [⟨.identifier, "message".toList, [(true, "/* a */")]⟩, ⟨.identifier, "M".toList, []⟩,
          ⟨.openBrace, ['\x7b'], []⟩, ⟨.identifier, ['x'], [(false, "// c")]⟩,
          ⟨.string, "\\\" y".toList, []⟩, ⟨.semicolon, [';'], []⟩, ⟨.closeBrace, ['\x7d'], []⟩,
          ⟨.endOfInput, [], [(false, "// d")]⟩] := by
  intro source
  have honly : ∀ k < source.length, ['/', '*'] <+: source.drop k → k = 0 := by decide +kernel
  have hnext : Gap.next source = .comment true 7 := by decide +kernel
  have flat : ∀ c, HasComment "f.proto" source c → c.block = true → '\n' ∉ c.text.toList := by
    rintro c ⟨before, t, after, pieces, -, hdivides, hmem⟩ hblock
    obtain ⟨k, hcomment⟩ := hdivides.isCommentAt hmem
    have hopens : ['/', '*'] <+: source.drop k :=
      (hcomment.block.mp hblock).trans hcomment.starts
    have hk : k < source.length := by
      by_contra hle
      rw [List.drop_of_length_le (Nat.le_of_not_lt hle)] at hopens
      simp at hopens
    obtain rfl := honly k hk hopens
    obtain ⟨_, hnext'⟩ := hcomment.next_eq
    have hlength := (Gap.Next.comment.inj (hnext.symm.trans hnext')).2
    rw [List.prefix_iff_eq_take.mp hcomment.starts, ← hlength]
    decide +kernel
  have hreads : (ofText "f.proto" source).failure = none := by decide +kernel
  obtain ⟨hfailure, hwritten⟩ := written_ofText_indent "f.proto" hreads flat 2
  refine ⟨⟨hreads, flat⟩, hfailure, hwritten.trans ?_⟩
  decide +kernel

/-- Within a block comment, the spaces are seen. -/
example :
    let source := "/* a\nb */ x".toList
    (ofText "f.proto" source).tokens.head?.map Token.written ≠
      (ofText "f.proto" (Text.indent source)).tokens.head?.map Token.written := by
  decide +kernel

end Lexed

end Proto2

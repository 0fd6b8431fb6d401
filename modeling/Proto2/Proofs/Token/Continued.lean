import Proto2.Proofs.Token.Attachment
import Proto2.Proofs.Token.LineEndings

/-!
How lexing goes on behind a text.

No token reaches over the end of a line, and no comment takes the end of its line with it.  So a
text that ends its last line is read the same whatever stands behind it, and lexing goes on from the
blanks at its end.  What a pen writes without tokens leads on in the same way.
-/

namespace Proto2

namespace Text

/-- The last line of the text has its end. -/
def EndsLine (cs : List Char) : Prop :=
  cs.getLast? = some '\n'

namespace EndsLine

variable {cs : List Char} (h : EndsLine cs)

include h

theorem mem : '\n' ∈ cs :=
  List.mem_of_getLast? h

theorem drop {n : Nat} (hn : n < cs.length) : EndsLine (cs.drop n) := by
  unfold EndsLine
  rw [List.getLast?_drop, if_neg (Nat.not_le_of_lt hn)]
  exact h

/-- What has no newline in it stops before the end. -/
theorem lt_length {n : Nat} (oneLine : '\n' ∉ cs.take n) : n < cs.length := by
  by_contra hle
  rw [List.take_of_length_le (Nat.le_of_not_lt hle)] at oneLine
  exact oneLine h.mem

end EndsLine

end Text

/-! ### Lexemes -/

namespace Lexeme

/-- A string literal is not read past the end of its line. -/
theorem quotation_append_newline {quote : Char} (hn : quote ≠ '\n') (l r r' : List Char) :
    quotation quote (l ++ '\n' :: r) = quotation quote (l ++ '\n' :: r') := by
  fun_induction quotation quote l with
  | case1 => rw [List.nil_append, List.nil_append, quotation_newline hn, quotation_newline hn]
  | case2 => rfl
  | case3 cs => simp [quotation]
  | case4 c cs hc ih =>
      rw [List.cons_append, List.cons_append, List.cons_append, List.cons_append, quotation,
        quotation, if_neg hc, if_neg hc, ih]
  | case5 cs lone pair =>
      rw [List.cons_append, List.cons_append, quotation_cons (ne_backslash lone pair),
        quotation_cons (ne_backslash lone pair), if_pos rfl, if_pos rfl]
  | case6 cs =>
      rw [List.cons_append, List.cons_append, quotation_newline hn, quotation_newline hn]
  | case7 c cs lone pair hquote hnewline ih =>
      rw [List.cons_append, List.cons_append, quotation_cons (ne_backslash lone pair),
        quotation_cons (ne_backslash lone pair), if_neg hquote, if_neg hquote, if_neg hnewline,
        if_neg hnewline, ih]

theorem plain?_append_newline (c : Char) (l r : List Char) :
    plain? (c :: (l ++ '\n' :: r)) = plain? (c :: l) := by
  have hblank : ∀ d ∈ ('\n' :: r).head?, isSpace d = true := by
    rintro _ ⟨⟩
    rfl
  exact plain?_append_blank hblank (List.cons_ne_nil c l)

/-- A token is read the same whatever stands behind its line. -/
theorem scan_append_newline {c : Char} (hc : c ≠ '\n') (l r r' : List Char) :
    scan c (l ++ '\n' :: r) = scan c (l ++ '\n' :: r') := by
  unfold scan
  by_cases hquote : c = '"' ∨ c = '\''
  · rw [if_pos hquote, if_pos hquote, quotation_append_newline hc l r r']
  · rw [if_neg hquote, if_neg hquote, plain?_append_newline, plain?_append_newline]
    cases hplain : plain? (c :: l) with
    | none => rfl
    | some found =>
        obtain ⟨kind, n⟩ := found
        have htake (r : List Char) : (c :: (l ++ '\n' :: r)).take n = (c :: l).take n := by
          rw [← List.cons_append, List.take_append_of_le_length (plain?_le hplain)]
        dsimp only
        rw [htake, htake]

/-- A token stands within its line. -/
theorem not_newline_of_scan {c : Char} {cs : List Char} {s : Scanned} (h : scan c cs = .ok s)
    (hc : c ≠ '\n') : '\n' ∉ (c :: cs).take s.length := by
  obtain ⟨s', hs', -, oneLine⟩ | ⟨e, -, he, -⟩ := scan_crlf hc cs
  · obtain rfl : s = s' := Except.ok.inj (h.symm.trans hs')
    exact oneLine
  · rw [h] at he
    cases he

theorem scan_append {c : Char} {cs : List Char} {s : Scanned} (h : scan c cs = .ok s)
    (hc : c ≠ '\n') (ends : '\n' ∈ cs) (ds : List Char) : scan c (cs ++ ds) = .ok s := by
  obtain ⟨l, r, rfl⟩ := List.append_of_mem ends
  rw [List.append_assoc, List.cons_append, scan_append_newline hc l (r ++ ds) r, h]

end Lexeme

/-! ### Pieces of gaps -/

namespace Gap

variable {cs : List Char} {n : Nat}

/-- Whether a gap goes on at a character is settled by the one behind it. -/
theorem next_eq_done_of_head? {c : Char} {cs ds : List Char} (h : next (c :: cs) = .done)
    (head : ds.head? = cs.head?) : next (c :: ds) = .done := by
  rw [next_eq_done_iff] at h ⊢
  cases cs <;> cases ds <;> simp at h head ⊢
  · exact h
  · rw [head]
    exact h

theorem next_append_of_done {c : Char} (h : next (c :: cs) = .done) (some : cs ≠ [])
    (ds : List Char) : next (c :: (cs ++ ds)) = .done :=
  next_eq_done_of_head? h (List.head?_append_of_ne_nil cs some)

theorem next_append_of_blanks (h : next cs = .blanks n) (hn : n < cs.length) (ds : List Char) :
    next (cs ++ ds) = .blanks n := by
  have hlength : (cs.take n).length = n := List.length_take_of_le (Nat.le_of_lt hn)
  have hsome : cs.drop n ≠ [] := by
    rw [Ne, List.drop_eq_nil_iff]
    omega
  have hstop : ∀ c ∈ (cs.drop n ++ ds).head?, Lexeme.isSpace c = false := by
    rw [List.head?_append_of_ne_nil _ hsome]
    exact not_isSpace_of_next_blanks h
  have hfirst : cs.take n ≠ [] := by
    have := (next_blanks_pos h).1
    rw [← List.length_pos_iff, hlength]
    exact this
  have hnext := next_blanks hfirst (take_of_next_blanks h) hstop
  rwa [← List.append_assoc, List.take_append_drop, hlength] at hnext

/-- A comment does not take the end of its line with it. -/
theorem IsComment.not_endsLine {text after : List Char} (h : IsComment text after) :
    ¬Text.EndsLine text := by
  intro ends
  cases h with
  | line oneLine stops => exact oneLine (by simpa using ends.mem)
  | @block body _ notClosed =>
      have htext : '/' :: '*' :: (body ++ ['*', '/']) = '/' :: '*' :: body ++ ['*'] ++ ['/'] := by
        simp
      rw [htext, Text.EndsLine, List.getLast?_concat] at ends
      cases ends

theorem IsComment.of_head? {text after after' : List Char} (h : IsComment text after)
    (head : after'.head? = after.head?) : IsComment text after' := by
  cases h with
  | line oneLine stops => exact .line oneLine (head ▸ stops)
  | block notClosed => exact .block notClosed

/-- Where a comment ends is settled by the character behind it. -/
theorem next_take_append_of_comment {block : Bool} (h : next cs = .comment block n)
    {after : List Char} (head : after.head? = (cs.drop n).head?) :
    next (cs.take n ++ after) = .comment block n := by
  have hcomment := isComment_of_next h
  have hlength : (cs.take n).length = n := by
    obtain ⟨_, hnext⟩ := next_of_isComment hcomment
    rw [List.take_append_drop, h] at hnext
    exact (Next.comment.inj hnext).2.symm
  obtain ⟨block', hnext⟩ := next_of_isComment (hcomment.of_head? head)
  have hkind : block' = true ↔ block = true := by
    rw [block_of_next hnext, block_of_next h, List.take_left]
  rw [hnext, Bool.eq_iff_iff.mpr hkind, hlength]

theorem next_append_of_comment {block : Bool} (h : next cs = .comment block n)
    (ends : Text.EndsLine cs) (ds : List Char) :
    next (cs ++ ds) = .comment block n ∧ n < cs.length := by
  have hlt : n < cs.length := by
    have hcomment := isComment_of_next h
    by_contra hle
    rw [List.take_of_length_le (Nat.le_of_not_lt hle)] at hcomment
    exact hcomment.not_endsLine ends
  refine ⟨?_, hlt⟩
  have hsome : cs.drop n ≠ [] := by
    rw [Ne, List.drop_eq_nil_iff]
    exact Nat.not_le_of_lt hlt
  have hhead : (cs.drop n ++ ds).head? = (cs.drop n).head? := List.head?_append_of_ne_nil _ hsome
  have hnext := next_take_append_of_comment h hhead
  rwa [← List.append_assoc, List.take_append_drop] at hnext

end Gap

/-! ### Where lexing goes on -/

theorem Cursor.advance_append_of_le {cs : List Char} {n : Nat} (hn : n ≤ cs.length)
    (ds : List Char) (p : Position) :
    (Cursor.mk (cs ++ ds) p).advance n = ⟨cs.drop n ++ ds, p.advance (cs.take n)⟩ := by
  rw [advance, List.drop_append_of_le_length hn, List.take_append_of_le_length hn]

theorem Position.line_lt_advance {cs : List Char} (h : '\n' ∈ cs) (p : Position) :
    p.line < (p.advance cs).line := by
  rw [line_advance_eq]
  exact Nat.lt_add_of_pos_right (List.count_pos_iff.mpr h)

namespace Lexed

section

variable {file : String} {lastLine : Nat} {waiting : List Comment} {c : Cursor} {n : Nat}

theorem resume_of_next_blanks (h : Gap.next c.rest = .blanks n) :
    resume file lastLine waiting c =
      resume file lastLine (Gap.attach lastLine waiting (.blanks (c.rest.take n)))
        (c.advance n) := by
  rw [resume, resume, Gap.readFrom_of_next_blanks h]

theorem resume_of_next_comment {block : Bool} (h : Gap.next c.rest = .comment block n) :
    resume file lastLine waiting c =
      resume file lastLine
        (Gap.attach lastLine waiting
          (.comment ⟨block, String.ofList (c.rest.take n), c.span file n⟩)) (c.advance n) := by
  rw [resume, resume, Gap.readFrom_of_next_comment h]

theorem resume_of_next_done (h : Gap.next c.rest = .done) :
    resume file lastLine waiting c = readAt file waiting c := by
  rw [resume, Gap.readFrom_of_next_done h]

theorem resume_of_next_unterminated (h : Gap.next c.rest = .unterminated) :
    (resume file lastLine waiting c).failure.isSome = true := by
  rw [resume, Gap.readFrom_of_next_unterminated h]
  rfl

end

/-- A token is read, and the lexer goes on behind it. -/
theorem readAt_of_scan {file : String} {comments : List Comment} {position : Position} {c : Char}
    {cs : List Char} {s : Lexeme.Scanned} (h : Lexeme.scan c cs = .ok s) :
    readAt file comments ⟨c :: cs, position⟩ =
      (resume file ((Cursor.mk (c :: cs) position).advance s.length).position.line []
        ((Cursor.mk (c :: cs) position).advance s.length)).push
        ⟨s.kind, String.ofList s.lexeme, (Cursor.mk (c :: cs) position).span file s.length,
          comments⟩ := by
  simp only [readAt, h, readFrom_eq_resume]

/-- If the text is read to its end, there is a token where one starts. -/
theorem exists_of_readAt {file : String} {comments : List Comment} {position : Position} {c : Char}
    {cs : List Char} {ts : List Token} {e : Token}
    (h : readAt file comments ⟨c :: cs, position⟩ = ⟨ts ++ [e], none⟩) (isEnd : e.isEnd = true) :
    ∃ s ts', Lexeme.scan c cs = .ok s ∧
      ts = ⟨s.kind, String.ofList s.lexeme, (Cursor.mk (c :: cs) position).span file s.length,
        comments⟩ :: ts' ∧
      resume file ((Cursor.mk (c :: cs) position).advance s.length).position.line []
        ((Cursor.mk (c :: cs) position).advance s.length) = ⟨ts' ++ [e], none⟩ := by
  cases hscan : Lexeme.scan c cs with
  | error e' =>
      simp only [readAt, hscan] at h
      cases congrArg Lexed.failure h
  | ok s =>
      rw [readAt_of_scan hscan] at h
      have htokens := congrArg Lexed.tokens h
      have hfailure := congrArg Lexed.failure h
      cases ts with
      | nil =>
          -- The token was read from the text, so it is not the end of the input.
          obtain ⟨rfl, -⟩ := List.cons.inj htokens
          exact absurd (by simpa [Token.isEnd] using isEnd) (Lexeme.scan_cases hscan).1
      | cons t ts =>
          obtain ⟨rfl, hrest⟩ := List.cons.inj htokens
          exact ⟨s, ts, rfl, rfl, congrArg₂ Lexed.mk hrest hfailure⟩

/-- Some tokens, and then what is read behind them. -/
def behind (ts : List Token) (l : Lexed) : Lexed :=
  { l with tokens := ts ++ l.tokens }

@[simp] theorem tokens_behind (ts : List Token) (l : Lexed) :
    (l.behind ts).tokens = ts ++ l.tokens := rfl

@[simp] theorem behind_nil (l : Lexed) : l.behind [] = l := rfl

theorem behind_behind (ts us : List Token) (l : Lexed) :
    (l.behind us).behind ts = l.behind (ts ++ us) := by
  simp [behind]

/-- Whatever stands behind the text, the lexer reads the tokens from it, and comes to where the pen
is. -/
def LeadsTo (file : String) (lastLine : Nat) (waiting : List Comment) (position : Position)
    (text : List Char) (ts : List Token) (q : Pen) : Prop :=
  ∃ lastLine' waiting' position' blanks, Agrees q lastLine' waiting' position' blanks ∧
    position'.advance blanks = position.advance text ∧
    ∀ ds, resume file lastLine waiting ⟨text ++ ds, position⟩ =
      (resume file lastLine' waiting' ⟨blanks ++ ds, position'⟩).behind ts

namespace LeadsTo

variable {file : String} {lastLine : Nat} {waiting : List Comment} {position : Position}
  {text : List Char} {ts : List Token} {p q : Pen}

theorem mono (h : LeadsTo file lastLine waiting position text ts p) (allows : p.Allows q) :
    LeadsTo file lastLine waiting position text ts q := by
  obtain ⟨lastLine', waiting', position', blanks, agrees, hplace, hresume⟩ := h
  exact ⟨lastLine', waiting', position', blanks, agrees.mono allows, hplace, hresume⟩

theorem space (h : LeadsTo file lastLine waiting position text ts p) :
    LeadsTo file lastLine waiting position (text ++ [' ']) ts p.spaced := by
  obtain ⟨lastLine', waiting', position', blanks, agrees, hplace, hresume⟩ := h
  refine ⟨lastLine', waiting', position', blanks ++ [' '], agrees.spaced, ?_, fun ds => ?_⟩
  · rw [Position.advance_append, Position.advance_append, hplace]
  · rw [List.append_assoc, List.append_assoc, hresume]

theorem newline (h : LeadsTo file lastLine waiting position text ts p) :
    LeadsTo file lastLine waiting position (text ++ ['\n']) ts p.ended := by
  obtain ⟨lastLine', waiting', position', blanks, agrees, hplace, hresume⟩ := h
  refine ⟨lastLine', waiting', position', blanks ++ ['\n'], agrees.ended, ?_, fun ds => ?_⟩
  · rw [Position.advance_append, Position.advance_append, hplace]
  · rw [List.append_assoc, List.append_assoc, hresume]

theorem comment {body : List Char} (h : LeadsTo file lastLine waiting position text ts p)
    (fresh : p.fresh = true) (oneLine : '\n' ∉ body) :
    LeadsTo file lastLine waiting position (text ++ ('/' :: '/' :: body ++ ['\n'])) ts
      (p.commented ('/' :: '/' :: body)) := by
  obtain ⟨lastLine', waiting', position', blanks, agrees, hplace, hresume⟩ := h
  let start := position'.advance blanks
  let stop := start.advance ('/' :: '/' :: body)
  let c : Comment := ⟨false, String.ofList ('/' :: '/' :: body), ⟨file, start, stop⟩⟩
  have hc : (c.block, c.text) = (false, String.ofList ('/' :: '/' :: body)) := rfl
  refine ⟨lastLine', _, stop, ['\n'], agrees.commented fresh hc rfl, ?_, fun ds => ?_⟩
  · rw [Position.advance_append, Position.advance_append, ← hplace]
  · have hstop : ∀ c ∈ ('/' :: '/' :: body ++ '\n' :: ds).head?, Lexeme.isSpace c = false := by
      rintro _ ⟨⟩
      rfl
    have hnext : Gap.next ('/' :: '/' :: body ++ '\n' :: ds) = _ :=
      Gap.next_line oneLine (by simp)
    have htext : text ++ ('/' :: '/' :: body ++ ['\n']) ++ ds =
        text ++ ('/' :: '/' :: body ++ '\n' :: ds) := by simp
    rw [htext, hresume, resume, resume, Gap.readFrom_blanks agrees.isSpace hstop,
      Gap.readFrom_comment_at hnext]
    rfl

/-- What is written without tokens leads on. -/
theorem writes {cs : List Char} (h : LeadsTo file lastLine waiting position text ts p)
    (hw : Writes p cs [] q) : LeadsTo file lastLine waiting position (text ++ cs) ts q := by
  generalize hws : ([] : List Written) = ws at hw
  induction hw generalizing text with
  | nil allows =>
      rw [List.append_nil]
      exact h.mono allows
  | space _ ih =>
      rw [List.append_cons]
      exact ih h.space hws
  | newline _ ih =>
      rw [List.append_cons]
      exact ih h.newline hws
  | comment fresh oneLine _ ih =>
      rw [List.append_cons, ← List.append_assoc]
      exact ih (by simpa using h.comment fresh oneLine) hws
  | token => cases hws

/-- Lexing leads on from a place that it has come to. -/
theorem of_step {lastLine' : Nat} {waiting' : List Comment} {n : Nat}
    (h : LeadsTo file lastLine' waiting' (position.advance (text.take n)) (text.drop n) ts q)
    (us : List Token)
    (step : ∀ ds, resume file lastLine waiting ⟨text ++ ds, position⟩ =
      (resume file lastLine' waiting'
        ⟨text.drop n ++ ds, position.advance (text.take n)⟩).behind us) :
    LeadsTo file lastLine waiting position text (us ++ ts) q := by
  obtain ⟨lastLine', waiting', position', blanks, agrees, hplace, hresume⟩ := h
  refine ⟨lastLine', waiting', position', blanks, agrees, ?_, fun ds => ?_⟩
  · rw [hplace, ← Position.advance_append, List.take_append_drop]
  · rw [step, hresume, behind_behind]

end LeadsTo

/-! ### Texts that end their last line -/

section

variable {file : String} {lastLine : Nat} {waiting : List Comment} {position : Position}
  {text : List Char} {ts : List Token} {e : Token}

/-- At the end of a text, its last blanks are still to be read. -/
theorem leadsTo_of_blanks (isSpace : ∀ c ∈ text, Lexeme.isSpace c = true)
    (ends : Text.EndsLine text) (reached : lastLine ≤ position.line)
    (h : resume file lastLine waiting ⟨text, position⟩ = ⟨ts ++ [e], none⟩) :
    LeadsTo file lastLine waiting position text ts
      (.under (e.comments.map fun c => (c.block, c.text))) := by
  have hread : resume file lastLine waiting ⟨text, position⟩ =
      readAt file (Gap.attach lastLine waiting (.blanks text)) ⟨[], position.advance text⟩ := by
    rw [← List.append_nil text, resume, Gap.readFrom_blanks isSpace (by simp),
      Gap.readFrom_of_next_done rfl]
    simp
  rw [hread] at h
  have htokens : [] ++ [_] = ts ++ [e] := congrArg Lexed.tokens h
  obtain ⟨rfl, hlast⟩ := List.append_inj' htokens rfl
  have hcomments : e.comments = Gap.attach lastLine waiting (.blanks text) := by
    rw [← (List.cons.inj hlast).1]
  have hcount : 1 ≤ text.count '\n' := List.count_pos_iff.mpr ends.mem
  have hline : position.line < (position.advance text).line :=
    Position.line_lt_advance ends.mem position
  refine ⟨lastLine, waiting, position, text, ⟨isSpace, ?_, .inr ?_, ?_, fun _ => ?_⟩, rfl,
    fun _ => rfl⟩
  · rw [hcomments]
    rfl
  · exact iff_of_true rfl hcount
  · omega
  · omega

/-- A text that ends its last line is read the same whatever stands behind it. -/
theorem leadsTo_of_resume (ends : Text.EndsLine text) (reached : lastLine ≤ position.line)
    (h : resume file lastLine waiting ⟨text, position⟩ = ⟨ts ++ [e], none⟩)
    (isEnd : e.isEnd = true) :
    LeadsTo file lastLine waiting position text ts
      (.under (e.comments.map fun c => (c.block, c.text))) := by
  -- By what stands next: all but the last blanks ends before the text does, and so the rest still
  -- ends its last line.
  induction hlength : text.length using Nat.strongRecOn
    generalizing lastLine waiting position text ts with
  | ind length ih =>
  subst hlength
  have hshorter {n : Nat} (hpos : 0 < n) (hn : n < text.length) :
      (text.drop n).length < text.length := by
    rw [List.length_drop]
    omega
  have hreached (n : Nat) : lastLine ≤ (position.advance (text.take n)).line :=
    reached.trans (Position.line_le_advance _ _)
  cases hnext : Gap.next text with
  | unterminated =>
      have hfailure := @resume_of_next_unterminated file lastLine waiting ⟨text, position⟩ hnext
      rw [h] at hfailure
      cases hfailure
  | blanks n =>
      by_cases hn : n < text.length
      · have hrest := ih _ (hshorter (Gap.next_blanks_pos hnext).1 hn) (ends.drop hn) (hreached n)
          ((resume_of_next_blanks hnext).symm.trans h) rfl
        refine hrest.of_step [] fun ds => ?_
        have hgoesOn := Gap.next_append_of_blanks hnext hn ds
        rw [behind_nil, resume_of_next_blanks hgoesOn, Cursor.advance_append_of_le hn.le,
          List.take_append_of_le_length hn.le]
      · have hspace := Gap.take_of_next_blanks hnext
        rw [List.take_of_length_le (Nat.le_of_not_lt hn)] at hspace
        exact leadsTo_of_blanks hspace ends reached h
  | comment block n =>
      have hn := (Gap.next_append_of_comment hnext ends []).2
      have hrest := ih _ (hshorter (Gap.next_comment_pos hnext).1 hn) (ends.drop hn) (hreached n)
        ((resume_of_next_comment hnext).symm.trans h) rfl
      refine hrest.of_step [] fun ds => ?_
      have hgoesOn := (Gap.next_append_of_comment hnext ends ds).1
      rw [behind_nil, resume_of_next_comment hgoesOn, Cursor.span,
        Cursor.advance_append_of_le hn.le, List.take_append_of_le_length hn.le]
      rfl
  | done =>
      obtain ⟨c, cs, rfl⟩ := List.exists_cons_of_ne_nil (List.ne_nil_of_mem ends.mem)
      have hc := Gap.ne_newline_of_done hnext
      have hcs : '\n' ∈ cs := (List.mem_cons.mp ends.mem).resolve_left (Ne.symm hc)
      rw [resume_of_next_done hnext] at h
      obtain ⟨s, ts, hscan, rfl, hbehind⟩ := exists_of_readAt h isEnd
      have hn := ends.lt_length (Lexeme.not_newline_of_scan hscan hc)
      have hrest := ih _ (hshorter (Lexeme.scan_length_pos hscan) hn) (ends.drop hn) (Nat.le_refl _)
        hbehind rfl
      refine hrest.of_step [_] fun ds => ?_
      have hgoesOn := Gap.next_append_of_done hnext (List.ne_nil_of_mem hcs) ds
      have hscan' := Lexeme.scan_append hscan hc hcs ds
      rw [List.cons_append, resume_of_next_done hgoesOn, readAt_of_scan hscan', ← List.cons_append,
        Cursor.span, Cursor.advance_append_of_le hn.le]
      rfl

end

/-- Behind a text that is read to its end, the comments at its end wait for the next token. -/
theorem leadsTo_of_tokensOf {file : String} {text : List Char} {ts : List Token} {e : Token}
    (tokens : TokensOf file text ts e) (ends : text = [] ∨ Text.EndsLine text) :
    LeadsTo file 0 [] .start text ts (.under (e.comments.map fun c => (c.block, c.text))) := by
  have hread : resume file 0 [] ⟨text, .start⟩ = ⟨ts ++ [e], none⟩ :=
    (readFrom_eq_resume file 0 _).symm.trans tokens.1
  rcases ends with rfl | ends
  · rw [resume_of_next_done rfl] at hread
    have htokens : [] ++ [_] = ts ++ [e] := congrArg Lexed.tokens hread
    obtain ⟨rfl, hlast⟩ := List.append_inj' htokens rfl
    have hcomments : e.comments = [] := by
      rw [← (List.cons.inj hlast).1]
    rw [hcomments]
    exact ⟨0, [], .start, [], .start, rfl, fun _ => rfl⟩
  · exact leadsTo_of_resume ends (Nat.zero_le _) hread tokens.2

/-! ### The token that stands next -/

/-- The text starts with the token. -/
def StartsWith (file : String) (text : List Char) (t : Token) : Prop :=
  t.span.start.offset = 0 ∧ ∃ us, (ofText file text).tokens = t :: us

/-- The token at a place has the same kind and lexeme wherever the place is. -/
theorem exists_readAt_cons {file : String} {comments : List Comment} {cs : List Char}
    {p : Position} {t : Token} {us : List Token}
    (h : (readAt file comments ⟨cs, p⟩).tokens = t :: us) (comments' : List Comment)
    (p' : Position) :
    ∃ t' us', (readAt file comments' ⟨cs, p'⟩).tokens = t' :: us' ∧ t'.kind = t.kind ∧
      t'.lexeme = t.lexeme ∧ t'.span.start = p' ∧ t'.comments = comments' := by
  cases cs with
  | nil =>
      obtain ⟨rfl, -⟩ := List.cons.inj h
      exact ⟨_, _, rfl, rfl, rfl, rfl, rfl⟩
  | cons c cs =>
      cases hscan : Lexeme.scan c cs with
      | error e =>
          simp only [readAt, hscan] at h
          cases h
      | ok s =>
          rw [readAt_of_scan hscan] at h ⊢
          obtain ⟨rfl, -⟩ := List.cons.inj h
          exact ⟨_, _, rfl, rfl, rfl, rfl, rfl⟩

theorem StartsWith.next_eq_done {file : String} {text : List Char} {t : Token}
    (h : StartsWith file text t) : Gap.next text = .done := by
  obtain ⟨hstart, us, htokens⟩ := h
  obtain ⟨pieces, c, hread, hplace, -⟩ := exists_of_readFrom_cons htokens
  have hin : c.IsIn text := (Gap.passes_of_read (Cursor.isIn_start text) hread).isIn
  have hrest := hin.drop_offset
  rw [← hplace, hstart, List.drop_zero] at hrest
  rw [hrest]
  exact Gap.next_of_read hread

/-- A token that stands next, behind blanks in its line, takes the comments that wait. -/
theorem LeadsTo.exists_token {file : String} {text pad after : List Char} {ts : List Token}
    {q : Pen} {t : Token} (h : LeadsTo file 0 [] .start text ts q)
    (blank : ∀ c ∈ pad, Lexeme.isSpace c = true ∧ c ≠ '\n')
    (startsWith : StartsWith file after t) :
    ∃ t' us', (ofText file (text ++ (pad ++ after))).tokens = ts ++ t' :: us' ∧
      t'.kind = t.kind ∧ t'.lexeme = t.lexeme ∧
      t'.span.start = Position.start.advance (text ++ pad) ∧
      t'.comments.map (fun c => (c.block, c.text)) = q.comments := by
  have hdone := startsWith.next_eq_done
  obtain ⟨-, us, htokens⟩ := startsWith
  obtain ⟨lastLine, waiting, position, blanks, agrees, hplace, hresume⟩ := h
  have hspace : ∀ c ∈ blanks ++ pad, Lexeme.isSpace c = true := by
    intro c hc
    rcases List.mem_append.mp hc with hc | hc
    · exact agrees.isSpace c hc
    · exact (blank c hc).1
  have hstop : ∀ c ∈ after.head?, Lexeme.isSpace c = false := by
    cases after with
    | nil => nofun
    | cons c cs =>
        rintro _ ⟨⟩
        exact (Gap.next_eq_done_iff.mp hdone).1
  have hcount : (blanks ++ pad).count '\n' = blanks.count '\n' := by
    rw [List.count_append, List.count_eq_zero.mpr fun hc => (blank _ hc).2 rfl, Nat.add_zero]
  rw [ofText, readFrom_eq_resume, resume_of_next_done hdone] at htokens
  obtain ⟨t', us', htokens', hkind, hlexeme, hstart, hcomments⟩ := exists_readAt_cons htokens
    (Gap.attach lastLine waiting (.blanks (blanks ++ pad))) (position.advance (blanks ++ pad))
  refine ⟨t', us', ?_, hkind, hlexeme, ?_, ?_⟩
  · rw [ofText, readFrom_eq_resume, hresume, tokens_behind, ← List.append_assoc, resume,
      Gap.readFrom_blanks hspace hstop, Gap.readFrom_of_next_done hdone]
    exact congrArg (ts ++ ·) htokens'
  · rw [hstart, Position.advance_append, hplace, Position.advance_append]
  · rw [hcomments, ← agrees.comments, Gap.attach, Gap.attach, hcount]

end Lexed

end Proto2

import Proto2.Proofs.Layout.Pen
import Proto2.Proofs.Token.Lexed

/-!
Lexing what was written.

Blanks are read in runs, so in the middle of a text the lexer may have blanks before it that
the pen has passed.  What the pen knows agrees with what the lexer has found so far and with
those blanks.
-/

namespace Proto2

namespace Gap

/-! ### Reading a gap on from some comments -/

/-- The comments attached to the token after the gap, given those that wait for it, and the
place of the token. -/
def readFrom (file : String) (lastLine : Nat) (waiting : List Comment) (c : Cursor) :
    Except LexicalError (List Comment × Cursor) :=
  (read file c).map fun (pieces, after) => (pieces.foldl (attach lastLine) waiting, after)

variable {file : String} {lastLine : Nat} {waiting : List Comment} {position : Position}

/-- A token starts where neither a blank nor a slash stands. -/
def AtToken (cs : List Char) : Prop :=
  ∀ c ∈ cs.head?, Lexeme.isSpace c = false ∧ c ≠ '/'

theorem next_of_atToken {cs : List Char} (h : AtToken cs) : next cs = .done := by
  cases cs with
  | nil => rfl
  | cons c cs =>
      obtain ⟨hspace, hslash⟩ := h c rfl
      unfold next
      split
      · rfl
      · rename_i heq
        cases heq
        exact absurd rfl hslash
      · rename_i heq
        cases heq
        exact absurd rfl hslash
      · rename_i heq
        cases heq
        simp [hspace]

theorem readFrom_of_next_done {c : Cursor} (h : next c.rest = .done) :
    readFrom file lastLine waiting c = .ok (waiting, c) := by
  rw [readFrom, read_of_next_done h]
  rfl

theorem readFrom_of_atToken {cs : List Char} (h : AtToken cs) :
    readFrom file lastLine waiting ⟨cs, position⟩ = .ok (waiting, ⟨cs, position⟩) :=
  readFrom_of_next_done (next_of_atToken h)

theorem readFrom_of_next_unterminated {c : Cursor} (h : next c.rest = .unterminated) :
    readFrom file lastLine waiting c =
      .error ⟨c.span file c.rest.length, .unterminatedComment⟩ := by
  rw [readFrom, read_of_next_unterminated h]
  rfl

theorem readFrom_of_next_blanks {c : Cursor} {n : Nat} (h : next c.rest = .blanks n) :
    readFrom file lastLine waiting c =
      readFrom file lastLine (attach lastLine waiting (.blanks (c.rest.take n))) (c.advance n) := by
  rw [readFrom, readFrom, read_of_next_blanks h]
  cases read file (c.advance n) <;> rfl

theorem readFrom_of_next_comment {c : Cursor} {block : Bool} {n : Nat}
    (h : next c.rest = .comment block n) :
    readFrom file lastLine waiting c =
      readFrom file lastLine
        (attach lastLine waiting
          (.comment ⟨block, String.ofList (c.rest.take n), c.span file n⟩)) (c.advance n) := by
  rw [readFrom, readFrom, read_of_next_comment h]
  cases read file (c.advance n) <;> rfl

theorem next_of_isSpace {c : Char} (h : Lexeme.isSpace c = true) (cs : List Char) :
    next (c :: cs) = .blanks (1 + Lexeme.runLength Lexeme.isSpace cs) := by
  have hslash : c ≠ '/' := by
    rintro rfl
    revert h
    decide
  unfold next
  split
  · rename_i heq
    cases heq
  · rename_i heq
    cases heq
    exact absurd rfl hslash
  · rename_i heq
    cases heq
    exact absurd rfl hslash
  · rename_i heq
    cases heq
    rw [if_pos h]

theorem advance_append (cs ds : List Char) (position : Position) :
    (Cursor.mk (cs ++ ds) position).advance cs.length = ⟨ds, position.advance cs⟩ := by
  simp [Cursor.advance]

/-- Blanks are read up to where something else stands. -/
theorem next_blanks {blanks cs : List Char} (some : blanks ≠ [])
    (hblanks : ∀ c ∈ blanks, Lexeme.isSpace c = true)
    (hstop : ∀ c ∈ cs.head?, Lexeme.isSpace c = false) :
    next (blanks ++ cs) = .blanks blanks.length := by
  cases blanks with
  | nil => exact absurd rfl some
  | cons b bs =>
      have hrun : Lexeme.runLength Lexeme.isSpace (bs ++ cs) = bs.length :=
        Lexeme.runLength_append (fun c hc => hblanks c (by simp [hc])) hstop
      rw [List.cons_append, next_of_isSpace (hblanks b (by simp)), hrun, List.length_cons,
        Nat.add_comm]

/-- A run of blanks is read as one piece. -/
theorem readFrom_blanks {blanks cs : List Char} (hblanks : ∀ c ∈ blanks, Lexeme.isSpace c = true)
    (hstop : ∀ c ∈ cs.head?, Lexeme.isSpace c = false) :
    readFrom file lastLine waiting ⟨blanks ++ cs, position⟩ =
      readFrom file lastLine (attach lastLine waiting (.blanks blanks))
        ⟨cs, position.advance blanks⟩ := by
  rcases eq_or_ne blanks [] with rfl | some
  · rfl
  · rw [readFrom_of_next_blanks (next_blanks some hblanks hstop), advance_append, List.take_left]

/-- A comment is read as one piece, and its span goes from the place before it to the one behind
it. -/
theorem readFrom_comment_at {block : Bool} {text cs : List Char}
    (h : next (text ++ cs) = .comment block text.length) :
    readFrom file lastLine waiting ⟨text ++ cs, position⟩ =
      readFrom file lastLine
        (attach lastLine waiting
          (.comment ⟨block, String.ofList text, ⟨file, position, position.advance text⟩⟩))
        ⟨cs, position.advance text⟩ := by
  have hread := @readFrom_of_next_comment file lastLine waiting ⟨text ++ cs, position⟩ _ _ h
  rwa [List.take_left, Cursor.span, advance_append] at hread

theorem readFrom_comment_append {block : Bool} {text cs : List Char}
    (h : next (text ++ cs) = .comment block text.length) :
    ∃ span : Span, span.start = position ∧
      readFrom file lastLine waiting ⟨text ++ cs, position⟩ =
        readFrom file lastLine
          (attach lastLine waiting (.comment ⟨block, String.ofList text, span⟩))
          ⟨cs, position.advance text⟩ :=
  ⟨_, rfl, readFrom_comment_at h⟩

/-- A line comment goes up to the end of its line. -/
theorem next_line {body cs : List Char} (oneLine : '\n' ∉ body)
    (stops : ∀ c ∈ cs.head?, c = '\n') :
    next ('/' :: '/' :: body ++ cs) = .comment false ('/' :: '/' :: body).length := by
  have hrun : Lexeme.runLength (· != '\n') (body ++ cs) = body.length := by
    apply Lexeme.runLength_append
    · intro c hc
      rw [bne_iff_ne]
      rintro rfl
      exact oneLine hc
    · intro c hc
      rw [stops c hc]
      rfl
  rw [List.cons_append, List.cons_append, next, hrun, List.length_cons, List.length_cons,
    Nat.add_comm]

/-- A line comment is read up to the end of its line. -/
theorem readFrom_comment {body cs : List Char} (oneLine : '\n' ∉ body)
    (stops : ∀ c ∈ cs.head?, c = '\n') :
    ∃ span : Span, span.start = position ∧
      readFrom file lastLine waiting ⟨'/' :: '/' :: body ++ cs, position⟩ =
        readFrom file lastLine
          (attach lastLine waiting (.comment ⟨false, String.ofList ('/' :: '/' :: body), span⟩))
          ⟨cs, position.advance ('/' :: '/' :: body)⟩ :=
  readFrom_comment_append (next_line oneLine stops)

end Gap

namespace Position

/-- The line number goes up by one with each newline. -/
theorem line_advance_eq (p : Position) (cs : List Char) :
    (p.advance cs).line = p.line + cs.count '\n' := by
  induction cs generalizing p with
  | nil => rfl
  | cons c cs ih =>
      rw [advance_cons, ih, next]
      by_cases hc : c = '\n'
      · subst hc
        rw [if_pos rfl, List.count_cons_self]
        dsimp only
        omega
      · rw [if_neg hc, List.count_cons_of_ne hc]

theorem line_le_advance (p : Position) (cs : List Char) : p.line ≤ (p.advance cs).line := by
  rw [line_advance_eq]
  exact Nat.le_add_right _ _

theorem line_advance {cs : List Char} (h : '\n' ∉ cs) (p : Position) :
    (p.advance cs).line = p.line := by
  rw [line_advance_eq, List.count_eq_zero.mpr h, Nat.add_zero]

end Position

namespace Lexed

/-- The tokens from a place where one starts, given the comments attached to it. -/
def readAt (file : String) (comments : List Comment) (c : Cursor) : Lexed :=
  match c.rest with
  | [] => ⟨[⟨.endOfInput, "", c.span file 0, comments⟩], none⟩
  | ch :: cs =>
    match Lexeme.scan ch cs with
    | .error e => ⟨[], some ⟨c.span file e.length, e.cause⟩⟩
    | .ok s =>
      (readFrom file (c.advance s.length).position.line (c.advance s.length)).push
        ⟨s.kind, String.ofList s.lexeme, c.span file s.length, comments⟩

/-- The tokens from a place in a gap on, given the comments that wait for the next one. -/
def resume (file : String) (lastLine : Nat) (waiting : List Comment) (c : Cursor) : Lexed :=
  match Gap.readFrom file lastLine waiting c with
  | .error e => ⟨[], some e⟩
  | .ok (comments, after) => readAt file comments after

theorem readFrom_eq_resume (file : String) (lastLine : Nat) (c : Cursor) :
    readFrom file lastLine c = resume file lastLine [] c := by
  rw [readFrom, resume, Gap.readFrom]
  split
  · rename_i hgap
    rw [hgap]
    rfl
  · rename_i pieces after hgap
    rw [hgap]
    simp only [Except.map, readAt]
    split
    · rename_i hrest
      simp [hrest, Gap.attached]
    · rename_i ch cs hrest
      rw [hrest]
      simp only
      split <;> rename_i hscan <;> simp [hscan, Gap.attached]

/-- The lexer has come to where the pen is: some comments wait, and behind them stand blanks
that the pen has passed. -/
structure Agrees (p : Pen) (lastLine : Nat) (waiting : List Comment) (position : Position)
    (blanks : List Char) : Prop where
  isSpace : ∀ c ∈ blanks, Lexeme.isSpace c = true
  comments : (Gap.attach lastLine waiting (.blanks blanks)).map (fun c => (c.block, c.text)) =
    p.comments
  newlines : waiting = [] ∨ (p.fresh = true ↔ 1 ≤ blanks.count '\n')
  lastLine_le : lastLine ≤ (position.advance blanks).line
  fresh : p.fresh = true → lastLine < (position.advance blanks).line

namespace Agrees

variable {p q : Pen} {lastLine : Nat} {waiting : List Comment} {position : Position}
  {blanks : List Char}

theorem mono (h : Agrees p lastLine waiting position blanks) (allows : p.Allows q) :
    Agrees q lastLine waiting position blanks :=
  ⟨h.isSpace, h.comments.trans allows.comments, allows.fresh ▸ h.newlines, h.lastLine_le,
    allows.fresh ▸ h.fresh⟩

theorem spaced (h : Agrees p lastLine waiting position blanks) :
    Agrees p.spaced lastLine waiting position (blanks ++ [' ']) := by
  have hcount : (blanks ++ [' ']).count '\n' = blanks.count '\n' := by simp
  have hline : (position.advance (blanks ++ [' '])).line = (position.advance blanks).line := by
    rw [Position.advance_append]
    rfl
  refine ⟨?_, ?_, ?_, ?_, ?_⟩
  · intro c hc
    rcases List.mem_append.mp hc with hc | hc
    · exact h.isSpace c hc
    · rw [List.mem_singleton.mp hc]
      rfl
  · have := h.comments
    simp only [Gap.attach, hcount] at this ⊢
    exact this
  · rw [hcount]
    exact h.newlines
  · rw [hline]
    exact h.lastLine_le
  · rw [hline]
    exact h.fresh

theorem ended (h : Agrees p lastLine waiting position blanks) :
    Agrees p.ended lastLine waiting position (blanks ++ ['\n']) := by
  have hcount : (blanks ++ ['\n']).count '\n' = blanks.count '\n' + 1 := by simp
  have hline : (position.advance (blanks ++ ['\n'])).line =
      (position.advance blanks).line + 1 := by
    rw [Position.advance_append]
    rfl
  have hle := h.lastLine_le
  refine ⟨?_, ?_, ?_, ?_, ?_⟩
  · intro c hc
    rcases List.mem_append.mp hc with hc | hc
    · exact h.isSpace c hc
    · rw [List.mem_singleton.mp hc]
      rfl
  · have hcomments := h.comments
    simp only [Gap.attach, hcount, Pen.ended] at hcomments ⊢
    rw [← hcomments]
    rcases h.newlines with rfl | hfresh
    · simp
    · by_cases hp : p.fresh = true
      · have := hfresh.mp hp
        rw [if_pos hp, if_pos (by omega)]
        rfl
      · have : ¬ 1 ≤ blanks.count '\n' := fun hc => hp (hfresh.mpr hc)
        rw [if_neg hp, if_neg (by omega), if_neg (by omega)]
  · rw [hcount]
    exact .inr (by simp [Pen.ended])
  · omega
  · omega

theorem commented {text : List Char} {block : Bool} {c : Comment}
    (h : Agrees p lastLine waiting position blanks) (fresh : p.fresh = true)
    (hc : (c.block, c.text) = (block, String.ofList text))
    (hstart : c.span.start = position.advance blanks) :
    Agrees (.under (p.comments ++ [(block, String.ofList text)])) lastLine
      (Gap.attach lastLine (Gap.attach lastLine waiting (.blanks blanks)) (.comment c))
      ((position.advance blanks).advance text) ['\n'] := by
  have hlt := h.fresh fresh
  have hle := Position.line_le_advance (position.advance blanks) text
  have hline : (((position.advance blanks).advance text).advance ['\n']).line =
      ((position.advance blanks).advance text).line + 1 := rfl
  refine ⟨by simp [Lexeme.isSpace], ?_, .inr (by simp [Pen.under]), by omega, fun _ => by omega⟩
  have hne : c.span.start.line ≠ lastLine := by
    rw [hstart]
    omega
  have hkept (cs : List Comment) : Gap.attach lastLine cs (.blanks ['\n']) = cs := by
    have hone : ¬ 2 ≤ ['\n'].count '\n' := by decide
    rw [Gap.attach, if_neg hone]
  have hadded (cs : List Comment) : Gap.attach lastLine cs (.comment c) = cs ++ [c] :=
    if_neg hne
  rw [hkept, hadded, List.map_append, h.comments, List.map_singleton, hc]
  rfl

/-- At the start of a text the pen is at the start of a line. -/
theorem start : Agrees .line 0 [] .start [] :=
  ⟨by simp, by simp [Gap.attach, Pen.line], .inl rfl, Nat.zero_le _, fun _ => by decide⟩

theorem behind (kind : TokenKind) (position : Position) :
    Agrees (.behind kind) position.line [] position [] :=
  ⟨by simp, by simp [Gap.attach, Pen.behind], .inl rfl, Nat.le_refl _, by simp [Pen.behind]⟩

end Agrees

/-- From where the pen is on, the lexer reads the whole text, as the tokens that it bears. -/
def Bears (file : String) (p : Pen) (cs : List Char) (ws : List Written) : Prop :=
  ∀ (lastLine : Nat) (waiting : List Comment) (position : Position) (blanks : List Char),
    Agrees p lastLine waiting position blanks →
      ∃ ts e, resume file lastLine waiting ⟨blanks ++ cs, position⟩ = ⟨ts ++ [e], none⟩ ∧
        e.isEnd = true ∧ ts.map Token.written = ws

namespace Bears

variable {file : String} {p q : Pen} {cs ds : List Char} {ws vs : List Written}

theorem nil : Bears file p [] [] := by
  intro lastLine waiting position blanks agrees
  rw [resume, Gap.readFrom_blanks agrees.isSpace (by simp),
    Gap.readFrom_of_atToken (by simp [Gap.AtToken])]
  exact ⟨[], _, rfl, rfl, rfl⟩

theorem mono (allows : p.Allows q) (h : Bears file q cs ws) : Bears file p cs ws :=
  fun _ _ _ _ agrees => h _ _ _ _ (agrees.mono allows)

theorem space (h : Bears file p.spaced cs ws) : Bears file p (' ' :: cs) ws := by
  intro lastLine waiting position blanks agrees
  have hread := h _ _ _ _ agrees.spaced
  rwa [List.append_assoc] at hread

theorem newline (h : Bears file p.ended cs ws) : Bears file p ('\n' :: cs) ws := by
  intro lastLine waiting position blanks agrees
  have hread := h _ _ _ _ agrees.ended
  rwa [List.append_assoc] at hread

/-- A comment at the start of a line waits for a token. -/
theorem comment {block : Bool} {text : List Char} (fresh : p.fresh = true)
    (start : text.head? = some '/')
    (next : Gap.next (text ++ '\n' :: cs) = .comment block text.length)
    (h : Bears file (.under (p.comments ++ [(block, String.ofList text)])) cs ws) :
    Bears file p (text ++ '\n' :: cs) ws := by
  intro lastLine waiting position blanks agrees
  obtain ⟨span, hstart, hread⟩ := @Gap.readFrom_comment_append file lastLine
    (Gap.attach lastLine waiting (.blanks blanks)) (position.advance blanks) _ _ _ next
  have hstop : ∀ c ∈ (text ++ '\n' :: cs).head?, Lexeme.isSpace c = false := by
    rw [List.head?_append, start]
    rintro _ ⟨⟩
    rfl
  have hrest := h _ _ _ _ (agrees.commented (c := ⟨block, _, span⟩) fresh rfl hstart)
  rw [resume, Gap.readFrom_blanks agrees.isSpace hstop, hread]
  exact hrest

/-- A token takes the comments that wait for it. -/
theorem token {text lexeme : List Char} {kind : TokenKind}
    (spells : Lexeme.Spells text kind lexeme)
    (fits : ∀ c ∈ cs.head?, kind.mayPrecede c = true) (h : Bears file (.behind kind) cs ws) :
    Bears file p (text ++ cs) (⟨kind, lexeme, p.comments⟩ :: ws) := by
  intro lastLine waiting position blanks agrees
  obtain ⟨c, text, rfl, hspace, hslash⟩ := spells.start
  have hscan := spells.scans c text cs rfl fits
  obtain ⟨ts, e, hresume, he, hts⟩ :=
    h _ _ _ _ (Agrees.behind kind ((position.advance blanks).advance (c :: text)))
  have hread : Gap.readFrom file lastLine waiting ⟨blanks ++ (c :: text ++ cs), position⟩ =
      .ok (Gap.attach lastLine waiting (.blanks blanks),
        ⟨c :: text ++ cs, position.advance blanks⟩) := by
    rw [Gap.readFrom_blanks agrees.isSpace (by simpa using hspace)]
    exact Gap.readFrom_of_atToken (by simpa [Gap.AtToken] using ⟨hspace, hslash⟩)
  have hadvance : (Cursor.mk (c :: text ++ cs) (position.advance blanks)).advance
      (c :: text).length = ⟨cs, (position.advance blanks).advance (c :: text)⟩ :=
    Gap.advance_append _ _ _
  rw [resume, hread]
  simp only [readAt, List.cons_append, hscan] at hadvance ⊢
  rw [hadvance, readFrom_eq_resume]
  rw [List.nil_append] at hresume
  rw [hresume]
  refine ⟨_ :: ts, e, rfl, he, ?_⟩
  rw [List.map_cons, hts, Token.written, String.toList_ofList, agrees.comments]

/-- What is written bears its tokens before those of the text behind it. -/
theorem writes (h : Writes p cs ws q) (fits : ∀ c ∈ ds.head?, q.Fits c)
    (rest : Bears file q ds vs) : Bears file p (cs ++ ds) (ws ++ vs) := by
  induction h with
  | nil allows => exact rest.mono allows
  | space _ ih => exact .space (ih fits rest)
  | newline _ ih => exact .newline (ih fits rest)
  | comment fresh oneLine _ ih =>
      rw [List.append_assoc]
      exact .comment fresh rfl (Gap.next_line oneLine (by simp)) (ih fits rest)
  | token spells _ written ih =>
      rw [List.append_assoc]
      exact .token spells (fun c hc => written.fits_append fits c hc _ rfl) (ih fits rest)

end Bears

end Lexed

/-- The tokens of a text are those it bears. -/
theorem Lexed.Bears.tokensOf {file : String} {cs : List Char} {ws : List Written}
    (h : Bears file .line cs ws) :
    ∃ ts e, TokensOf file cs ts e ∧ ts.map Token.written = ws := by
  obtain ⟨ts, e, hlexed, he, hts⟩ := h _ _ _ _ .start
  exact ⟨ts, e, ⟨(Lexed.readFrom_eq_resume file 0 _).trans hlexed, he⟩, hts⟩

/-- The tokens of a text that was written are those it bears. -/
theorem Writes.tokensOf {q : Pen} {cs : List Char} {ws : List Written} (h : Writes .line cs ws q)
    (file : String) : ∃ ts e, TokensOf file cs ts e ∧ ts.map Token.written = ws := by
  have hbears : Lexed.Bears file .line (cs ++ []) (ws ++ []) := .writes h (by simp) .nil
  rw [List.append_nil, List.append_nil] at hbears
  exact hbears.tokensOf

end Proto2

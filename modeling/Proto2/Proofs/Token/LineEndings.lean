import Proto2.Proofs.Layout.Lexed
import Proto2.Proofs.Parser.Alike
import Proto2.Proofs.Text.LineEndings
import Proto2.Proofs.Token.Account
import Proto2.Proofs.Token.Blank

/-!
The tokens of a text whose lines end in a carriage return and a newline.

They are alike those of the text with newlines alone, at the same places: a token stands on one
line, so it is the same in both texts.  Between tokens the carriage returns are white space, except
where they come into comments.  A line comment takes the one at its end with it; a block comment
takes all of them.  The gists of the comments are the same all the same, and so is where empty lines
are.
-/

namespace Proto2

namespace Lexeme

/-! ### Lexemes -/

/-- A text as its first line and the rest, in which carriage returns are put. -/
theorem exists_firstLine (cs : List Char) :
    ∃ l r, cs = l ++ r ∧ '\n' ∉ l ∧ Text.crlf cs = l ++ Text.crlf r ∧
      (∀ d ∈ r.head?, d = '\n') ∧ ∀ d ∈ (Text.crlf r).head?, d = '\r' := by
  induction cs with
  | nil => exact ⟨[], [], rfl, List.not_mem_nil, rfl, nofun, nofun⟩
  | cons c cs ih =>
      by_cases hc : c = '\n'
      · subst hc
        refine ⟨[], '\n' :: cs, rfl, List.not_mem_nil, rfl, ?_, ?_⟩ <;> rintro _ ⟨⟩ <;> rfl
      · obtain ⟨l, r, rfl, hl, hcrlf, hr⟩ := ih
        refine ⟨c :: l, r, rfl, ?_, ?_, hr⟩
        · simpa using ⟨Ne.symm hc, hl⟩
        · rw [Text.crlf_cons hc, hcrlf, List.cons_append]

theorem plain?_crlf (c : Char) (cs : List Char) :
    plain? (c :: Text.crlf cs) = plain? (c :: cs) := by
  obtain ⟨l, r, rfl, -, hcrlf, hr, hr'⟩ := exists_firstLine cs
  have hblank : ∀ c ∈ r.head?, isSpace c = true := fun d hd => by rw [hr d hd]; rfl
  have hblank' : ∀ c ∈ (Text.crlf r).head?, isSpace c = true := fun d hd => by
    rw [hr' d hd]; rfl
  rw [hcrlf, ← List.cons_append, ← List.cons_append,
    plain?_append_blank hblank (List.cons_ne_nil _ _),
    plain?_append_blank hblank' (List.cons_ne_nil _ _)]

/-- A token takes nothing from behind its line. -/
theorem not_newline_of_plain? {c : Char} {cs : List Char} {kind : TokenKind} {n : Nat}
    (hc : c ≠ '\n') (h : plain? (c :: cs) = some (kind, n)) : '\n' ∉ (c :: cs).take n := by
  obtain ⟨l, r, rfl, hl, -, hr, -⟩ := exists_firstLine cs
  have hblank : ∀ c ∈ r.head?, isSpace c = true := fun d hd => by rw [hr d hd]; rfl
  rw [← List.cons_append, plain?_append_blank hblank (List.cons_ne_nil _ _)] at h
  rw [← List.cons_append, List.take_append_of_le_length (plain?_le h)]
  intro hmem
  have hmem' := List.mem_of_mem_take hmem
  rcases List.mem_cons.mp hmem' with heq | hmem'
  · exact hc heq.symm
  · exact hl hmem'

/-- A character that escapes nothing is no backslash. -/
theorem ne_backslash {c : Char} {cs : List Char} (lone : c = '\\' → cs = [] → False)
    (pair : ∀ d ds, c = '\\' → cs = d :: ds → False) : c ≠ '\\' := by
  intro heq
  cases cs with
  | nil => exact lone heq rfl
  | cons d ds => exact pair d ds heq rfl

theorem quotation_cons {quote c : Char} (hc : c ≠ '\\') (cs : List Char) :
    quotation quote (c :: cs) =
      if c = quote then .closed [] else if c = '\n' then .unclosed []
      else (quotation quote cs).push [c] := by
  rw [quotation]
  · rintro rfl
    exact absurd rfl hc
  · rintro _ _ rfl
    exact absurd rfl hc

theorem quotation_newline {quote : Char} (hn : quote ≠ '\n') (cs : List Char) :
    quotation quote ('\n' :: cs) = .unclosed [] := by
  simp [quotation, Ne.symm hn]

theorem quotation_return {quote : Char} (hn : quote ≠ '\n') (hr : quote ≠ '\r') (cs : List Char) :
    quotation quote ('\r' :: '\n' :: cs) = .unclosed ['\r'] := by
  simp [quotation, quotation_newline hn, Ne.symm hr, Quotation.push]

/-- The string literals are the same, or neither is closed on its line. -/
inductive Quotation.Alike : Quotation → Quotation → Prop
  | closed {body : List Char} (oneLine : '\n' ∉ body) : Alike (.closed body) (.closed body)
  | unclosed (read read' : List Char) : Alike (.unclosed read) (.unclosed read')

theorem Quotation.Alike.push {q q' : Quotation} (h : q.Alike q') {cs : List Char}
    (oneLine : '\n' ∉ cs) : (q.push cs).Alike (q'.push cs) := by
  cases h with
  | closed hbody => exact .closed (by simpa using ⟨oneLine, hbody⟩)
  | unclosed read read' => exact .unclosed _ _

theorem quotation_crlf {quote : Char} (hn : quote ≠ '\n') (hr : quote ≠ '\r') (cs : List Char) :
    (quotation quote cs).Alike (quotation quote (Text.crlf cs)) := by
  fun_induction quotation quote cs with
  | case1 => exact .unclosed _ _
  | case2 => exact .unclosed _ _
  | case3 cs =>
      rw [Text.crlf_cons (by decide), Text.crlf_newline, quotation, if_neg (by decide),
        quotation_newline hn]
      exact .unclosed _ _
  | case4 c cs hc ih =>
      rw [Text.crlf_cons (by decide), Text.crlf_cons hc, quotation, if_neg hc]
      exact ih.push (by simpa using Ne.symm hc)
  | case5 cs hlone hpair =>
      rw [Text.crlf_cons hn, quotation_cons (ne_backslash hlone hpair), if_pos rfl]
      exact .closed List.not_mem_nil
  | case6 =>
      rw [Text.crlf_newline, quotation_return hn hr]
      exact .unclosed _ _
  | case7 c cs hlone hpair hc hnew ih =>
      rw [Text.crlf_cons hnew, quotation_cons (ne_backslash hlone hpair), if_neg hc, if_neg hnew]
      exact ih.push (by simpa using Ne.symm hnew)

/-- A token is the same in a text with other ends of lines, and stands on one line. -/
theorem scan_crlf {c : Char} (hc : c ≠ '\n') (cs : List Char) :
    (∃ s, scan c cs = .ok s ∧ scan c (Text.crlf cs) = .ok s ∧ '\n' ∉ (c :: cs).take s.length) ∨
      ∃ e e', scan c cs = .error e ∧ scan c (Text.crlf cs) = .error e' ∧ e.cause = e'.cause := by
  unfold scan
  split
  case isTrue hquote =>
    have hr : c ≠ '\r' := by
      rcases hquote with rfl | rfl <;> decide
    have hquotations := quotation_crlf hc hr cs
    cases hq : quotation c cs with
    | closed body =>
        generalize hq' : quotation c (Text.crlf cs) = q' at hquotations
        rw [hq] at hquotations
        cases hquotations with
        | closed hbody =>
            obtain ⟨after, rfl⟩ := quotation_closed hq
            refine .inl ⟨_, rfl, rfl, ?_⟩
            have hlength : body.length + 2 = (body ++ [c]).length + 1 := by simp
            dsimp only
            rw [hlength, List.take_succ_cons, ← List.singleton_append (x := c) (l := after),
              ← List.append_assoc, List.take_left]
            simpa using ⟨Ne.symm hc, hbody, Ne.symm hc⟩
    | unclosed read =>
        generalize hq' : quotation c (Text.crlf cs) = q' at hquotations
        rw [hq] at hquotations
        cases hquotations with
        | unclosed _ read' => exact .inr ⟨_, _, rfl, rfl, rfl⟩
  case isFalse =>
    rw [plain?_crlf]
    cases hplain : plain? (c :: cs) with
    | none => exact .inr ⟨_, _, rfl, rfl, rfl⟩
    | some found =>
        obtain ⟨kind, n⟩ := found
        have hline := not_newline_of_plain? hc hplain
        have htake : (c :: Text.crlf cs).take n = (c :: cs).take n := by
          rw [← Text.crlf_cons hc, (Text.take_drop_crlf hline).1]
        refine .inl ⟨_, rfl, ?_, hline⟩
        dsimp only
        rw [htake]

end Lexeme

/-! ### Places -/

/-- The places are on one line and in one column. -/
structure Position.Alike (p q : Position) : Prop where
  line : p.line = q.line
  column : p.column = q.column

theorem Position.Alike.next {p q : Position} (h : p.Alike q) (c : Char) :
    (p.next c).Alike (q.next c) := by
  unfold Position.next
  split
  · exact ⟨congrArg (· + 1) h.line, rfl⟩
  · exact ⟨h.line, congrArg (· + 1) h.column⟩

theorem Position.Alike.advance_crlf {p q : Position} (h : p.Alike q) (cs : List Char) :
    (p.advance cs).Alike (q.advance (Text.crlf cs)) := by
  induction cs generalizing p q with
  | nil => exact h
  | cons c cs ih =>
      by_cases hc : c = '\n'
      · subst hc
        exact ih ⟨congrArg (· + 1) h.line, rfl⟩
      · rw [Text.crlf_cons hc]
        exact ih (h.next c)

/-- The second place is the first one in the text with other ends of lines. -/
structure Cursor.Alike (c d : Cursor) : Prop where
  rest : d.rest = Text.crlf c.rest
  place : c.position.Alike d.position

theorem Cursor.Alike.advance {c d : Cursor} (h : c.Alike d) {n : Nat}
    (oneLine : '\n' ∉ c.rest.take n) : (c.advance n).Alike (d.advance n) := by
  obtain ⟨htake, hdrop⟩ := Text.take_drop_crlf oneLine
  have hplace := h.place.advance_crlf (c.rest.take n)
  rw [Text.crlf_eq_self oneLine] at hplace
  constructor
  · rw [Cursor.advance, Cursor.advance, h.rest, hdrop]
  · rw [Cursor.advance, Cursor.advance, h.rest, htake]
    exact hplace

theorem Cursor.Alike.span {c d : Cursor} (h : c.Alike d) (file : String) (n m : Nat) :
    (c.span file n).StartsLike (d.span file m) :=
  ⟨rfl, h.place.line, h.place.column⟩

/-! ### Gaps -/

namespace Gap

open Documentation (gist)

/-- A block comment ends with the same delimiter. -/
theorem closedLength?_crlf (cs : List Char) :
    closedLength? (Text.crlf cs) =
      (closedLength? cs).map fun n => (Text.crlf (cs.take n)).length := by
  fun_induction closedLength? cs with
  | case1 => rfl
  | case2 cs => rfl
  | case3 c cs notClosed ih =>
      by_cases hc : c = '\n'
      · subst hc
        rw [Text.crlf_newline, closedLength?_cons (by simp), closedLength?_cons (by simp), ih]
        simp [Function.comp_def]
      · have hopen : c = '*' → (Text.crlf cs).head? ≠ some '/' := by
          intro hstar
          refine Text.head?_crlf_ne (by decide) fun hslash => ?_
          obtain ⟨rest, rfl⟩ := List.head?_eq_some_iff.mp hslash
          exact notClosed rest hstar rfl
        rw [Text.crlf_cons hc, closedLength?_cons hopen, ih]
        simp [Function.comp_def, Text.crlf_cons hc]

section

variable {β : Type} {f : Comment → β} {ws ws' : List Comment}

/-- What is seen of the waiting comments stays the same if the same is seen of one more. -/
theorem attach_alike (lastLine : Nat) (alike : ws.map f = ws'.map f) {c d : Comment}
    (same : f c = f d) (line : c.span.start.line = d.span.start.line) :
    (attach lastLine ws (.comment c)).map f = (attach lastLine ws' (.comment d)).map f := by
  rw [attach, attach, line]
  split
  · exact alike
  · rw [List.map_append, List.map_append, alike, List.map_singleton, List.map_singleton, same]

theorem attach_blanks_alike {lastLine : Nat} (alike : ws.map f = ws'.map f) {b b' : List Char}
    (newlines : b'.count '\n' = b.count '\n') :
    (attach lastLine ws (.blanks b)).map f = (attach lastLine ws' (.blanks b')).map f := by
  rw [attach, attach, newlines]
  split
  · rfl
  · exact alike

end

/-- A block comment with other ends of lines has the same gist. -/
theorem gist_block (body : List Char) {s t : Span} :
    gist ⟨true, String.ofList ('/' :: '*' :: (body ++ ['*', '/'])), s⟩ =
      gist ⟨true, String.ofList ('/' :: '*' :: (Text.crlf body ++ ['*', '/'])), t⟩ := by
  simp only [gist, if_true, String.toList_ofList]
  rw [Documentation.blockLines_crlf (Documentation.blockBody_crlf body)]

/-- A line comment has the same gist with a carriage return at its end. -/
theorem gist_line {l l' : List Char} (h : Text.Returned l l') {s t : Span} :
    gist ⟨false, String.ofList ('/' :: '/' :: l), s⟩ =
      gist ⟨false, String.ofList ('/' :: '/' :: l'), t⟩ := by
  simp only [gist, Bool.false_eq_true, if_false, String.toList_ofList, Documentation.lineBody_eq,
    List.drop_succ_cons, List.drop_zero, List.map_singleton]
  rw [h.apply (f := fun l => Text.trimEnd (Documentation.dropSpace l))
    Documentation.trimEnd_dropSpace_return]

/-- How a gap can go on, in a text and in the text with other ends of lines. -/
theorem next_cases (cs : List Char) :
    (∃ c rest, cs = c :: rest ∧ Lexeme.isSpace c = true) ∨ (∃ rest, cs = '/' :: '/' :: rest) ∨
      (∃ rest, cs = '/' :: '*' :: rest) ∨ (next cs = .done ∧ next (Text.crlf cs) = .done) := by
  cases cs with
  | nil => exact .inr (.inr (.inr ⟨rfl, rfl⟩))
  | cons c cs =>
      by_cases hspace : Lexeme.isSpace c = true
      · exact .inl ⟨c, cs, rfl, hspace⟩
      by_cases hline : c = '/' ∧ cs.head? = some '/'
      · obtain ⟨rest, rfl⟩ := List.head?_eq_some_iff.mp hline.2
        exact .inr (.inl ⟨rest, by rw [hline.1]⟩)
      by_cases hblock : c = '/' ∧ cs.head? = some '*'
      · obtain ⟨rest, rfl⟩ := List.head?_eq_some_iff.mp hblock.2
        exact .inr (.inr (.inl ⟨rest, by rw [hblock.1]⟩))
      have hnext {ds : List Char} (hline : c = '/' → ds.head? ≠ some '/')
          (hblock : c = '/' → ds.head? ≠ some '*') : next (c :: ds) = .done := by
        unfold next
        split
        · rfl
        · rename_i heq
          cases heq
          exact absurd rfl (hline rfl)
        · rename_i heq
          cases heq
          exact absurd rfl (hblock rfl)
        · rename_i heq
          cases heq
          exact if_neg hspace
      have hc : c ≠ '\n' := by
        rintro rfl
        exact hspace rfl
      rw [Text.crlf_cons hc]
      refine .inr (.inr (.inr ⟨hnext ?_ ?_, hnext ?_ ?_⟩))
      · exact fun h => not_and.mp hline h
      · exact fun h => not_and.mp hblock h
      · exact fun h => Text.head?_crlf_ne (by decide) (not_and.mp hline h)
      · exact fun h => Text.head?_crlf_ne (by decide) (not_and.mp hblock h)

/-- What is read of the gaps are comments of the same gists before like places, or errors alike. -/
inductive ReadAlike : Except LexicalError (List Comment × Cursor) →
    Except LexicalError (List Comment × Cursor) → Prop
  | ok {ws ws' : List Comment} {c d : Cursor} (gists : ws.map gist = ws'.map gist)
      (cursors : c.Alike d) (done : next c.rest = .done) : ReadAlike (.ok (ws, c)) (.ok (ws', d))
  | error {e f : LexicalError} (alike : Likeness.inPlace.lexical e f) :
      ReadAlike (.error e) (.error f)

theorem isSpace_of_mem_crlf {b : List Char} (hb : ∀ c ∈ b, Lexeme.isSpace c = true) :
    ∀ c ∈ Text.crlf b, Lexeme.isSpace c = true := by
  intro c hc
  rcases Text.mem_crlf hc with hc | rfl
  · exact hb c hc
  · rfl

theorem not_isSpace_head?_crlf {r : List Char} (hr : ∀ c ∈ r.head?, Lexeme.isSpace c = false) :
    ∀ c ∈ (Text.crlf r).head?, Lexeme.isSpace c = false := by
  cases r with
  | nil => exact nofun
  | cons c cs =>
      have hc : c ≠ '\n' := by
        rintro rfl
        exact absurd (hr _ rfl) (by decide)
      rw [Text.crlf_cons hc]
      exact hr

/-- From each place in a rest of a text on, gaps are read alike. -/
def GoesOn (file : String) (lastLine : Nat) (rest : List Char) : Prop :=
  ∀ after, after <:+ rest → ∀ {p p' : Position}, p.Alike p' → ∀ {ws ws' : List Comment},
    ws.map gist = ws'.map gist → ReadAlike (readFrom file lastLine ws ⟨after, p⟩)
      (readFrom file lastLine ws' ⟨Text.crlf after, p'⟩)

section

variable {file : String} {lastLine : Nat} {ws ws' : List Comment} {p p' : Position}
  {rest : List Char}

/-- Behind blanks with as many newlines, the gaps go on where the blanks end. -/
theorem readAlike_of_blanks {b b' : List Char} (hb : ∀ c ∈ b, Lexeme.isSpace c = true)
    (hb' : ∀ c ∈ b', Lexeme.isSpace c = true) (newlines : b'.count '\n' = b.count '\n')
    (place : (p.advance b).Alike (p'.advance b')) (gists : ws.map gist = ws'.map gist)
    (goesOn : GoesOn file lastLine rest) :
    ReadAlike (readFrom file lastLine ws ⟨b ++ rest, p⟩)
      (readFrom file lastLine ws' ⟨b' ++ Text.crlf rest, p'⟩) := by
  -- The blanks may go on, and all of them are read as one piece.
  obtain ⟨run, after, rfl, hrun, hafter⟩ : ∃ run after, rest = run ++ after ∧
      (∀ c ∈ run, Lexeme.isSpace c = true) ∧ ∀ c ∈ after.head?, Lexeme.isSpace c = false := by
    refine ⟨_, _, (List.takeWhile_append_dropWhile (p := Lexeme.isSpace)).symm,
      List.all_eq_true.mp List.all_takeWhile, fun c hc => ?_⟩
    have hstop := List.head?_dropWhile_not Lexeme.isSpace rest
    rw [Option.mem_def.mp hc] at hstop
    simpa using hstop
  have hcount : (b' ++ Text.crlf run).count '\n' = (b ++ run).count '\n' := by
    rw [List.count_append, List.count_append, newlines, Text.count_newline_crlf]
  have hplace : (p.advance (b ++ run)).Alike (p'.advance (b' ++ Text.crlf run)) := by
    rw [Position.advance_append, Position.advance_append]
    exact place.advance_crlf run
  have hblanks : ∀ c ∈ b ++ run, Lexeme.isSpace c = true :=
    List.forall_mem_append.mpr ⟨hb, hrun⟩
  have hblanks' : ∀ c ∈ b' ++ Text.crlf run, Lexeme.isSpace c = true :=
    List.forall_mem_append.mpr ⟨hb', isSpace_of_mem_crlf hrun⟩
  rw [Text.crlf_append, ← List.append_assoc, ← List.append_assoc,
    readFrom_blanks hblanks hafter, readFrom_blanks hblanks' (not_isSpace_head?_crlf hafter)]
  exact goesOn after (List.suffix_append _ _) hplace (attach_blanks_alike gists hcount)

/-- A line comment takes the carriage return at the end of its line with it, so the newline comes
next in both texts. -/
theorem readAlike_of_line {l : List Char} (oneLine : '\n' ∉ l)
    (stops : ∀ c ∈ rest.head?, c = '\n') (place : p.Alike p') (gists : ws.map gist = ws'.map gist)
    (goesOn : GoesOn file lastLine rest) :
    ReadAlike (readFrom file lastLine ws ⟨'/' :: '/' :: l ++ rest, p⟩)
      (readFrom file lastLine ws' ⟨'/' :: '/' :: l ++ Text.crlf rest, p'⟩) := by
  have hopened : '\n' ∉ '/' :: '/' :: l := by simpa using oneLine
  obtain ⟨s, hs, hread⟩ := @readFrom_comment file lastLine ws p l rest oneLine stops
  cases rest with
  | nil =>
      obtain ⟨s', hs', hread'⟩ := @readFrom_comment file lastLine ws' p' l [] oneLine nofun
      have hadded := attach_alike lastLine gists
        (gist_line (.inl rfl : Text.Returned l l) (s := s) (t := s'))
        (by rw [hs, hs', place.line])
      have hplace := place.advance_crlf ('/' :: '/' :: l)
      rw [Text.crlf_eq_self hopened] at hplace
      rw [Text.crlf_nil, hread, hread']
      exact goesOn [] (List.suffix_refl _) hplace hadded
  | cons c rest =>
      obtain rfl := stops c rfl
      have hreturn : '\n' ∉ l ++ ['\r'] := by simpa using oneLine
      obtain ⟨s', hs', hread'⟩ := @readFrom_comment file lastLine ws' p' (l ++ ['\r'])
        ('\n' :: Text.crlf rest) hreturn (by simp)
      have hadded := attach_alike lastLine gists
        (gist_line (.inr rfl : Text.Returned l (l ++ ['\r'])) (s := s) (t := s'))
        (by rw [hs, hs', place.line])
      have hline : (p.advance ('/' :: '/' :: l)).line =
          (p'.advance ('/' :: '/' :: (l ++ ['\r']))).line := by
        rw [Position.line_advance hopened, Position.line_advance (by simpa using hreturn),
          place.line]
      have hnewline : ∀ c ∈ ['\n'], Lexeme.isSpace c = true := by simp [Lexeme.isSpace]
      have hgoes : GoesOn file lastLine rest := fun after h =>
        goesOn after (h.trans (List.suffix_cons _ _))
      rw [hread, show '/' :: '/' :: l ++ Text.crlf ('\n' :: rest) =
        '/' :: '/' :: (l ++ ['\r']) ++ '\n' :: Text.crlf rest by simp, hread']
      exact readAlike_of_blanks hnewline hnewline rfl ⟨congrArg (· + 1) hline, rfl⟩ hadded hgoes

/-- A block comment ends in both texts or in neither. -/
theorem readAlike_of_block (place : p.Alike p') (gists : ws.map gist = ws'.map gist)
    (goesOn : GoesOn file lastLine rest) :
    ReadAlike (readFrom file lastLine ws ⟨'/' :: '*' :: rest, p⟩)
      (readFrom file lastLine ws' ⟨'/' :: '*' :: Text.crlf rest, p'⟩) := by
  have hclosed := closedLength?_crlf rest
  cases hn : closedLength? rest with
  | none =>
      rw [hn, Option.map_none] at hclosed
      have hnext {cs : List Char} (h : closedLength? cs = none) :
          next ('/' :: '*' :: cs) = .unterminated := by
        rw [next, h]
      rw [readFrom_of_next_unterminated (hnext hn), readFrom_of_next_unterminated (hnext hclosed)]
      exact .error ⟨rfl, rfl, place.line, place.column⟩
  | some n =>
      obtain ⟨body, after, rfl, rfl, -⟩ := closedLength?_eq_some hn
      have hcrlf : Text.crlf (body ++ ['*', '/'] ++ after) =
          Text.crlf body ++ ['*', '/'] ++ Text.crlf after := by
        rw [Text.crlf_append, Text.crlf_append]
        rfl
      rw [hn, Option.map_some, hcrlf, show body.length + 2 = (body ++ ['*', '/']).length by simp,
        List.take_left, Text.crlf_append] at hclosed
      have hnext {b cs : List Char} (h : closedLength? (b ++ ['*', '/'] ++ cs) =
          some (b ++ ['*', '/']).length) : next ('/' :: '*' :: (b ++ ['*', '/']) ++ cs) =
            .comment true ('/' :: '*' :: (b ++ ['*', '/'])).length := by
        rw [List.cons_append, List.cons_append, next, h]
        simp [Nat.add_comm, Nat.add_left_comm]
      obtain ⟨s, hs, hread⟩ := @readFrom_comment_append file lastLine ws p _ _ _
        (hnext (by rw [hn, List.length_append]; rfl))
      obtain ⟨s', hs', hread'⟩ := @readFrom_comment_append file lastLine ws' p' _ _ _
        (hnext hclosed)
      have hplace := place.advance_crlf ('/' :: '*' :: (body ++ ['*', '/']))
      rw [Text.crlf_cons (by decide), Text.crlf_cons (by decide), Text.crlf_append] at hplace
      have hadded := attach_alike lastLine gists
        (gist_block body (s := s) (t := s')) (by rw [hs, hs', place.line])
      rw [hcrlf]
      show ReadAlike (readFrom file lastLine ws ⟨'/' :: '*' :: (body ++ ['*', '/']) ++ after, p⟩)
        (readFrom file lastLine ws'
          ⟨'/' :: '*' :: (Text.crlf body ++ ['*', '/']) ++ Text.crlf after, p'⟩)
      rw [hread, hread']
      exact goesOn after (List.suffix_append _ _) hplace hadded

end

/-- Gaps are read alike. -/
theorem readAlike_readFrom (file : String) (lastLine : Nat) {c d : Cursor} (h : c.Alike d)
    {ws ws' : List Comment} (gists : ws.map gist = ws'.map gist) :
    ReadAlike (readFrom file lastLine ws c) (readFrom file lastLine ws' d) := by
  obtain ⟨cs, p⟩ := c
  obtain ⟨ds, p'⟩ := d
  obtain ⟨rfl, hplace⟩ := h
  induction hn : cs.length using Nat.strongRecOn generalizing cs p p' ws ws' with
  | ind n ih =>
  dsimp only at hplace ⊢
  have hgoes {rest : List Char} (hlt : rest.length < cs.length) : GoesOn file lastLine rest :=
    fun after h p p' hp _ _ hws =>
      ih after.length (hn ▸ Nat.lt_of_le_of_lt h.length_le hlt) hws after p p' hp rfl
  rcases next_cases cs with ⟨c, rest, rfl, hspace⟩ | ⟨rest, rfl⟩ | ⟨rest, rfl⟩ | ⟨hdone, hdone'⟩
  · have hc : ∀ d ∈ [c], Lexeme.isSpace d = true := by simpa using hspace
    rw [← List.singleton_append, Text.crlf_append]
    exact readAlike_of_blanks hc (isSpace_of_mem_crlf hc) (Text.count_newline_crlf _)
      (hplace.advance_crlf _) gists (hgoes (Nat.lt_succ_self _))
  · obtain ⟨l, r, rfl, hl, hcrlf, hr, -⟩ := Lexeme.exists_firstLine rest
    rw [Text.crlf_cons (by decide), Text.crlf_cons (by decide), hcrlf]
    refine readAlike_of_line hl hr hplace gists (hgoes ?_)
    rw [List.length_cons, List.length_cons, List.length_append]
    omega
  · rw [Text.crlf_cons (by decide), Text.crlf_cons (by decide)]
    refine readAlike_of_block hplace gists (hgoes ?_)
    rw [List.length_cons, List.length_cons]
    omega
  · rw [readFrom_of_next_done hdone, readFrom_of_next_done hdone']
    exact .ok gists ⟨rfl, hplace⟩ hdone

theorem length_rest_readFrom {file : String} {lastLine : Nat} {waiting ws : List Comment}
    {c after : Cursor} (h : readFrom file lastLine waiting c = .ok (ws, after)) :
    after.rest.length ≤ c.rest.length := by
  rw [readFrom] at h
  cases hread : read file c with
  | error e =>
      rw [hread] at h
      cases h
  | ok r =>
      rw [hread] at h
      cases h
      exact length_rest_read hread

theorem ne_newline_of_done {c : Char} {cs : List Char} (h : next (c :: cs) = .done) : c ≠ '\n' := by
  rintro rfl
  rw [next_of_isSpace rfl] at h
  cases h

end Gap

/-! ### Tokens -/

namespace Lexed

/-- From like places on, the tokens are alike. -/
theorem alike_readFrom (file : String) (lastLine : Nat) {c d : Cursor} (h : c.Alike d) :
    Likeness.inPlace.Lexed (readFrom file lastLine c) (readFrom file lastLine d) := by
  induction hn : c.rest.length using Nat.strongRecOn generalizing lastLine c d with
  | ind n ih =>
  have hgap := Gap.readAlike_readFrom file lastLine h (rfl : [].map Documentation.gist = [].map _)
  rw [readFrom_eq_resume, readFrom_eq_resume, resume, resume]
  generalize hx : Gap.readFrom file lastLine [] c = x, Gap.readFrom file lastLine [] d = y at hgap
  cases hgap with
  | error alike => exact ⟨.nil, .some alike⟩
  | @ok ws ws' c' d' gists cursors done =>
      have hle := Gap.length_rest_readFrom hx
      have hdocumentation := Documentation.ofComments_of_gists gists
      dsimp only
      rw [readAt, readAt, cursors.rest]
      cases hrest : c'.rest with
      | nil => exact ⟨.cons ⟨⟨rfl, rfl, hdocumentation⟩, cursors.span file 0 0⟩ .nil, .none⟩
      | cons ch cs =>
          rw [hrest] at done
          have hch := Gap.ne_newline_of_done done
          rw [Text.crlf_cons hch]
          dsimp only
          rcases Lexeme.scan_crlf hch cs with ⟨s, hs, hs', hline⟩ | ⟨e, e', he, he', hcause⟩
          · have hpos := Lexeme.scan_length_pos hs
            rw [← hrest] at hline
            have hafter := cursors.advance hline
            have hlt : (c'.advance s.length).rest.length < n := by
              rw [Cursor.length_rest_advance, hrest, List.length_cons]
              rw [hrest, List.length_cons] at hle
              omega
            have hrec := ih _ hlt (c'.advance s.length).position.line hafter rfl
            rw [hs, hs']
            dsimp only
            rw [← hafter.place.line]
            exact ⟨.cons ⟨⟨rfl, rfl, hdocumentation⟩, cursors.span file _ _⟩ hrec.tokens,
              hrec.failure⟩
          · rw [he, he']
            exact ⟨.nil, .some ⟨hcause, cursors.span file _ _⟩⟩

/-- How the lines of a text end does not show in its tokens. -/
theorem alike_ofText_crlf (file : String) (source : List Char) :
    Likeness.inPlace.Lexed (ofText file source) (ofText file (Text.crlf source)) :=
  alike_readFrom file 0 ⟨rfl, rfl, rfl⟩

end Lexed

end Proto2

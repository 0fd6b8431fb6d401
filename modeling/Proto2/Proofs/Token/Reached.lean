import Proto2.Proofs.Layout.Lexed
import Proto2.Proofs.Token.Account
import Proto2.Proofs.Token.Longest

/-!
What the lexer makes of the places that it comes to.

The lexer comes to a place if some tokens are read before it and behind the last of these there is
nothing but white space and complete comments.  At such a place it reads the longest lexeme, passes
over white space and comments, reads a string literal, or reports what stands there.
-/

namespace Proto2

namespace Cursor

@[simp] theorem advance_zero (c : Cursor) : c.advance 0 = c := rfl

theorem advance_add (c : Cursor) (n m : Nat) : c.advance (n + m) = (c.advance n).advance m := by
  simp only [advance, List.drop_drop, List.take_add, Position.advance_append]

end Cursor

/-- The line on which the last of some tokens ends, given the one before them. -/
def Token.endLine (n : Nat) : List Token → Nat
  | [] => n
  | t :: ts => endLine t.span.stop.line ts

namespace Gap

variable {file : String} {c after : Cursor} {pieces : List Piece}

/-! ### The ends of gaps -/

/-- A gap is read up to a place where it does not go on. -/
theorem next_of_read (h : read file c = .ok (pieces, after)) : next after.rest = .done := by
  fun_induction read file c generalizing pieces with
  | case1 c here =>
      cases h
      exact here
  | case2 => cases h
  | case3 c n here pieces' after' hread ih =>
      cases h
      exact ih hread
  | case4 => cases h
  | case5 c block n here comment =>
      rename_i hread ih
      cases h
      exact ih hread
  | case6 => cases h

theorem cause_of_read_error {e : LexicalError} (h : read file c = .error e) :
    e.cause = .unterminatedComment := by
  fun_induction read file c with
  | case1 => cases h
  | case2 =>
      cases h
      rfl
  | case3 => cases h
  | case4 c n here e' hread ih =>
      cases h
      exact ih hread
  | case5 => cases h
  | case6 c block n here comment =>
      rename_i hread ih
      cases h
      exact ih hread

/-- A gap does not go on at a character that is no white space and opens no comment. -/
theorem next_eq_done_iff {ch : Char} {cs : List Char} :
    next (ch :: cs) = .done ↔ Lexeme.isSpace ch = false ∧ ¬['/', '/'] <+: ch :: cs ∧
      ¬['/', '*'] <+: ch :: cs := by
  unfold next
  split
  · rename_i heq
    cases heq
  · rename_i heq
    cases heq
    simp
  · rename_i heq
    cases heq
    split <;> simp
  · rename_i d ds noLine noBlock heq
    cases heq
    have hline : ¬['/', '/'] <+: ch :: cs := by
      rintro ⟨rest, hrest⟩
      cases hrest
      exact noLine rest rfl rfl
    have hblock : ¬['/', '*'] <+: ch :: cs := by
      rintro ⟨rest, hrest⟩
      cases hrest
      exact noBlock rest rfl rfl
    cases hspace : Lexeme.isSpace ch <;> simp [hline, hblock]

/-- A complete comment is read as such. -/
theorem next_of_isComment {text after : List Char} (h : IsComment text after) :
    ∃ block, next (text ++ after) = .comment block text.length := by
  cases h with
  | line oneLine stops => exact ⟨false, next_line oneLine stops⟩
  | @block body after notClosed =>
      refine ⟨true, ?_⟩
      have hclosed : closedLength? (body ++ ['*', '/'] ++ after) = some (body.length + 2) := by
        rw [List.append_assoc]
        exact closedLength?_of_not_infix notClosed after
      rw [List.cons_append, List.cons_append, next, hclosed]
      simp only [List.length_cons, List.length_append, List.length_nil]
      congr 1
      omega

/-! ### Reading on from within a gap -/

/-- The place behind a gap. -/
def past (file : String) (c : Cursor) : Except LexicalError Cursor :=
  (read file c).map Prod.snd

theorem past_eq_ok_iff : past file c = .ok after ↔ ∃ pieces, read file c = .ok (pieces, after) := by
  unfold past
  cases read file c with
  | error e => simp [Except.map]
  | ok found =>
      obtain ⟨pieces, after'⟩ := found
      simp [Except.map]

theorem past_of_next_blanks {n : Nat} (h : next c.rest = .blanks n) :
    past file c = past file (c.advance n) := by
  rw [past, past, read_of_next_blanks h]
  cases read file (c.advance n) <;> rfl

theorem past_of_next_comment {block : Bool} {n : Nat} (h : next c.rest = .comment block n) :
    past file c = past file (c.advance n) := by
  rw [past, past, read_of_next_comment h]
  cases read file (c.advance n) <;> rfl

/-- A run of white space may be entered behind its first character. -/
theorem past_of_isSpace {ch : Char} {cs : List Char} (rest : c.rest = ch :: cs)
    (space : Lexeme.isSpace ch = true) : past file c = past file (c.advance 1) := by
  have hrest : (c.advance 1).rest = cs := by
    show c.rest.drop 1 = cs
    rw [rest, List.drop_one, List.tail_cons]
  have hnext : next c.rest = .blanks (1 + Lexeme.runLength Lexeme.isSpace cs) := by
    rw [rest, next_of_isSpace space]
  rw [past_of_next_blanks hnext, Cursor.advance_add]
  cases cs with
  | nil => rfl
  | cons d ds =>
      rcases Bool.eq_false_or_eq_true (Lexeme.isSpace d) with hspace | hspace
      · have hrun : Lexeme.runLength Lexeme.isSpace (d :: ds) =
            1 + Lexeme.runLength Lexeme.isSpace ds := by
          rw [Lexeme.runLength, Lexeme.runLength, List.takeWhile_cons_of_pos hspace,
            List.length_cons, Nat.add_comm]
        have hgoesOn : next (c.advance 1).rest =
            .blanks (Lexeme.runLength Lexeme.isSpace (d :: ds)) := by
          rw [hrest, next_of_isSpace hspace, hrun]
        rw [past_of_next_blanks hgoesOn]
      · have hrun : Lexeme.runLength Lexeme.isSpace (d :: ds) = 0 := by
          rw [Lexeme.runLength, List.takeWhile_cons_of_neg (by simp [hspace]), List.length_nil]
        rw [hrun, Cursor.advance_zero]

/-- Wherever in a gap reading starts, it comes to the same place. -/
theorem past_of_isGap {gap rest : List Char} (h : IsGap gap rest) (hrest : c.rest = gap ++ rest) :
    past file c = past file (c.advance gap.length) := by
  -- Along the gap.  It names white space one character at a time, while the lexer takes runs of it.
  induction h generalizing c with
  | nil => rfl
  | @blank ch gap rest space _ ih =>
      have hbehind : (c.advance 1).rest = gap ++ rest := by
        show c.rest.drop 1 = _
        rw [hrest, List.cons_append, List.drop_one, List.tail_cons]
      rw [past_of_isSpace hrest space, ih hbehind, ← Cursor.advance_add, List.length_cons,
        Nat.add_comm]
  | @comment text gap rest isComment _ ih =>
      rw [List.append_assoc] at hrest
      obtain ⟨block, hnext⟩ := next_of_isComment isComment
      rw [← hrest] at hnext
      have hbehind : (c.advance text.length).rest = gap ++ rest := by
        show c.rest.drop text.length = _
        rw [hrest, List.drop_left]
      rw [past_of_next_comment hnext, ih hbehind, ← Cursor.advance_add, List.length_append]

end Gap

namespace Lexed

variable {file : String} {source : List Char}

/-! ### Reading on behind some of the tokens -/

/-- The first token stands behind the gap, and the lexer goes on behind it. -/
theorem exists_of_readFrom_cons {lastLine : Nat} {c : Cursor} {t : Token} {ts : List Token}
    (tokens : (readFrom file lastLine c).tokens = t :: ts) :
    ∃ pieces c', Gap.read file c = .ok (pieces, c') ∧ t.span.start = c'.position ∧
      t.comments = Gap.attached lastLine pieces ∧
      (t.kind ≠ .endOfInput → ∃ n, t.span.stop = (c'.advance n).position ∧
        readFrom file lastLine c = (readFrom file t.span.stop.line (c'.advance n)).push t) := by
  generalize hl : readFrom file lastLine c = l at tokens ⊢
  rw [readFrom] at hl
  split at hl
  · subst hl
    cases tokens
  · rename_i pieces c' hgap
    dsimp only at hl
    split at hl
    · subst hl
      cases tokens
      exact ⟨pieces, c', hgap, rfl, rfl, fun hkind => absurd rfl hkind⟩
    · split at hl
      · subst hl
        cases tokens
      · rename_i s hscan
        subst hl
        cases tokens
        exact ⟨pieces, c', hgap, rfl, rfl, fun _ => ⟨s.length, rfl, rfl⟩⟩

/-- Behind some of its tokens, a text is read on from where the last of these ends. -/
theorem exists_readFrom_append {lastLine : Nat} {c : Cursor} (hc : c.IsIn source)
    {before after : List Token} (tokens : (readFrom file lastLine c).tokens = before ++ after)
    (inText : ∀ t ∈ before, t.kind ≠ .endOfInput) :
    ∃ c', c'.IsIn source ∧ c'.position.offset = Token.endOffset c.position.offset before ∧
      (readFrom file (Token.endLine lastLine before) c').tokens = after ∧
      (readFrom file (Token.endLine lastLine before) c').failure =
        (readFrom file lastLine c).failure := by
  -- Along the tokens: each leads from one place to the next, and gives the line it ends on.
  induction before generalizing lastLine c with
  | nil => exact ⟨c, hc, rfl, tokens, rfl⟩
  | cons t before ih =>
      rw [List.forall_mem_cons] at inText
      obtain ⟨pieces, c', hgap, -, -, hrest⟩ := exists_of_readFrom_cons tokens
      obtain ⟨n, hstop, heq⟩ := hrest inText.1
      rw [heq, tokens_push] at tokens
      obtain ⟨c₁, hin, hoffset, htokens, hfailure⟩ :=
        ih ((Gap.passes_of_read hc hgap).isIn.advance n) (List.cons.inj tokens).2 inText.2
      refine ⟨c₁, hin, ?_, htokens, ?_⟩
      · rw [hoffset, Token.endOffset, hstop]
      · rw [heq, failure_push]
        exact hfailure

/-! ### What cannot be read -/

/-- A character is unexpected just if it is no quote and no lexeme starts with it. -/
theorem scan_eq_unexpected_iff {c ch : Char} {cs : List Char} :
    (∃ n, Lexeme.scan c cs = .error ⟨.unexpectedCharacter ch, n⟩) ↔
      c = ch ∧ (ch ≠ '"' ∧ ch ≠ '\'') ∧ Lexeme.plain? (c :: cs) = none := by
  refine Iff.trans ?_ (and_congr_right fun heq => by rw [← heq, ← not_or])
  unfold Lexeme.scan
  split
  case isTrue hquote => split <;> simp [hquote]
  case isFalse hquote => split <;> simp_all

theorem readFrom_of_read {lastLine : Nat} {c c' : Cursor} {pieces : List Gap.Piece}
    (h : Gap.read file c = .ok (pieces, c')) :
    readFrom file lastLine c = readAt file (Gap.attached lastLine pieces) c' := by
  rw [readFrom_eq_resume, resume, Gap.readFrom, h]
  rfl

/-- An error behind a token is behind the place where the token starts. -/
theorem offset_lt_of_failure_readFrom {c : Cursor} (hc : c.IsIn source) {ch : Char}
    {cs : List Char} (hrest : c.rest = ch :: cs) {s : Lexeme.Scanned}
    (hscan : Lexeme.scan ch cs = .ok s) {lastLine : Nat} {e : LexicalError}
    (h : (readFrom file lastLine (c.advance s.length)).failure = some e) :
    c.position.offset < e.span.start.offset := by
  have hle := ((covers_readFrom lastLine (hc.advance s.length)).failure h).2.1
  have hpos := Lexeme.scan_length_pos hscan
  rw [Cursor.offset_advance, hrest, List.length_take, List.length_cons] at hle
  omega

/-- An error behind a gap is not before the place where the gap ends. -/
theorem offset_le_of_failure_readAt {comments : List Comment} {c : Cursor} (hc : c.IsIn source)
    {e : LexicalError} (h : (readAt file comments c).failure = some e) :
    c.position.offset ≤ e.span.start.offset := by
  unfold readAt at h
  split at h
  · cases h
  · rename_i hrest
    split at h
    · cases h
      exact Nat.le_refl _
    · rename_i hscan
      exact (offset_lt_of_failure_readFrom hc hrest hscan h).le

/-- Where a gap ends, the next character is unexpected just if nothing is read there. -/
theorem failure_readAt_iff {comments : List Comment} {c : Cursor} (hc : c.IsIn source)
    {ch : Char} :
    (∃ e, (readAt file comments c).failure = some e ∧
        e.span.start.offset = c.position.offset ∧ e.cause = .unexpectedCharacter ch) ↔
      c.rest.head? = some ch ∧ (ch ≠ '"' ∧ ch ≠ '\'') ∧ Lexeme.plain? c.rest = none := by
  unfold readAt
  split
  case h_1 hrest => simp [hrest]
  case h_2 d ds hrest =>
    rw [hrest, List.head?_cons, Option.some_inj, ← scan_eq_unexpected_iff]
    split
    case h_1 e hscan =>
      rw [hscan]
      constructor
      · rintro ⟨_, ⟨⟩, -, hcause⟩
        exact ⟨e.length, by rw [← hcause]⟩
      · rintro ⟨n, heq⟩
        cases heq
        exact ⟨_, rfl, rfl, rfl⟩
    case h_2 s hscan =>
      rw [hscan]
      constructor
      · rintro ⟨e, hfailure, hstart, -⟩
        exact absurd hstart (offset_lt_of_failure_readFrom hc hrest hscan hfailure).ne'
      · rintro ⟨n, heq⟩
        cases heq

/-- At the end of the text that is passed over, the next character is unexpected just if nothing
else can be read there. -/
theorem failure_readFrom_iff {lastLine : Nat} {c : Cursor} (hc : c.IsIn source)
    {gap rest : List Char} (hgap : Gap.IsGap gap rest) (hrest : c.rest = gap ++ rest) {ch : Char} :
    (∃ e, (readFrom file lastLine c).failure = some e ∧
        e.span.start.offset = c.position.offset + gap.length ∧ e.cause = .unexpectedCharacter ch) ↔
      (rest.head? = some ch ∧ (ch ≠ '"' ∧ ch ≠ '\'') ∧ Lexeme.plain? rest = none) ∧
        Gap.next rest = .done := by
  have hpast : Gap.past file c = Gap.past file (c.advance gap.length) :=
    Gap.past_of_isGap hgap hrest
  have hbehind : (c.advance gap.length).rest = rest := by
    show c.rest.drop gap.length = rest
    rw [hrest, List.drop_left]
  have hoffset : (c.advance gap.length).position.offset = c.position.offset + gap.length := by
    rw [Cursor.offset_advance, hrest, List.take_left]
  rw [← hoffset, ← hbehind]
  constructor
  · rintro ⟨e, hfailure, hstart, hcause⟩
    cases hread : Gap.read file c with
    | error e' =>
        rw [readFrom, hread] at hfailure
        cases hfailure
        rw [Gap.cause_of_read_error hread] at hcause
        cases hcause
    | ok found =>
        obtain ⟨pieces, c'⟩ := found
        rw [Gap.past_eq_ok_iff.mpr ⟨pieces, hread⟩] at hpast
        obtain ⟨pieces', hread'⟩ := Gap.past_eq_ok_iff.mp hpast.symm
        have hpasses := Gap.passes_of_read (hc.advance gap.length) hread'
        rw [readFrom_of_read hread] at hfailure
        -- The lexer may pass over more than the gap at hand, but not over the place of the error.
        have hle := offset_le_of_failure_readAt hpasses.isIn hfailure
        have hge := hpasses.offset_le (hc.advance gap.length)
        have hsame : c'.position.offset = (c.advance gap.length).position.offset := by omega
        have hrest' : c'.rest = (c.advance gap.length).rest := by
          rw [← hpasses.isIn.drop_offset, hsame, (hc.advance gap.length).drop_offset]
        rw [← hrest']
        exact ⟨(failure_readAt_iff hpasses.isIn).mp ⟨e, hfailure, hstart.trans hsame.symm, hcause⟩,
          Gap.next_of_read hread⟩
  · rintro ⟨hstops, hdone⟩
    rw [Gap.past_eq_ok_iff.mpr ⟨[], Gap.read_of_next_done hdone⟩] at hpast
    obtain ⟨pieces, hread⟩ := Gap.past_eq_ok_iff.mp hpast
    rw [readFrom_of_read hread]
    exact (failure_readAt_iff (hc.advance gap.length)).mpr hstops

/-! ### The tokens of a text -/

/-- A text goes on with a character at which nothing starts: no lexeme, no white space, no comment
and no string literal. -/
structure StartsNothing (rest : List Char) (c : Char) : Prop where
  head : rest.head? = some c
  noLexeme : ∀ kind text, text <+: rest → ¬Lexeme.IsLexeme kind text
  noSpace : Lexeme.isSpace c = false
  noComment : ¬['/', '/'] <+: rest ∧ ¬['/', '*'] <+: rest
  noQuote : c ≠ '"' ∧ c ≠ '\''

theorem startsNothing_iff {rest : List Char} {c : Char} :
    StartsNothing rest c ↔ (rest.head? = some c ∧ (c ≠ '"' ∧ c ≠ '\'') ∧
      Lexeme.plain? rest = none) ∧ Gap.next rest = .done := by
  rw [Lexeme.plain?_eq_none_iff]
  constructor
  · rintro ⟨head, noLexeme, noSpace, noComment, noQuote⟩
    obtain ⟨cs, rfl⟩ := List.head?_eq_some_iff.mp head
    exact ⟨⟨head, noQuote, noLexeme⟩, Gap.next_eq_done_iff.mpr ⟨noSpace, noComment⟩⟩
  · rintro ⟨⟨head, noQuote, noLexeme⟩, hdone⟩
    obtain ⟨cs, rfl⟩ := List.head?_eq_some_iff.mp head
    obtain ⟨noSpace, noComment⟩ := Gap.next_eq_done_iff.mp hdone
    exact ⟨head, noLexeme, noSpace, noComment, noQuote⟩

/-- The lexer comes to an offset of a text: from its start or from the end of a token on, there are
only white space and complete comments before the offset. -/
def Reaches (file : String) (source : List Char) (n : Nat) : Prop :=
  ∃ before, before <+: (ofText file source).tokens ∧ (∀ t ∈ before, t.kind ≠ .endOfInput) ∧
    Token.endOffset 0 before ≤ n ∧ n ≤ source.length ∧
    Gap.IsGap (between source (Token.endOffset 0 before) n) (source.drop n)

theorem isLongest_of_scan {c : Char} {cs : List Char} {s : Lexeme.Scanned}
    (h : Lexeme.scan c cs = .ok s) (kind : s.kind ≠ .string) :
    Lexeme.IsLongest (c :: cs) s.kind s.lexeme := by
  unfold Lexeme.scan at h
  split at h
  · split at h <;> cases h
    exact absurd rfl kind
  · split at h <;> cases h
    rename_i hplain
    exact Lexeme.isLongest_of_plain? hplain

theorem isLongest_readFrom {lastLine : Nat} {c : Cursor} (hc : c.IsIn source) :
    ∀ t ∈ (readFrom file lastLine c).tokens, t.kind ≠ .string → t.kind ≠ .endOfInput →
      Lexeme.IsLongest (source.drop t.span.start.offset) t.kind t.lexeme.toList := by
  fun_induction readFrom file lastLine c with
  | case1 => simp
  | case2 => simp
  | case3 => simp
  | case4 lastLine c pieces c' hgap comments ch cs hrest s hscan after ih =>
      have hin := (Gap.passes_of_read hc hgap).isIn
      intro t hmem hstring hend
      rcases List.mem_cons.mp hmem with rfl | hmem
      · have hstart : source.drop c'.position.offset = ch :: cs := hin.drop_offset.trans hrest
        show Lexeme.IsLongest (source.drop c'.position.offset) s.kind
          (String.ofList s.lexeme).toList
        rw [hstart, String.toList_ofList]
        exact isLongest_of_scan hscan hstring
      · exact ih (hin.advance s.length) t hmem hstring hend

theorem unexpected_iff_of_reaches {n : Nat} (h : Reaches file source n) (ch : Char) :
    (∃ e, (ofText file source).failure = some e ∧ e.span.start.offset = n ∧
        e.cause = .unexpectedCharacter ch) ↔
      StartsNothing (source.drop n) ch := by
  obtain ⟨before, ⟨after, htokens⟩, inText, hle, hlast, hgap⟩ := h
  obtain ⟨c, hin, hoffset, -, hfailure⟩ :=
    exists_readFrom_append (Cursor.isIn_start source) htokens.symm inText
  change c.position.offset = Token.endOffset 0 before at hoffset
  rw [← hoffset] at hle hgap
  have hrest : c.rest = between source c.position.offset n ++ source.drop n := by
    rw [← hin.drop_offset, between_append_drop hle]
  have hlength : c.position.offset + (between source c.position.offset n).length = n := by
    rw [between, List.length_take, List.length_drop]
    omega
  have hunexpected := @failure_readFrom_iff file source (Token.endLine 0 before) c hin _ _ hgap
    hrest ch
  rw [hlength] at hunexpected
  rw [ofText, ← hfailure, hunexpected, startsNothing_iff]

theorem isGap_of_unexpected {lastLine : Nat} {c : Cursor} (hc : c.IsIn source) {e : LexicalError}
    {ch : Char} (h : (readFrom file lastLine c).failure = some e)
    (cause : e.cause = .unexpectedCharacter ch) :
    let n := Token.endOffset c.position.offset (readFrom file lastLine c).tokens
    n ≤ e.span.start.offset ∧ e.span.start.offset ≤ source.length ∧
      Gap.IsGap (between source n e.span.start.offset) (source.drop e.span.start.offset) := by
  fun_induction readFrom file lastLine c with
  | case1 lastLine c e' hgap =>
      cases h
      rw [Gap.cause_of_read_error hgap] at cause
      cases cause
  | case2 => cases h
  | case3 lastLine c pieces c' hgap d ds hrest e' hscan =>
      cases h
      have hpasses := Gap.passes_of_read hc hgap
      exact ⟨hpasses.offset_le hc, hpasses.isIn.isExact.offset_le, hpasses.between_isGap hc⟩
  | case4 lastLine c pieces c' hgap comments d ds hrest s hscan after ih =>
      exact ih ((Gap.passes_of_read hc hgap).isIn.advance s.length) h

/-- The lexer comes to the places of unexpected characters. -/
theorem reaches_of_unexpected {e : LexicalError} {ch : Char}
    (h : (ofText file source).failure = some e) (cause : e.cause = .unexpectedCharacter ch) :
    Reaches file source e.span.start.offset := by
  refine ⟨_, List.prefix_refl _, fun t ht isEnd => ?_,
    isGap_of_unexpected (Cursor.isIn_start source) h cause⟩
  rw [failure_eq_none ht isEnd] at h
  cases h

/-- Every token that is neither a string literal nor the end of the input is the longest lexeme
where it stands; and an unexpected character is reported at places that the lexer comes to, at each
of them just if nothing starts there. -/
theorem longest_lexemes_ofText (file : String) (source : List Char) :
    (∀ t ∈ (ofText file source).tokens, t.kind ≠ .string → t.kind ≠ .endOfInput →
      Lexeme.IsLongest (source.drop t.span.start.offset) t.kind t.lexeme.toList) ∧
    (∀ e c, (ofText file source).failure = some e → e.cause = .unexpectedCharacter c →
      Reaches file source e.span.start.offset) ∧
    ∀ n, Reaches file source n → ∀ c,
      (∃ e, (ofText file source).failure = some e ∧ e.span.start.offset = n ∧
        e.cause = .unexpectedCharacter c) ↔ StartsNothing (source.drop n) c :=
  ⟨isLongest_readFrom (Cursor.isIn_start source), fun _ _ => reaches_of_unexpected,
    fun _ => unexpected_iff_of_reaches⟩

/-- Digits and `e` are no number without an exponent, so the identifier is a token of its own. -/
theorem longest_lexemes_ofText_exponents :
    let source := "1.e5 1e @".toList
    (Lexeme.IsLongest source .float "1.e5".toList ∧
      Lexeme.IsLongest (source.drop 5) .integer "1".toList) ∧
    (∃ e, (ofText "f.proto" source).failure = some e ∧ e.span.start.offset = 8 ∧
      e.cause = .unexpectedCharacter '@') ∧ StartsNothing (source.drop 8) '@' := by
  intro source
  obtain ⟨hlongest, hreaches, hunexpected⟩ := longest_lexemes_ofText "f.proto" source
  let e : LexicalError := ⟨⟨"f.proto", ⟨8, 1, 9⟩, ⟨9, 1, 10⟩⟩, .unexpectedCharacter '@'⟩
  have hfailure : (ofText "f.proto" source).failure = some e := by decide +kernel
  have hreported : ∃ e, (ofText "f.proto" source).failure = some e ∧ e.span.start.offset = 8 ∧
      e.cause = .unexpectedCharacter '@' := ⟨e, hfailure, rfl, rfl⟩
  have hfloat := hlongest ⟨.float, "1.e5", ⟨"f.proto", ⟨0, 1, 1⟩, ⟨4, 1, 5⟩⟩, []⟩
    (by decide +kernel) (by decide) (by decide)
  have hinteger := hlongest ⟨.integer, "1", ⟨"f.proto", ⟨5, 1, 6⟩, ⟨6, 1, 7⟩⟩, []⟩
    (by decide +kernel) (by decide) (by decide)
  exact ⟨⟨hfloat, hinteger⟩, hreported,
    (hunexpected 8 (hreaches e '@' hfailure rfl) '@').mp hreported⟩

end Lexed

end Proto2

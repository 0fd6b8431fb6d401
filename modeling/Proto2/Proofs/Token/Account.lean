import Proto2.Proofs.Token.Gap

/-!
How the tokens of a source text account for it.

The text is covered from its start: behind each token a gap leads to the next one, until the text
ends or something in it cannot be read.  What is covered stands where the spans say, so the
tokens follow one another in the order of the text, and nothing between them is left out.
-/

namespace Proto2

namespace Lexeme

theorem Quotation.push_eq_closed {cs body : List Char} {q : Quotation}
    (h : q.push cs = .closed body) : ∃ body', q = .closed body' ∧ body = cs ++ body' := by
  cases q with
  | closed body' =>
      cases h
      exact ⟨body', rfl, rfl⟩
  | unclosed => cases h

theorem quotation_closed {quote : Char} {cs body : List Char}
    (h : quotation quote cs = .closed body) : ∃ after, cs = body ++ quote :: after := by
  fun_induction quotation quote cs generalizing body with
  | case1 => cases h
  | case2 => cases h
  | case3 => cases h
  | case4 c cs _ ih =>
      obtain ⟨body', hbody, rfl⟩ := Quotation.push_eq_closed h
      obtain ⟨after, rfl⟩ := ih hbody
      exact ⟨after, rfl⟩
  | case5 cs =>
      cases h
      exact ⟨cs, rfl⟩
  | case6 => cases h
  | case7 c cs _ _ _ _ ih =>
      obtain ⟨body', hbody, rfl⟩ := Quotation.push_eq_closed h
      obtain ⟨after, rfl⟩ := ih hbody
      exact ⟨after, rfl⟩

theorem ne_string_of_plain? {cs : List Char} {kind : TokenKind} {n : Nat}
    (h : plain? cs = some (kind, n)) : kind ≠ .string := by
  rcases plain?_cases h with ⟨rfl, -⟩ | rfl | ⟨rfl, -⟩ | ⟨c, -, hsymbol⟩
  · decide
  · decide
  · decide
  · have hkind := ofSymbol?_kind hsymbol
    simp only [List.mem_cons, not_or] at hkind
    exact hkind.2.2.2.1

end Lexeme

/-- The text of a token in a source: a string literal stands between quotes of one kind, and
every other token is written as its lexeme. -/
def Token.IsWritten (t : Token) (text : List Char) : Prop :=
  if t.kind = .string then
    ∃ quote, (quote = '"' ∨ quote = '\'') ∧ text = quote :: (t.lexeme.toList ++ [quote])
  else text = t.lexeme.toList

theorem Lexeme.isWritten_of_scan {c : Char} {cs : List Char} {s : Scanned}
    (h : scan c cs = .ok s) {t : Token} (kind : t.kind = s.kind)
    (lexeme : t.lexeme = String.ofList s.lexeme) : t.IsWritten ((c :: cs).take s.length) := by
  unfold Token.IsWritten
  rw [kind, lexeme, String.toList_ofList]
  unfold scan at h
  split at h
  case isTrue hquote =>
    split at h <;> cases h
    rename_i body hclosed
    obtain ⟨after, rfl⟩ := quotation_closed hclosed
    refine ⟨c, hquote, ?_⟩
    have hlength : body.length + 2 = (body ++ [c]).length + 1 := by simp
    rw [hlength, List.take_succ_cons, ← List.singleton_append (x := c) (l := after),
      ← List.append_assoc, List.take_left]
  case isFalse =>
    split at h <;> cases h
    rename_i found
    dsimp only
    rw [if_neg (ne_string_of_plain? found)]

/-- The token is the next one behind an offset of a source text: it stands where its span says,
and what is before it is a gap, in which its comments are. -/
structure Token.Follows (file : String) (source : List Char) (n : Nat) (t : Token) : Prop where
  isExact : t.span.IsExact file source
  behind : n ≤ t.span.start.offset
  isGap : Gap.IsGap (between source n t.span.start.offset) (source.drop t.span.start.offset)
  comments : ∀ c ∈ t.comments, c.LiesIn file source n t.span.start.offset
  isWritten : t.IsWritten (t.span.text source)

/-- The offset behind the last of some tokens, given the one before them. -/
def Token.endOffset (n : Nat) : List Token → Nat
  | [] => n
  | t :: ts => endOffset t.span.stop.offset ts

namespace Lexed

/-- The tokens cover a source text from an offset on, up to its end or to an error. -/
inductive Covers (file : String) (source : List Char) : Nat → Lexed → Prop
  | ended {n : Nat} {t : Token} :
      t.Follows file source n → t.kind = .endOfInput → t.span.start.offset = source.length →
      t.span.stop = t.span.start → Covers file source n ⟨[t], none⟩
  | failed {n : Nat} {e : LexicalError} :
      e.span.IsExact file source → n ≤ e.span.start.offset → Covers file source n ⟨[], some e⟩
  | push {n : Nat} {t : Token} {l : Lexed} :
      t.Follows file source n → t.kind ≠ .endOfInput →
      t.span.start.offset < t.span.stop.offset → Covers file source t.span.stop.offset l →
      Covers file source n (l.push t)

variable {file : String} {source : List Char}

/-- A token behind a gap. -/
theorem follows_of_passes {c c' : Cursor} {pieces : List Gap.Piece} (hc : c.IsIn source)
    (h : Gap.Passes file source c pieces c') (kind : TokenKind) (lexeme : String) (n lastLine : Nat)
    (written : Token.IsWritten ⟨kind, lexeme, c'.span file n, Gap.attached lastLine pieces⟩
      (c'.rest.take n)) :
    Token.Follows file source c.position.offset
      ⟨kind, lexeme, c'.span file n, Gap.attached lastLine pieces⟩ where
  isExact := h.isIn.span_isExact file n
  behind := h.offset_le hc
  isGap := h.between_isGap hc
  comments := fun d hd => h.comments d (Gap.mem_of_mem_attached hd)
  isWritten := by
    rw [h.isIn.text_span]
    exact written

theorem covers_readFrom (lastLine : Nat) {c : Cursor} (hc : c.IsIn source) :
    Covers file source c.position.offset (readFrom file lastLine c) := by
  fun_induction readFrom file lastLine c with
  | case1 lastLine c e hgap =>
      obtain ⟨hexact, hle⟩ := Gap.isExact_of_read_error hc hgap
      exact .failed hexact hle
  | case2 lastLine c pieces c' hgap comments hrest =>
      have hpasses := Gap.passes_of_read hc hgap
      have hend := hpasses.isIn.offset_add_length
      rw [hrest] at hend
      refine .ended (follows_of_passes hc hpasses _ _ _ _ ?_) rfl hend rfl
      rw [hrest]
      rfl
  | case3 lastLine c pieces c' hgap ch cs hrest e hscan =>
      have hpasses := Gap.passes_of_read hc hgap
      exact .failed (hpasses.isIn.span_isExact file e.length) (hpasses.offset_le hc)
  | case4 lastLine c pieces c' hgap comments ch cs hrest s hscan after ih =>
      have hpasses := Gap.passes_of_read hc hgap
      refine .push (follows_of_passes hc hpasses _ _ _ _ ?_) (Lexeme.scan_cases hscan).1 ?_
        (ih (hpasses.isIn.advance s.length))
      · rw [hrest]
        exact Lexeme.isWritten_of_scan hscan rfl rfl
      · show c'.position.offset < (c'.advance s.length).position.offset
        have hpos := Lexeme.scan_length_pos hscan
        rw [Cursor.offset_advance, hrest, List.length_take, List.length_cons]
        omega

/-- The tokens of a text cover it from its start. -/
theorem covers_ofText (file : String) (source : List Char) :
    Covers file source 0 (ofText file source) :=
  covers_readFrom 0 (Cursor.isIn_start source)

/-! ### What is covered -/

section

variable {n : Nat} {l : Lexed}

theorem Covers.follows (h : Covers file source n l) :
    ∀ t ∈ l.tokens, ∃ m, n ≤ m ∧ t.Follows file source m := by
  induction h with
  | ended ht =>
      intro t hmem
      rw [List.mem_singleton.mp hmem]
      exact ⟨_, Nat.le_refl _, ht⟩
  | failed => simp
  | push ht _ hstrict _ ih =>
      intro u hmem
      rcases List.mem_cons.mp hmem with rfl | hmem
      · exact ⟨_, Nat.le_refl _, ht⟩
      · obtain ⟨m, hm, hu⟩ := ih u hmem
        have hbehind := ht.behind
        exact ⟨m, by omega, hu⟩

theorem Covers.behind (h : Covers file source n l) :
    ∀ t ∈ l.tokens, n ≤ t.span.start.offset := by
  intro t hmem
  obtain ⟨m, hm, ht⟩ := h.follows t hmem
  exact Nat.le_trans hm ht.behind

/-- An error is behind all tokens that can be read. -/
theorem Covers.failure (h : Covers file source n l) {e : LexicalError} (he : l.failure = some e) :
    e.span.IsExact file source ∧ n ≤ e.span.start.offset ∧
      ∀ t ∈ l.tokens, t.span.stop.offset ≤ e.span.start.offset := by
  induction h with
  | ended => cases he
  | failed hexact hle =>
      cases he
      exact ⟨hexact, hle, by simp⟩
  | push ht _ hstrict _ ih =>
      obtain ⟨hexact, hle, hall⟩ := ih he
      have hbehind := ht.behind
      refine ⟨hexact, by omega, ?_⟩
      intro u hmem
      rcases List.mem_cons.mp hmem with rfl | hmem
      · exact hle
      · exact hall u hmem

/-- The tokens stand one behind the other. -/
theorem Covers.pairwise (h : Covers file source n l) :
    l.tokens.Pairwise fun t u => t.span.stop.offset ≤ u.span.start.offset := by
  induction h with
  | ended => exact List.pairwise_singleton _ _
  | failed => exact .nil
  | push _ _ _ hrest ih => exact .cons hrest.behind ih

/-- All tokens but the end of the input have text. -/
theorem Covers.start_lt_stop (h : Covers file source n l) :
    ∀ t ∈ l.tokens, t.kind ≠ .endOfInput → t.span.start.offset < t.span.stop.offset := by
  induction h with
  | ended _ hkind =>
      intro t hmem hne
      rw [List.mem_singleton.mp hmem] at hne
      exact absurd hkind hne
  | failed => simp
  | push _ _ hstrict _ ih =>
      intro u hmem hne
      rcases List.mem_cons.mp hmem with rfl | hmem
      · exact hstrict
      · exact ih u hmem hne

/-- What comes behind some of the tokens follows the last of these. -/
theorem Covers.follows_endOffset (h : Covers file source n l) {before after : List Token}
    {t : Token} (tokens : l.tokens = before ++ t :: after) :
    t.Follows file source (Token.endOffset n before) := by
  induction h generalizing before with
  | ended ht =>
      cases before with
      | nil =>
          cases tokens
          exact ht
      | cons u before => simp at tokens
  | failed => simp at tokens
  | push ht _ _ _ ih =>
      cases before with
      | nil =>
          cases tokens
          exact ht
      | cons u before =>
          obtain ⟨rfl, hrest⟩ := List.cons.inj tokens
          exact ih hrest

/-- Without an error, the tokens end with the end of the input, where the text ends. -/
theorem Covers.ends (h : Covers file source n l) (hnone : l.failure = none) :
    ∃ ts e, l.tokens = ts ++ [e] ∧ (∀ t ∈ ts, t.kind ≠ .endOfInput) ∧ e.kind = .endOfInput ∧
      e.span.start.offset = source.length ∧ e.span.stop = e.span.start := by
  induction h with
  | ended _ hkind hend hempty => exact ⟨[], _, rfl, by simp, hkind, hend, hempty⟩
  | failed => cases hnone
  | @push _ t _ _ hne _ _ ih =>
      obtain ⟨ts, e, htokens, hts, he⟩ := ih hnone
      refine ⟨t :: ts, e, ?_, List.forall_mem_cons.mpr ⟨hne, hts⟩, he⟩
      rw [tokens_push, htokens, List.cons_append]

end

/-- The tokens of a source text without lexical errors account for it.  They end with the end of
the input and stand one behind the other; each has the text of its span, and before it there are
only white space and complete comments, among which are those attached to it. -/
structure Accounts (file : String) (source : List Char) (tokens : List Token) : Prop where
  ends : ∃ ts e, tokens = ts ++ [e] ∧ (∀ t ∈ ts, t.kind ≠ .endOfInput) ∧ e.kind = .endOfInput ∧
    e.span.start.offset = source.length ∧ e.span.stop = e.span.start
  pairwise : tokens.Pairwise fun t u => t.span.stop.offset ≤ u.span.start.offset
  start_lt_stop : ∀ t ∈ tokens, t.kind ≠ .endOfInput → t.span.start.offset < t.span.stop.offset
  follows : ∀ before t after, tokens = before ++ t :: after →
    t.Follows file source (Token.endOffset 0 before)

/-- Lexing loses nothing of a text that it accepts. -/
theorem accounts_ofText (file : String) (source : List Char)
    (h : (ofText file source).failure = none) :
    Accounts file source (ofText file source).tokens where
  ends := (covers_ofText file source).ends h
  pairwise := (covers_ofText file source).pairwise
  start_lt_stop := (covers_ofText file source).start_lt_stop
  follows := fun _ _ _ => (covers_ofText file source).follows_endOffset

/-- A string with an escaped quote in it, between comments that look like other things. -/
theorem accounts_ofText_commented :
    let source := "// 'a' in \"b\"\nimport 'c//\\'d'; /* e; // */ -0x1F\n".toList
    ((ofText "f.proto" source).tokens.map (·.lexeme) = ["import", "c//\\'d", ";", "-0x1F", ""] ∧
      (ofText "f.proto" source).failure = none) ∧
      Accounts "f.proto" source (ofText "f.proto" source).tokens :=
  ⟨by decide +kernel, accounts_ofText "f.proto" _ (by decide +kernel)⟩

end Lexed

end Proto2

import Proto2.Proofs.Token.Continued

/-!
Texts that spell a token, wherever the lexer comes to them.

Whatever has been read before such a text and whatever stands behind it, so long as that cannot
lengthen it, there is one token from its start to its end, and the lexer goes on right behind it.
The text of a string between double quotes, with escapes, is a case: a backslash in the string or a
quote never ends the literal, and what the literal denotes is the string.
-/

namespace Proto2

theorem Token.endOffset_concat (n : Nat) (ts : List Token) (t : Token) :
    endOffset n (ts ++ [t]) = t.span.stop.offset := by
  induction ts generalizing n with
  | nil => rfl
  | cons u ts ih => exact ih u.span.stop.offset

namespace Lexed

variable {file : String} {source : List Char} {n : Nat}

/-- The token stands from one offset of a text to the other, and no other token does. -/
structure StandsAlone (file : String) (source : List Char) (n m : Nat) (t : Token) : Prop where
  start : t.span.start.offset = n
  stop : t.span.stop.offset = m
  others : ∃ before after, (ofText file source).tokens = before ++ t :: after ∧
    (∀ u ∈ before, u.span.stop.offset ≤ n) ∧ ∀ u ∈ after, m ≤ u.span.start.offset

theorem standsAlone_of_tokens {before after : List Token} {t : Token}
    (htokens : (ofText file source).tokens = before ++ t :: after) :
    StandsAlone file source t.span.start.offset t.span.stop.offset t := by
  have hpairwise := (covers_ofText file source).pairwise
  rw [htokens, List.pairwise_append, List.pairwise_cons] at hpairwise
  obtain ⟨-, ⟨hbehind, -⟩, hbefore⟩ := hpairwise
  exact ⟨rfl, rfl, before, after, htokens, fun u hu => hbefore u hu t List.mem_cons_self, hbehind⟩

/-- The lexer comes to the end of every token. -/
theorem reaches_of_tokens {before after : List Token} {t : Token}
    (htokens : (ofText file source).tokens = before ++ t :: after)
    (inText : ∀ u ∈ before ++ [t], u.kind ≠ .endOfInput)
    (bounded : t.span.stop.offset ≤ source.length) :
    Reaches file source t.span.stop.offset := by
  refine ⟨before ++ [t], ⟨after, ?_⟩, inText, ?_⟩
  · rw [htokens, List.append_assoc, List.singleton_append]
  · rw [Token.endOffset_concat, between, Nat.sub_self, List.take_zero]
    exact ⟨Nat.le_refl _, bounded, .nil _⟩

/-- Where the lexer comes to and no gap goes on, it reads a token or reports what stands there. -/
theorem Reaches.exists_readAt (h : Reaches file source n)
    (stops : Gap.next (source.drop n) = .done) :
    ∃ before comments c, c.IsIn source ∧ c.position.offset = n ∧
      (∀ t ∈ before, t.kind ≠ .endOfInput) ∧
      (ofText file source).tokens = before ++ (readAt file comments c).tokens := by
  obtain ⟨before, ⟨after, htokens⟩, inText, hle, hlast, hgap⟩ := h
  obtain ⟨c, hin, hoffset, hafter, -⟩ :=
    exists_readFrom_append (Cursor.isIn_start source) htokens.symm inText
  change c.position.offset = Token.endOffset 0 before at hoffset
  rw [← hoffset] at hle hgap
  let gap := between source c.position.offset n
  have hrest : c.rest = gap ++ source.drop n := by
    rw [← hin.drop_offset, between_append_drop hle]
  have hbehind : (c.advance gap.length).rest = source.drop n := by
    show c.rest.drop gap.length = _
    rw [hrest, List.drop_left]
  have hplace : (c.advance gap.length).position.offset = n := by
    have hlength : gap.length = n - c.position.offset := by
      simp only [gap, between, List.length_take, List.length_drop]
      omega
    rw [Cursor.offset_advance, hrest, List.take_left, hlength]
    omega
  -- The whole gap is read at once, and it ends where the part of it that is known does.
  rw [← hbehind] at stops
  have hpast : Gap.past file c = .ok (c.advance gap.length) := by
    rw [Gap.past_of_isGap hgap hrest, Gap.past_eq_ok_iff]
    exact ⟨[], Gap.read_of_next_done stops⟩
  obtain ⟨pieces, hread⟩ := Gap.past_eq_ok_iff.mp hpast
  refine ⟨before, Gap.attached (Token.endLine 0 before) pieces, _, hin.advance gap.length, hplace,
    inText, ?_⟩
  rw [← htokens, ← hafter, readFrom_of_read hread]

/-- A text that spells a token is read as that token where the lexer comes to it, and the lexer
comes to its end. -/
theorem Reaches.exists_standsAlone (h : Reaches file source n) {text lexeme rest : List Char}
    {kind : TokenKind} (spells : Lexeme.Spells text kind lexeme)
    (hdrop : source.drop n = text ++ rest) (fits : ∀ c ∈ rest.head?, kind.mayPrecede c = true) :
    ∃ t, StandsAlone file source n (n + text.length) t ∧ t.kind = kind ∧
      t.lexeme = String.ofList lexeme ∧ Reaches file source (n + text.length) := by
  obtain ⟨ch, cs, rfl, hspace, hslash⟩ := spells.start
  have hscan := spells.scans ch cs rest rfl fits
  have hdone : Gap.next (source.drop n) = .done := by
    refine Gap.next_of_atToken fun d hd => ?_
    rw [hdrop] at hd
    cases hd
    exact ⟨hspace, hslash⟩
  obtain ⟨before, comments, c, hin, hplace, inText, htokens⟩ := h.exists_readAt hdone
  have hrest : c.rest = ch :: (cs ++ rest) := by
    rw [← hin.drop_offset, hplace, hdrop, List.cons_append]
  let t : Token := ⟨kind, String.ofList lexeme, c.span file (ch :: cs).length, comments⟩
  have hstop : t.span.stop.offset = n + (ch :: cs).length := by
    show (c.advance (ch :: cs).length).position.offset = _
    rw [Cursor.offset_advance, hrest, hplace, ← List.cons_append, List.take_left]
  obtain ⟨after, hafter⟩ : ∃ after, (readAt file comments c).tokens = t :: after := by
    have hc : c = ⟨ch :: (cs ++ rest), c.position⟩ := by rw [← hrest]
    rw [hc, readAt_of_scan hscan, tokens_push, ← hc]
    exact ⟨_, rfl⟩
  rw [hafter] at htokens
  have hle : n + (ch :: cs).length ≤ source.length := by
    have hlength := congrArg List.length hdrop
    rw [List.length_drop, List.length_append] at hlength
    simp only [List.length_cons] at hlength ⊢
    omega
  have hinText : ∀ u ∈ before ++ [t], u.kind ≠ .endOfInput := by
    rw [List.forall_mem_append, List.forall_mem_singleton]
    exact ⟨inText, (Lexeme.scan_cases hscan).1⟩
  have halone : StandsAlone file source n (n + (ch :: cs).length) t := by
    have hhere : StandsAlone file source c.position.offset t.span.stop.offset t :=
      standsAlone_of_tokens htokens
    rwa [hplace, hstop] at hhere
  refine ⟨t, halone, rfl, rfl, ?_⟩
  rw [← hstop] at hle ⊢
  exact reaches_of_tokens htokens hinText hle

/-- A string is written without newlines, and where the lexer comes to the text of it, this is one
token up to the closing quote, which denotes the string. -/
theorem written_string_read_back (s : String) :
    let body := StringBody.encode s.toList
    let literal := '"' :: body ++ ['"']
    '\n' ∉ literal ∧
    ∀ (file : String) (source : List Char) (n : Nat), Reaches file source n →
      literal <+: source.drop n →
      ∃ t, StandsAlone file source n (n + literal.length) t ∧ t.kind = .string ∧
        t.lexeme = String.ofList body ∧ StringBody.decode t.lexeme.toList = .ok s.toList ∧
        Reaches file source (n + literal.length) := by
  intro body literal
  have hspells := Lexeme.spells_encode s.toList
  refine ⟨hspells.oneLine, fun file source n reaches hliteral => ?_⟩
  obtain ⟨rest, hrest⟩ := hliteral
  obtain ⟨t, alone, hkind, hlexeme, hreaches⟩ :=
    reaches.exists_standsAlone hspells hrest.symm fun _ _ => rfl
  have hdecode : StringBody.decode t.lexeme.toList = .ok s.toList := by
    rw [hlexeme, String.toList_ofList, StringBody.decode_encode]
  exact ⟨t, alone, hkind, hlexeme, hdecode, hreaches⟩

/-- Backslashes before a quote, digits, `x` and the end of the string, behind a token and a
comment. -/
theorem written_string_read_back_backslashes :
    let s := "\\\"\\\\7\\x41\n\\"
    let literal := '"' :: StringBody.encode s.toList ++ ['"']
    let source := "=/**/".toList ++ literal ++ "7".toList
    ∃ t, StandsAlone "f.proto" source 5 (5 + literal.length) t ∧ t.kind = .string ∧
      StringBody.decode t.lexeme.toList = .ok s.toList := by
  intro s literal source
  have hreaches : Reaches "f.proto" source 5 := by
    refine ⟨(ofText "f.proto" source).tokens.take 1, List.take_prefix _ _, by decide +kernel,
      by decide +kernel, by decide +kernel, ?_⟩
    have hgap : between source (Token.endOffset 0 ((ofText "f.proto" source).tokens.take 1)) 5 =
        ['/', '*', '*', '/'] ++ [] := by
      decide +kernel
    have hstillOpen : ¬['*', '/'] <:+: ([] : List Char) := by decide
    rw [hgap]
    exact .comment (.block hstillOpen) (.nil _)
  obtain ⟨t, alone, hkind, -, hdecode, -⟩ :=
    (written_string_read_back s).2 "f.proto" source 5 hreaches ⟨['7'], by decide +kernel⟩
  exact ⟨t, alone, hkind, hdecode⟩

end Lexed

end Proto2

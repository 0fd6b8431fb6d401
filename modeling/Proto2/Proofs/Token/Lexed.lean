import Proto2.Proofs.Token.Lexeme
import Proto2.Token.Stream

/-!
The tokens that a text can have.

All of them but the last are read from the text, and the last one is the end of the input if
there is no lexical error.
-/

namespace Proto2

namespace Lexed

/-- A token that is read from a text: its kind and lexeme come from a scan. -/
def IsScanned (t : Token) : Prop :=
  ∃ c cs s, Lexeme.scan c cs = .ok s ∧ t.kind = s.kind ∧ t.lexeme = String.ofList s.lexeme

theorem IsScanned.kind_ne_endOfInput {t : Token} (h : IsScanned t) : t.kind ≠ .endOfInput := by
  obtain ⟨c, cs, s, hs, hkind, -⟩ := h
  rw [hkind]
  exact (Lexeme.scan_cases hs).1

theorem IsScanned.integerForm {t : Token} (h : IsScanned t) (kind : t.kind = .integer) :
    Lexeme.IntegerForm t.lexeme.toList := by
  obtain ⟨c, cs, s, hs, hkind, hlexeme⟩ := h
  simpa [hlexeme] using (Lexeme.scan_cases hs).2.1 (hkind ▸ kind)

theorem IsScanned.identifierForm {t : Token} (h : IsScanned t) (kind : t.kind = .identifier) :
    Lexeme.IdentifierForm t.lexeme.toList := by
  obtain ⟨c, cs, s, hs, hkind, hlexeme⟩ := h
  simpa [hlexeme] using (Lexeme.scan_cases hs).2.2 (hkind ▸ kind)

/-- Tokens read from the text, then the end of the input unless there is an error. -/
def WellFormed (l : Lexed) : Prop :=
  ∃ ts, (∀ t ∈ ts, IsScanned t) ∧
    ((∃ e, l.tokens = ts ++ [e] ∧ e.kind = .endOfInput ∧ l.failure = none) ∨
      (l.tokens = ts ∧ l.failure.isSome))

theorem WellFormed.push {l : Lexed} {t : Token} (ht : IsScanned t) (h : WellFormed l) :
    WellFormed (l.push t) := by
  obtain ⟨ts, hts, h⟩ := h
  refine ⟨t :: ts, ?_, ?_⟩
  · intro u hu
    rcases List.mem_cons.mp hu with rfl | hu
    · exact ht
    · exact hts u hu
  · rcases h with ⟨e, heq, he, hf⟩ | ⟨heq, hf⟩
    · exact .inl ⟨e, by simp [heq], he, by simpa using hf⟩
    · exact .inr ⟨by simp [heq], by simpa using hf⟩

theorem wellFormed_readFrom (file : String) (lastLine : Nat) (c : Cursor) :
    WellFormed (readFrom file lastLine c) := by
  fun_induction readFrom file lastLine c with
  | case1 => exact ⟨[], by simp, .inr ⟨rfl, rfl⟩⟩
  | case2 => exact ⟨[], by simp, .inl ⟨_, rfl, rfl, rfl⟩⟩
  | case3 => exact ⟨[], by simp, .inr ⟨rfl, rfl⟩⟩
  | case4 lastLine c pieces c' gap comments ch cs rest s scanned after ih =>
      exact ih.push ⟨ch, cs, s, scanned, rfl, rfl⟩

/-- The tokens of a text. -/
theorem wellFormed_ofText (file : String) (source : List Char) :
    WellFormed (ofText file source) :=
  wellFormed_readFrom file 0 _

/-- A token of a text that is not the end of the input is read by a scan. -/
theorem isScanned_of_mem {file : String} {source : List Char} {t : Token}
    (mem : t ∈ (ofText file source).tokens) (other : t.kind ≠ .endOfInput) : IsScanned t := by
  obtain ⟨ts, hts, ⟨e, htokens, hend, -⟩ | ⟨htokens, -⟩⟩ := wellFormed_ofText file source
  · rw [htokens, List.mem_append, List.mem_singleton] at mem
    rcases mem with mem | rfl
    · exact hts t mem
    · exact absurd hend other
  · exact hts t (htokens ▸ mem)

end Lexed

/-! ### Comments -/

/-- The comment is a block comment or has no newline in it. -/
def Comment.IsLexed (c : Comment) : Prop :=
  c.block = false → '\n' ∉ c.text.toList

namespace Gap

theorem not_newline_of_next {cs : List Char} {n : Nat} (h : next cs = .comment false n) :
    '\n' ∉ cs.take n := by
  unfold next at h
  split at h
  · cases h
  · rename_i cs
    cases h
    rw [Nat.add_comm, List.take_succ_cons, List.take_succ_cons, Lexeme.take_runLength]
    have hall := List.all_takeWhile (p := (· != '\n')) (l := cs)
    simp only [List.mem_cons, not_or]
    exact ⟨by decide, by decide, fun hc => by simpa using List.all_eq_true.mp hall _ hc⟩
  · split at h <;> cases h
  · split at h <;> cases h

section

variable {file : String} {c : Cursor}

theorem read_of_next_done (h : next c.rest = .done) : read file c = .ok ([], c) := by
  rw [read]
  split <;> rename_i heq <;> rw [h] at heq <;> cases heq

theorem read_of_next_unterminated (h : next c.rest = .unterminated) :
    read file c = .error ⟨c.span file c.rest.length, .unterminatedComment⟩ := by
  rw [read]
  split <;> rename_i heq <;> rw [h] at heq <;> cases heq

theorem read_of_next_blanks {n : Nat} (h : next c.rest = .blanks n) :
    read file c = (read file (c.advance n)).map fun (pieces, after) =>
      (.blanks (c.rest.take n) :: pieces, after) := by
  rw [read]
  split <;> rename_i heq <;> rw [h] at heq <;> cases heq
  cases read file (c.advance n) <;> rfl

theorem read_of_next_comment {block : Bool} {n : Nat} (h : next c.rest = .comment block n) :
    read file c = (read file (c.advance n)).map fun (pieces, after) =>
      (.comment ⟨block, String.ofList (c.rest.take n), c.span file n⟩ :: pieces, after) := by
  rw [read]
  split <;> rename_i heq <;> rw [h] at heq <;> cases heq
  dsimp only
  cases read file (c.advance n) <;> rfl

end

theorem isLexed_of_read {file : String} {c after : Cursor} {pieces : List Piece}
    (h : read file c = .ok (pieces, after)) : ∀ d, .comment d ∈ pieces → d.IsLexed := by
  fun_induction read file c generalizing pieces with
  | case1 => simp_all
  | case2 => cases h
  | case3 =>
    rename_i read_ok ih
    cases h
    simpa using ih read_ok
  | case4 => cases h
  | case5 c block n hnext comment =>
    rename_i read_ok ih
    cases h
    intro d hd
    rcases List.mem_cons.mp hd with heq | hd
    · cases heq
      rintro rfl
      simpa [comment] using not_newline_of_next hnext
    · exact ih read_ok d hd
  | case6 => cases h

theorem mem_of_mem_attach {lastLine : Nat} {waiting : List Comment} {p : Piece} {c : Comment}
    (h : c ∈ attach lastLine waiting p) : c ∈ waiting ∨ .comment c = p := by
  unfold attach at h
  split at h
  · split at h
    · cases h
    · exact .inl h
  · split at h
    · exact .inl h
    · rcases List.mem_append.mp h with h | h
      · exact .inl h
      · exact .inr (by rw [List.mem_singleton.mp h])

theorem mem_of_mem_attached {lastLine : Nat} {pieces : List Piece} {c : Comment}
    (h : c ∈ attached lastLine pieces) : .comment c ∈ pieces := by
  suffices key : ∀ waiting, c ∈ pieces.foldl (attach lastLine) waiting →
      c ∈ waiting ∨ .comment c ∈ pieces from (key [] h).resolve_left List.not_mem_nil
  clear h
  induction pieces with
  | nil => exact fun _ => .inl
  | cons p pieces ih =>
      intro waiting hc
      rcases ih _ hc with hc | hc
      · rcases mem_of_mem_attach hc with hc | rfl
        · exact .inl hc
        · exact .inr (by simp)
      · exact .inr (by simp [hc])

end Gap

theorem Lexed.isLexed_of_mem {file : String} {lastLine : Nat} {c : Cursor} {t : Token}
    (h : t ∈ (readFrom file lastLine c).tokens) : ∀ d ∈ t.comments, d.IsLexed := by
  fun_induction readFrom file lastLine c with
  | case1 => cases h
  | case2 lastLine c pieces c' gap comments rest =>
      rw [List.mem_singleton.mp h]
      exact fun d hd => Gap.isLexed_of_read gap d (Gap.mem_of_mem_attached hd)
  | case3 => cases h
  | case4 lastLine c pieces c' gap comments ch cs rest s scanned after ih =>
      rcases List.mem_cons.mp h with rfl | h
      · exact fun d hd => Gap.isLexed_of_read gap d (Gap.mem_of_mem_attached hd)
      · exact ih h

/-- The tokens of a text without lexical errors, the end of the input apart. -/
def TokensOf (file : String) (source : List Char) (ts : List Token) (e : Token) : Prop :=
  Lexed.ofText file source = ⟨ts ++ [e], none⟩ ∧ e.isEnd = true

theorem Lexed.exists_tokensOf {file : String} {source : List Char}
    (h : (Lexed.ofText file source).failure = none) : ∃ ts e, TokensOf file source ts e := by
  obtain ⟨ts, -, ⟨e, htokens, he, -⟩ | ⟨-, hsome⟩⟩ := Lexed.wellFormed_ofText file source
  · exact ⟨ts, e, by rw [← htokens, ← h], by simpa [Token.isEnd] using he⟩
  · simp [h] at hsome

/-- If the end of the input is among the tokens of a text, there is no lexical error. -/
theorem Lexed.failure_eq_none {file : String} {source : List Char} {t : Token}
    (mem : t ∈ (Lexed.ofText file source).tokens) (isEnd : t.kind = .endOfInput) :
    (Lexed.ofText file source).failure = none := by
  obtain ⟨ts, hts, ⟨e, -, -, hnone⟩ | ⟨htokens, -⟩⟩ := Lexed.wellFormed_ofText file source
  · exact hnone
  · exact absurd isEnd (hts t (htokens ▸ mem)).kind_ne_endOfInput

theorem TokensOf.isScanned {file : String} {source : List Char} {ts : List Token} {e : Token}
    (tokens : TokensOf file source ts e) : ∀ t ∈ ts, Lexed.IsScanned t := by
  obtain ⟨us, hus, ⟨e', htokens, -, -⟩ | ⟨-, hsome⟩⟩ := Lexed.wellFormed_ofText file source
  · rw [tokens.1] at htokens
    cases (List.append_inj' htokens rfl).1
    exact hus
  · rw [tokens.1] at hsome
    cases hsome

/-- The end of the input comes last only. -/
theorem TokensOf.eq_of_suffix {file : String} {source : List Char} {ts us : List Token}
    {e e' : Token} (tokens : TokensOf file source ts e) (suffix : e' :: us <:+ ts ++ [e])
    (isEnd : e'.kind = .endOfInput) : e' = e ∧ us = [] := by
  obtain ⟨ds, hds⟩ := suffix
  rcases List.eq_nil_or_concat us with rfl | ⟨vs, w, rfl⟩
  · exact ⟨by simpa using (List.append_inj' hds rfl).2, rfl⟩
  · have heq : ts ++ [e] = ds ++ e' :: vs ++ [w] := by simpa using hds.symm
    have hts := (List.append_inj' heq rfl).1
    exact absurd isEnd (tokens.isScanned e' (by simp [hts])).kind_ne_endOfInput

end Proto2

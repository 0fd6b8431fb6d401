import Proto2.Proofs.Token.Scan

/-!
Lexemes and what stands behind them.

Neither a number nor an identifier nor a symbol goes on behind white space, so how much of a text
such a lexeme takes does not depend on what stands behind the first blank.
-/

namespace Proto2

namespace Lexeme

/-- The characters that are white space. -/
def blanks : List Char :=
  [' ', '\t', '\r', '\n', '\x0c', '\x0b']

/-- What holds of each of these characters holds of white space. -/
theorem forall_isSpace {p : Char → Bool} (h : blanks.all p = true) {c : Char}
    (hc : isSpace c = true) : p c = true := by
  refine List.all_eq_true.mp h c ?_
  simpa [isSpace, blanks, or_assoc] using hc

theorem signLength_cons_append (c : Char) (cs r : List Char) :
    signLength (c :: cs ++ r) = signLength (c :: cs) := by
  by_cases hplus : c = '+'
  · subst hplus
    rfl
  by_cases hminus : c = '-'
  · subst hminus
    rfl
  · simp [signLength, hplus, hminus]

theorem signLength_le (cs : List Char) : signLength cs ≤ cs.length := by
  unfold signLength
  split <;> simp

theorem runLength_le (p : Char → Bool) (cs : List Char) : runLength p cs ≤ cs.length :=
  (List.takeWhile_prefix p).length_le

section

variable {r : List Char} (stops : ∀ c ∈ r.head?, isSpace c = true)

include stops

theorem runLength_append_blank {p : Char → Bool}
    (hp : blanks.all (!p ·) = true) (l : List Char) :
    runLength p (l ++ r) = runLength p l := by
  have hr : runLength p r = 0 :=
    runLength_eq_zero fun c hc => by simpa using forall_isSpace hp (stops c hc)
  induction l with
  | nil => exact hr
  | cons c cs ih =>
      simp only [runLength, List.cons_append, List.takeWhile_cons] at ih ⊢
      split
      · simp [ih]
      · rfl

theorem signLength_append_blank (l : List Char) : signLength (l ++ r) = signLength l := by
  cases l with
  | cons c cs => exact signLength_cons_append c cs r
  | nil =>
      cases r with
      | nil => rfl
      | cons c cs =>
          have hc := forall_isSpace (p := fun c => c != '+' && c != '-') (by decide) (stops c rfl)
          simp only [Bool.and_eq_true, bne_iff_ne] at hc
          simp [signLength, hc]

theorem drop_signLength_append_blank (l : List Char) :
    (l ++ r).drop (signLength (l ++ r)) = l.drop (signLength l) ++ r := by
  rw [signLength_append_blank stops, List.drop_append_of_le_length (signLength_le l)]

theorem drop_runLength_append_blank {p : Char → Bool}
    (hp : blanks.all (!p ·) = true) (l : List Char) :
    (l ++ r).drop (runLength p (l ++ r)) = l.drop (runLength p l) ++ r := by
  rw [runLength_append_blank stops hp, List.drop_append_of_le_length (runLength_le p l)]

theorem integerLength_append_blank (l : List Char) : integerLength (l ++ r) = integerLength l := by
  unfold integerLength
  dsimp only
  rw [drop_signLength_append_blank stops, signLength_append_blank stops,
    runLength_append_blank stops (by decide)]

theorem hexadecimalLength_append_blank (l : List Char) :
    hexadecimalLength (l ++ r) = hexadecimalLength l := by
  unfold hexadecimalLength
  dsimp only
  rw [drop_signLength_append_blank stops, signLength_append_blank stops]
  generalize l.drop (signLength l) = body
  match body with
  | [] =>
      cases r with
      | nil => rfl
      | cons c cs =>
          have hc := forall_isSpace (p := (· != '0')) (by decide) (stops c rfl)
          simp only [bne_iff_ne] at hc
          simp [hc]
  | [d] =>
      cases r with
      | nil => rfl
      | cons c cs =>
          have hc := forall_isSpace (p := fun c => c != 'x' && c != 'X') (by decide) (stops c rfl)
          simp only [Bool.and_eq_true, bne_iff_ne] at hc
          by_cases hd : d = '0'
          · subst hd
            simp [hc]
          · simp [hd]
  | d :: x :: digits =>
      by_cases hd : d = '0'
      · subst hd
        simp only [List.cons_append, runLength_append_blank stops (p := isHexDigit) (by decide)]
      · simp [hd]

theorem exponentLength_append_blank (l : List Char) :
    exponentLength (l ++ r) = exponentLength l := by
  cases l with
  | nil =>
      exact exponentLength_eq_zero fun c hc => by
        simpa using forall_isSpace (p := (!isIdentifierPart ·)) (by decide) (stops c hc)
  | cons e cs =>
      rw [List.cons_append, exponentLength, exponentLength]
      dsimp only
      rw [drop_signLength_append_blank stops, signLength_append_blank stops,
        runLength_append_blank stops (by decide)]

theorem floatLength_append_blank (l : List Char) : floatLength (l ++ r) = floatLength l := by
  have hdigit : blanks.all (!Char.isDigit ·) = true := by decide
  unfold floatLength
  dsimp only
  rw [drop_signLength_append_blank stops, signLength_append_blank stops]
  generalize l.drop (signLength l) = body
  rw [drop_runLength_append_blank stops hdigit, runLength_append_blank stops hdigit]
  generalize body.drop (runLength Char.isDigit body) = rest
  cases rest with
  | nil =>
      cases r with
      | nil => rfl
      | cons c cs =>
          have hc := forall_isSpace (p := (· != '.')) (by decide) (stops c rfl)
          have hexponent := exponentLength_append_blank stops []
          simp only [bne_iff_ne] at hc
          simp only [List.nil_append] at hexponent ⊢
          simp [hc, hexponent]
  | cons c cs =>
      by_cases hc : c = '.'
      · subst hc
        simp only [List.cons_append, runLength_append_blank stops hdigit,
          List.drop_append_of_le_length (runLength_le Char.isDigit cs),
          exponentLength_append_blank stops]
      · have hexponent := exponentLength_append_blank stops (c :: cs)
        simp only [List.cons_append] at hexponent ⊢
        simp [hc, hexponent]

theorem plain?_append_blank {l : List Char} (hl : l ≠ []) : plain? (l ++ r) = plain? l := by
  obtain ⟨c, cs, rfl⟩ := List.exists_cons_of_ne_nil hl
  have hident : identifierLength (c :: cs ++ r) = identifierLength (c :: cs) := by
    rw [List.cons_append, identifierLength, identifierLength,
      runLength_append_blank stops (by decide)]
  rw [plain?, plain?, hexadecimalLength_append_blank stops, floatLength_append_blank stops,
    integerLength_append_blank stops, hident]
  rfl

end

/-! ### Lexemes end within the text -/

theorem hexadecimalLength_le (cs : List Char) : hexadecimalLength cs ≤ cs.length := by
  have hsign := signLength_le cs
  unfold hexadecimalLength
  dsimp only
  split
  case h_2 => exact Nat.zero_le _
  case h_1 x digits heq =>
    have hlength : cs.length - signLength cs = digits.length + 2 := by
      rw [← List.length_drop, heq, List.length_cons, List.length_cons]
    have hrun := runLength_le isHexDigit digits
    split
    · split <;> omega
    · omega

theorem exponentLength_le (cs : List Char) : exponentLength cs ≤ cs.length := by
  cases cs with
  | nil => exact Nat.le_refl _
  | cons e cs =>
      have hsign := signLength_le cs
      have hrun := runLength_le Char.isDigit (cs.drop (signLength cs))
      rw [List.length_drop] at hrun
      rw [exponentLength, List.length_cons]
      dsimp only
      split
      · split <;> omega
      · omega

theorem floatLength_le (cs : List Char) : floatLength cs ≤ cs.length := by
  have hsign := signLength_le cs
  unfold floatLength
  dsimp only
  have hbody : (cs.drop (signLength cs)).length = cs.length - signLength cs := List.length_drop
  generalize cs.drop (signLength cs) = body at hbody
  have hwhole := runLength_le Char.isDigit body
  have hrest : (body.drop (runLength Char.isDigit body)).length =
      body.length - runLength Char.isDigit body := List.length_drop
  split
  · rename_i after heq
    have hfraction := runLength_le Char.isDigit after
    have hexponent := exponentLength_le (after.drop (runLength Char.isDigit after))
    rw [List.length_drop] at hexponent
    rw [heq, List.length_cons] at hrest
    split <;> omega
  · have hexponent := exponentLength_le (body.drop (runLength Char.isDigit body))
    split <;> omega

theorem integerLength_le (cs : List Char) : integerLength cs ≤ cs.length := by
  have hsign := signLength_le cs
  have hrun := runLength_le Char.isDigit (cs.drop (signLength cs))
  rw [List.length_drop] at hrun
  unfold integerLength
  dsimp only
  split <;> omega

theorem plain?_le {cs : List Char} {kind : TokenKind} {n : Nat}
    (h : plain? cs = some (kind, n)) : n ≤ cs.length := by
  unfold plain? at h
  split at h
  · cases h
    exact hexadecimalLength_le cs
  split at h
  · cases h
    exact floatLength_le cs
  split at h
  · cases h
    exact integerLength_le cs
  split at h
  · cases h
    cases cs with
    | nil => exact Nat.le_refl _
    | cons c cs =>
        have hrun := runLength_le isIdentifierPart cs
        rw [identifierLength, List.length_cons]
        split <;> omega
  · cases cs with
    | nil => cases h
    | cons c cs =>
        obtain ⟨_, _, heq⟩ := Option.map_eq_some_iff.mp h
        cases heq
        exact Nat.succ_le_succ (Nat.zero_le _)

end Lexeme

end Proto2

import Proto2.Proofs.Parser.Basic

/-!
Qualified names in a list of tokens.

A name goes on for as long as a dot and an identifier follow, so what stands behind a name does
not start with those two.
-/

namespace Proto2

/-- A name ends here: no dot with an identifier behind it follows. -/
def NameEnds (ts : List Token) : Prop :=
  ∃ t us, ts = t :: us ∧ (t.kind = .dot → ¬ AtKind .identifier us)

/-- The parts of a name behind its first identifier, each behind a dot. -/
inductive NameTailAt : List Token → List String → List Token → Prop
  | nil {ts : List Token} (ends : NameEnds ts) : NameTailAt ts [] ts
  | cons {dot part : Token} {ts us : List Token} {parts : List String}
      (kind : dot.kind = .dot) (partKind : part.kind = .identifier)
      (tail : NameTailAt ts parts us) :
      NameTailAt (dot :: part :: ts) (part.lexeme :: parts) us

/-- The tokens start with the given name, as long as it gets, and go on with the given ones. -/
inductive NameAt : List Token → String → List Token → Prop
  | relative {first : Token} {ts us : List Token} {parts : List String}
      (kind : first.kind = .identifier) (tail : NameTailAt ts parts us) :
      NameAt (first :: ts) (dotted (first.lexeme :: parts)) us
  | rooted {dot first : Token} {ts us : List Token} {parts : List String}
      (dotKind : dot.kind = .dot) (kind : first.kind = .identifier)
      (tail : NameTailAt ts parts us) :
      NameAt (dot :: first :: ts) (dotted ("" :: first.lexeme :: parts)) us

theorem NameTailAt.length_le {ts us : List Token} {parts : List String}
    (h : NameTailAt ts parts us) : parts.length + us.length ≤ ts.length := by
  induction h with
  | nil => simp
  | cons kind partKind tail ih =>
      simp only [List.length_cons]
      omega

theorem NameAt.length_lt {ts us : List Token} {name : String} (h : NameAt ts name us) :
    us.length < ts.length := by
  cases h with
  | relative kind tail =>
      have := tail.length_le
      simp only [List.length_cons]
      omega
  | rooted dotKind kind tail =>
      have := tail.length_le
      simp only [List.length_cons]
      omega

namespace Parser

instance tokenDriven_nameParts (n : Nat) : TokenDriven (nameParts n) := by
  induction n with
  | zero =>
      unfold nameParts
      infer_instance
  | succ n ih =>
      unfold nameParts
      infer_instance

instance tokenDriven_qualifiedName (g : Grammar) (what : String) :
    TokenDriven (qualifiedName g what) := by
  unfold qualifiedName
  infer_instance

/-- A choice by the kind of the token behind the next one.  The kind is not that of the next one,
which is what `peek` shows again where nothing is behind it. -/
theorem reads_if_peek_one {α : Type} {kind : TokenKind} {p q : Parser α} [TokenDriven p]
    [TokenDriven q] {a : α} {t : Token} {ts us : List Token} (other : t.kind ≠ kind) :
    Reads (do if (← peek 1).kind = kind then p else q) (t :: ts) a us ↔
      (AtKind kind ts ∧ Reads p (t :: ts) a us) ∨ (¬ AtKind kind ts ∧ Reads q (t :: ts) a us) := by
  rw [reads_bind_peek]
  cases ts with
  | nil => simp [AtKind, other]
  | cons u ts => simp [AtKind, reads_ite]

theorem reads_nameParts {n : Nat} {ts us : List Token} {parts : List String} :
    Reads (nameParts n) ts parts us ↔ parts.length < n ∧ NameTailAt ts parts us := by
  induction n generalizing ts us parts with
  | zero => simp [nameParts]
  | succ n ih =>
      rw [nameParts, reads_if_isAt]
      -- The dot is taken only with the identifier behind it, which `peek 1` has seen.
      constructor
      · rintro (⟨⟨dot, rest, rfl, hdot⟩, h⟩ | ⟨⟨t, rest, rfl, ht⟩, h⟩)
        · rw [reads_if_peek_one (by simp [hdot])] at h
          rcases h with ⟨⟨part, rest, rfl, hpart⟩, h⟩ | ⟨hpart, h⟩
          · rw [reads_bind_next_cons (isEnd_eq_false_of_kind hdot (by decide)),
              reads_bind_next_cons (isEnd_eq_false_of_kind hpart (by decide)), reads_map] at h
            obtain ⟨parts, hparts, rfl⟩ := h
            obtain ⟨hn, tail⟩ := ih.mp hparts
            exact ⟨Nat.succ_lt_succ hn, .cons hdot hpart tail⟩
          · obtain ⟨rfl, rfl⟩ := reads_pure.mp h
            exact ⟨Nat.succ_pos _, .nil ⟨dot, rest, rfl, fun _ => hpart⟩⟩
        · obtain ⟨rfl, rfl⟩ := reads_pure.mp h
          exact ⟨Nat.succ_pos _, .nil ⟨t, rest, rfl, fun h => absurd h ht⟩⟩
      · rintro ⟨hn, tail⟩
        cases tail with
        | nil ends =>
            obtain ⟨t, rest, rfl, ends⟩ := ends
            by_cases ht : t.kind = .dot
            · refine .inl ⟨⟨t, rest, rfl, ht⟩, ?_⟩
              rw [reads_if_peek_one (by simp [ht])]
              exact .inr ⟨ends ht, reads_pure.mpr ⟨rfl, rfl⟩⟩
            · exact .inr ⟨⟨t, rest, rfl, ht⟩, reads_pure.mpr ⟨rfl, rfl⟩⟩
        | @cons dot part ts _ parts kind partKind tail =>
            refine .inl ⟨⟨dot, part :: ts, rfl, kind⟩, ?_⟩
            rw [reads_if_peek_one (by simp [kind])]
            refine .inl ⟨⟨part, ts, rfl, partKind⟩, ?_⟩
            rw [reads_bind_next_cons (isEnd_eq_false_of_kind kind (by decide)),
              reads_bind_next_cons (isEnd_eq_false_of_kind partKind (by decide)), reads_map]
            exact ⟨parts, ih.mpr ⟨Nat.lt_of_succ_lt_succ hn, tail⟩, rfl⟩

theorem reads_qualifiedName {g : Grammar} {what name : String} {ts us : List Token} :
    Reads (qualifiedName g what) ts name us ↔ NameAt ts name us := by
  simp only [qualifiedName, reads_bind, reads_accepts (by decide : TokenKind.dot ≠ _),
    reads_identifier, reads_budget, reads_nameParts, reads_pure]
  constructor
  · rintro ⟨_, _, ⟨rfl, dot, rfl, hdot⟩ | ⟨rfl, rfl, -⟩, _, _, ⟨first, rfl, hfirst, rfl⟩,
      _, _, ⟨rfl, rfl⟩, parts, _, ⟨-, tail⟩, rfl, rfl⟩
    · exact .rooted hdot hfirst tail
    · exact .relative hfirst tail
  · intro h
    cases h with
    | @relative first ts _ parts kind tail =>
        have := tail.length_le
        exact ⟨false, _, .inr ⟨rfl, rfl, by simp [kind]⟩, _, _, ⟨first, rfl, kind, rfl⟩,
          _, _, ⟨rfl, rfl⟩, parts, us, ⟨by omega, tail⟩, rfl, rfl⟩
    | @rooted dot first ts _ parts dotKind kind tail =>
        have := tail.length_le
        exact ⟨true, _, .inl ⟨rfl, dot, rfl, dotKind⟩, _, _, ⟨first, rfl, kind, rfl⟩,
          _, _, ⟨rfl, rfl⟩, parts, us, ⟨by omega, tail⟩, rfl, rfl⟩

end Parser

end Proto2

import Proto2.Proofs.Setting.Grammar

/-!
Everything that is derived stands in the tokens.

The longest reading of a part of a derived sequence may run on into what follows.  It is shown
first what the reading may take, and that inside a list it leaves a comma and items, or items
alone; the parts themselves are then treated by induction on the number of tokens.
-/

namespace Proto2

/-- What the longest reading of a value may take from the tokens behind it: nothing, more parts
of a name, or more strings. -/
inductive RunsOn : List Token → List Token → Prop
  | stop {ts : List Token} : RunsOn ts ts
  | name {ts us : List Token} {parts : List String} (tail : NameTailAt ts parts us) : RunsOn ts us
  | strings {ts us : List Token} {ss : List String} (tail : StringsAt ts ss us) : RunsOn ts us

/-- Names and strings that run on into the tokens come to an end there. -/
structure Bounded (ts : List Token) : Prop where
  name : ∃ parts us, NameTailAt ts parts us
  strings : ∃ ss us, StringsAt ts ss us

/-! ### Names and strings -/

section Names

variable {readable : Token → Prop} {ts us rest : List Token}

theorem NotAtKind.nameEnds (h : NotAtKind .dot ts) : NameEnds ts := by
  obtain ⟨t, us, rfl, hk⟩ := h
  exact ⟨t, us, rfl, fun hd => absurd hd hk⟩

theorem NameTailAt.unique {parts parts' : List String} {vs : List Token}
    (h : NameTailAt ts parts us) (h' : NameTailAt ts parts' vs) : us = vs :=
  (Parser.Reads.unique
    (Parser.reads_nameParts (n := parts.length + parts'.length + 1).mpr ⟨by omega, h⟩)
    (Parser.reads_nameParts.mpr ⟨by omega, h'⟩)).2

theorem StringsAt.unique {ss ss' : List String} {vs : List Token}
    (h : StringsAt ts ss us) (h' : StringsAt ts ss' vs) : us = vs :=
  (Parser.Reads.unique
    (Parser.reads_stringLiterals (n := ss.length + ss'.length + 1).mpr ⟨by omega, h⟩)
    (Parser.reads_stringLiterals.mpr ⟨by omega, h'⟩)).2

theorem bounded_of_stop (dot : NotAtKind .dot ts) (string : NotAtKind .string ts) :
    Bounded ts :=
  ⟨⟨[], ts, .nil dot.nameEnds⟩, [], ts, .nil string⟩

/-- Nothing runs on into tokens that start with neither a dot nor a string. -/
theorem RunsOn.eq_of_stop (h : RunsOn ts us) (dot : NotAtKind .dot ts)
    (string : NotAtKind .string ts) : us = ts := by
  cases h with
  | stop => rfl
  | name tail => exact tail.unique (.nil dot.nameEnds)
  | strings tail => exact tail.unique (.nil string)

theorem Derives.nameTailAt {parts : List String} (h : Derives readable .nameTail ts)
    (tail : NameTailAt rest parts us) : ∃ parts', NameTailAt (ts ++ rest) parts' us := by
  induction h using Derives.many_induction with
  | none => exact ⟨parts, tail⟩
  | more us vs first others ih =>
      simp only [append_iff, token_iff] at first
      obtain ⟨_, _, rfl, ⟨dot, rfl, hd⟩, part, rfl, hp⟩ := first
      obtain ⟨parts', ih⟩ := ih
      exact ⟨_, .cons hd hp ih⟩

theorem Derives.stringsAt {ss : List String}
    (h : Derives Token.HasValue (.many (.literal .string)) ts) (tail : StringsAt rest ss us) :
    ∃ ss', StringsAt (ts ++ rest) ss' us := by
  induction h using Derives.many_induction with
  | none => exact ⟨ss, tail⟩
  | more us vs first others ih =>
      obtain ⟨t, rfl, hk, hv⟩ := literal_iff.mp first
      obtain ⟨s, hs⟩ := hv.1 hk
      obtain ⟨ss', ih⟩ := ih
      exact ⟨_, .cons hk hs ih⟩

theorem Derives.nameAt (rest : List Token) (h : Derives readable (.category .name) ts)
    (stop : NotAtKind .dot rest) : ∃ name, NameAt (ts ++ rest) name rest := by
  rw [category_iff, Category.rule] at h
  simp only [append_iff, optional_iff, token_iff] at h
  obtain ⟨_, tail, rfl, ⟨_, _, rfl, ⟨dot, rfl, hd⟩ | rfl, first, rfl, hf⟩, ht⟩ := h
  all_goals obtain ⟨parts, hparts⟩ := nameTailAt ht (.nil stop.nameEnds)
  · exact ⟨_, .rooted hd hf hparts⟩
  · exact ⟨_, .relative hf hparts⟩

theorem Derives.namePartAt (rest : List Token)
    (h : Derives readable (.category .namePart) ts) :
    ∃ part, NamePartAt (ts ++ rest) part rest := by
  rw [category_iff, Category.rule] at h
  simp only [or_iff, append_iff, token_iff] at h
  rcases h with ⟨t, rfl, hk⟩ | ⟨_, _, rfl, ⟨_, ms, rfl, ⟨opening, rfl, ho⟩, hn⟩, closing, rfl, hc⟩
  · exact ⟨_, .builtIn hk⟩
  · obtain ⟨name, hname⟩ := hn.nameAt (closing :: rest) (by simp [hc])
    exact ⟨⟨name, true⟩, by simpa using .custom ho hname hc⟩

theorem Derives.morePartsAt (rest : List Token)
    (h : Derives readable (.many (.token .dot ++ .category .namePart)) ts)
    (stop : NotAtKind .dot rest) : ∃ parts, MorePartsAt (ts ++ rest) parts rest := by
  induction h using Derives.many_induction with
  | none => exact ⟨[], .nil stop⟩
  | more us vs first others ih =>
      simp only [append_iff, token_iff] at first
      obtain ⟨_, ms, rfl, ⟨dot, rfl, hd⟩, hp⟩ := first
      obtain ⟨parts, ih⟩ := ih
      obtain ⟨part, hpart⟩ := hp.namePartAt (vs ++ rest)
      exact ⟨part :: parts, by simpa using .cons hd hpart ih⟩

theorem Derives.keyAt (rest : List Token) (h : Derives readable (.category .key) ts) :
    ∃ k, KeyAt (ts ++ rest) k rest := by
  rw [category_iff, Category.rule] at h
  simp only [or_iff, append_iff, token_iff] at h
  rcases h with ⟨t, rfl, hk⟩ | ⟨_, _, rfl, ⟨_, ms, rfl, ⟨opening, rfl, ho⟩, hn⟩, closing, rfl, hc⟩
  · exact ⟨_, .plain hk⟩
  · obtain ⟨name, hname⟩ := hn.nameAt (closing :: rest) (by simp [hc])
    exact ⟨"[" ++ name ++ "]", by simpa using .bracketed ho hname hc⟩

end Names

/-! ### Items -/

/-- What is left of the items of a list when one of them was read: a comma perhaps, and items. -/
def Phrase.laterItems : Phrase :=
  .optional (.token .comma) ++ .many .listItem

section Items

variable {readable : Token → Prop} {ts us vs : List Token} {t close : Token}

theorem Derives.setting_iff :
    Derives readable (.category .setting) ts ↔
      ∃ head more equals vs, ts = head ++ (more ++ equals :: vs) ∧
        Derives readable (.category .namePart) head ∧
        Derives readable (.many (.token .dot ++ .category .namePart)) more ∧
        equals.kind = .equals ∧ Derives readable (.category .value) vs := by
  rw [category_iff, Category.rule]
  simp only [append_iff, token_iff]
  constructor
  · rintro ⟨_, vs, rfl, ⟨_, _, rfl, ⟨head, more, rfl, hh, hm⟩, equals, rfl, he⟩, hv⟩
    exact ⟨head, more, equals, vs, by simp, hh, hm, he, hv⟩
  · rintro ⟨head, more, equals, vs, rfl, hh, hm, he, hv⟩
    exact ⟨_, vs, by simp, ⟨_, _, rfl, ⟨head, more, rfl, hh, hm⟩, equals, rfl, he⟩, hv⟩

/-- A setting starts with an identifier or a parenthesis. -/
theorem Derives.setting_start (h : Derives readable (.category .setting) ts) :
    ∃ t us, ts = t :: us ∧ (t.kind = .identifier ∨ t.kind = .openParen) := by
  obtain ⟨head, more, equals, vs, rfl, hh, -⟩ := setting_iff.mp h
  rw [category_iff, Category.rule] at hh
  simp only [or_iff, append_iff, token_iff] at hh
  rcases hh with ⟨t, rfl, hk⟩ | ⟨_, _, rfl, ⟨_, _, rfl, ⟨t, rfl, hk⟩, -⟩, -⟩
  · exact ⟨t, _, rfl, .inl hk⟩
  · exact ⟨t, _, rfl, .inr hk⟩

theorem Derives.items_iff :
    Derives readable (.many .listItem) ts ↔
      ts = [] ∨ ∃ item comma more, ts = item ++ (comma ++ more) ∧
        (Derives readable (.category .setting) item ∨ Derives readable (.category .value) item) ∧
        Derives readable (.optional (.token .comma)) comma ∧
        Derives readable (.many .listItem) more := by
  rw [many_iff]
  simp only [Phrase.listItem, append_iff (p := _ ||| _), or_iff]
  constructor
  · rintro (rfl | ⟨_, more, rfl, ⟨item, comma, rfl, hi, hc⟩, hm⟩)
    · exact .inl rfl
    · exact .inr ⟨item, comma, more, by simp, hi, hc, hm⟩
  · rintro (rfl | ⟨item, comma, more, rfl, hi, hc, hm⟩)
    · exact .inl rfl
    · exact .inr ⟨_, more, by simp, ⟨item, comma, rfl, hi, hc⟩, hm⟩

theorem Derives.laterItems_of_items (h : Derives readable (.many .listItem) ts) :
    Derives readable .laterItems ts :=
  .both (optional_iff.mpr (.inr rfl)) h

/-- Items behind a comma that is there or not, after a name or strings that ran out or went on
as a value. -/
theorem Derives.laterItems_of_tail {tail comma more : List Token}
    (ht : tail = [] ∨ Derives readable (.category .value) tail)
    (hc : Derives readable (.optional (.token .comma)) comma)
    (hm : Derives readable (.many .listItem) more) :
    Derives readable .laterItems (tail ++ (comma ++ more)) := by
  rcases ht with rfl | ht
  · rw [List.nil_append]
    exact .both hc hm
  · exact laterItems_of_items (items_iff.mpr (.inr ⟨tail, comma, more, rfl, .inr ht, hc, hm⟩))

theorem Derives.value_of_nameTail (h : Derives readable .nameTail ts) :
    ts = [] ∨ Derives readable (.category .value) ts := by
  rcases many_iff.mp h with rfl | ⟨_, tail, rfl, hd, ht⟩
  · exact .inl rfl
  · simp only [append_iff, token_iff] at hd
    obtain ⟨_, _, rfl, ⟨dot, rfl, hd⟩, first, rfl, hf⟩ := hd
    exact .inr (value_iff.mpr (.inr (.inr (.inr (.inr (.inl
      ⟨dot, first, tail, rfl, hd, hf, ht⟩))))))

theorem Derives.value_of_strings (h : Derives readable (.many (.literal .string)) ts) :
    ts = [] ∨ Derives readable (.category .value) ts := by
  rcases many_iff.mp h with rfl | ⟨_, tail, rfl, hs, ht⟩
  · exact .inl rfl
  · obtain ⟨t, rfl, hk, hr⟩ := literal_iff.mp hs
    exact .inr (value_iff.mpr (.inl ⟨t, tail, rfl, hk, hr, ht⟩))

/-- The tokens that a value starts with. -/
theorem Derives.value_start (h : Derives readable (.category .value) (t :: ts)) :
    t.kind ∈ [TokenKind.string, .integer, .float, .identifier, .dot, .openBracket, .openBrace] := by
  rw [value_cons_iff] at h
  split at h
  all_goals first | exact h.elim | simp [*]

/-- Items start with a setting or with a value. -/
theorem Derives.items_cons (h : Derives readable (.many .listItem) (t :: ts)) :
    ∃ item comma more, ts = item ++ (comma ++ more) ∧
      (Derives readable (.category .setting) (t :: item) ∨
        Derives readable (.category .value) (t :: item)) ∧
      Derives readable (.optional (.token .comma)) comma ∧
      Derives readable (.many .listItem) more := by
  rcases items_iff.mp h with h | ⟨item, comma, more, heq, hi, hc, hm⟩
  · cases h
  · cases item with
    | nil =>
        rcases hi with hi | hi
        · obtain ⟨u, us, h, -⟩ := hi.setting_start
          cases h
        · exact absurd rfl hi.value_ne_nil
    | cons u item =>
        cases heq
        exact ⟨item, comma, more, rfl, hi, hc, hm⟩

theorem Derives.items_start (h : Derives readable (.many .listItem) (t :: ts)) :
    t.kind ∈ [TokenKind.openParen, .string, .integer, .float, .identifier, .dot, .openBracket,
      .openBrace] := by
  obtain ⟨item, comma, more, rfl, hi | hi, -⟩ := h.items_cons
  · obtain ⟨u, us, heq, hk⟩ := hi.setting_start
    cases heq
    rcases hk with hk | hk <;> simp [hk]
  · exact List.mem_cons_of_mem _ hi.value_start

theorem Derives.items_of_laterItems (h : Derives readable .laterItems (t :: ts)) :
    Derives readable (.many .listItem) (t :: ts) ∨
      (t.kind = .comma ∧ Derives readable (.many .listItem) ts) := by
  simp only [Phrase.laterItems, append_iff, optional_iff, token_iff] at h
  obtain ⟨_, more, heq, ⟨c, rfl, hk⟩ | rfl, hm⟩ := h
  · cases heq
    exact .inr ⟨hk, hm⟩
  · cases heq
    exact .inl hm

/-- Unless a comma, a parenthesis or an identifier comes first, it is a value that does. -/
theorem Derives.value_of_laterItems (h : Derives readable .laterItems (t :: ts))
    (comma : t.kind ≠ .comma) (paren : t.kind ≠ .openParen) (word : t.kind ≠ .identifier) :
    ∃ item comma more, ts = item ++ (comma ++ more) ∧
      Derives readable (.category .value) (t :: item) ∧
      Derives readable (.optional (.token .comma)) comma ∧
      Derives readable (.many .listItem) more := by
  have hitems := h.items_of_laterItems.resolve_right fun h => comma h.1
  obtain ⟨item, c, more, rfl, hi | hi, hc, hm⟩ := hitems.items_cons
  · obtain ⟨u, us, heq, hk⟩ := hi.setting_start
    cases heq
    exact absurd hk (not_or.mpr ⟨word, paren⟩)
  · exact ⟨item, c, more, rfl, hi, hc, hm⟩

/-- Items that start with a dot start with a name, and what is left of the name is a value. -/
theorem Derives.laterItems_of_dot (h : Derives readable .laterItems (t :: ts))
    (kind : t.kind = .dot) :
    ∃ first us, ts = first :: us ∧ first.kind = .identifier ∧ Derives readable .laterItems us := by
  obtain ⟨item, comma, more, rfl, hi, hc, hm⟩ :=
    h.value_of_laterItems (by simp [kind]) (by simp [kind]) (by simp [kind])
  simp only [value_cons_iff, kind] at hi
  obtain ⟨first, us, rfl, hf, ht⟩ := hi
  exact ⟨first, _, rfl, hf, laterItems_of_tail (value_of_nameTail ht) hc hm⟩

/-- Items that start with a string go on behind it. -/
theorem Derives.laterItems_of_string (h : Derives readable .laterItems (t :: ts))
    (kind : t.kind = .string) : readable t ∧ Derives readable .laterItems ts := by
  obtain ⟨item, comma, more, rfl, hi, hc, hm⟩ :=
    h.value_of_laterItems (by simp [kind]) (by simp [kind]) (by simp [kind])
  simp only [value_cons_iff, kind] at hi
  exact ⟨hi.1, laterItems_of_tail (value_of_strings hi.2) hc hm⟩

/-! ### Reading on in a list -/

theorem Derives.exists_nameTailAt (kind : close.kind = .closeBracket) (n : Nat) :
    ∀ us, us.length ≤ n → Derives readable .laterItems us →
      ∃ parts vs, NameTailAt (us ++ close :: ts) parts (vs ++ close :: ts) ∧
        Derives readable .laterItems vs ∧ vs.length ≤ us.length := by
  induction n with
  | zero =>
      intro us hn h
      cases List.length_eq_zero_iff.mp (Nat.le_zero.mp hn)
      exact ⟨[], [], .nil (NotAtKind.nameEnds (by simp [kind])), h, Nat.le_refl _⟩
  | succ n ih =>
      intro us hn h
      cases us with
      | nil => exact ⟨[], [], .nil (NotAtKind.nameEnds (by simp [kind])), h, Nat.le_refl _⟩
      | cons t us =>
          by_cases hd : t.kind = .dot
          · obtain ⟨first, us, rfl, hf, h⟩ := h.laterItems_of_dot hd
            simp only [List.length_cons] at hn
            obtain ⟨parts, vs, htail, hvs, hlen⟩ := ih us (by omega) h
            refine ⟨_, vs, .cons hd hf htail, hvs, ?_⟩
            simp only [List.length_cons]
            omega
          · exact ⟨[], t :: us, .nil (NotAtKind.nameEnds (by simp [hd])), h, Nat.le_refl _⟩

theorem Derives.exists_stringsAt (kind : close.kind = .closeBracket)
    (h : Derives Token.HasValue .laterItems us) :
    ∃ ss vs, StringsAt (us ++ close :: ts) ss (vs ++ close :: ts) ∧
      Derives Token.HasValue .laterItems vs ∧ vs.length ≤ us.length := by
  induction us with
  | nil => exact ⟨[], [], .nil (by simp [kind]), h, Nat.le_refl _⟩
  | cons t us ih =>
      by_cases hs : t.kind = .string
      · obtain ⟨hv, h⟩ := h.laterItems_of_string hs
        obtain ⟨s, hs'⟩ := hv.1 hs
        obtain ⟨ss, vs, htail, hvs, hlen⟩ := ih h
        exact ⟨_, vs, .cons hs hs' htail, hvs, Nat.le_succ_of_le hlen⟩
      · exact ⟨[], t :: us, .nil (by simp [hs]), h, Nat.le_refl _⟩

theorem Derives.bounded (ts : List Token) (kind : close.kind = .closeBracket)
    (h : Derives Token.HasValue .laterItems us) : Bounded (us ++ close :: ts) := by
  obtain ⟨parts, vs, hname, -⟩ := exists_nameTailAt kind _ us (Nat.le_refl _) h
  obtain ⟨ss, ws, hstrings, -⟩ := h.exists_stringsAt kind
  exact ⟨⟨parts, _, hname⟩, ss, _, hstrings⟩

/-- What runs on into the items of a list leaves items. -/
theorem RunsOn.laterItems (kind : close.kind = .closeBracket)
    (h : Derives Token.HasValue .laterItems us) (run : RunsOn (us ++ close :: ts) vs) :
    ∃ ws, vs = ws ++ close :: ts ∧ Derives Token.HasValue .laterItems ws ∧
      ws.length ≤ us.length := by
  cases run with
  | stop => exact ⟨us, rfl, h, Nat.le_refl _⟩
  | name tail =>
      obtain ⟨parts, ws, htail, hws⟩ := Derives.exists_nameTailAt kind _ us (Nat.le_refl _) h
      exact ⟨ws, tail.unique htail, hws⟩
  | strings tail =>
      obtain ⟨ss, ws, htail, hws⟩ := h.exists_stringsAt kind
      exact ⟨ws, tail.unique htail, hws⟩

theorem Derives.skipComma (ts : List Token) (kind : close.kind = .closeBracket)
    (h : Derives readable .laterItems us) :
    ∃ vs, SkipKind .comma (us ++ close :: ts) (vs ++ close :: ts) ∧
      Derives readable (.many .listItem) vs ∧ vs.length ≤ us.length := by
  cases us with
  | nil => exact ⟨[], .inr ⟨rfl, by simp [kind]⟩, .none, Nat.le_refl _⟩
  | cons t us =>
      rcases h.items_of_laterItems with h | ⟨hk, h⟩
      · have := h.items_start
        refine ⟨t :: us, .inr ⟨rfl, ?_⟩, h, Nat.le_refl _⟩
        simp only [List.cons_append, notAtKind_cons]
        intro hk
        simp [hk] at this
      · exact ⟨us, .inl ⟨t, rfl, hk⟩, h, Nat.le_succ _⟩

/-- No equals sign is reached over dots and identifiers from behind an item. -/
theorem Derives.leadsOn_laterItems (ts : List Token) (kind : close.kind = .closeBracket)
    (n : Nat) :
    ∀ us, us.length ≤ n → Derives readable .laterItems us →
      leadsOn (us ++ close :: ts) = false := by
  -- The bracket that closes the list ends the search at the latest.
  have hclose : leadsOn (close :: ts) = false := by
    cases ts <;> simp [leadsOn, kind]
  induction n with
  | zero =>
      intro us hn h
      cases List.length_eq_zero_iff.mp (Nat.le_zero.mp hn)
      exact hclose
  | succ n ih =>
      intro us hn h
      cases us with
      | nil => exact hclose
      | cons t us =>
          have hne : t.kind ≠ .equals := by
            intro hk
            rcases h.items_of_laterItems with h | ⟨hc, -⟩
            · simpa [hk] using h.items_start
            · simp [hk] at hc
          by_cases hd : t.kind = .dot
          · obtain ⟨first, us, rfl, hf, h⟩ := h.laterItems_of_dot hd
            simp only [List.length_cons] at hn
            simp only [List.cons_append, leadsOn, hd, hf]
            simpa using ih us (by omega) h
          · obtain ⟨u, rest, heq⟩ : ∃ u rest, us ++ close :: ts = u :: rest :=
              List.exists_cons_of_ne_nil (by simp)
            simp [heq, leadsOn, hne, hd]

end Items

end Proto2

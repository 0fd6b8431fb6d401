import Proto2.Proofs.Schema.Grammar
import Proto2.Proofs.Schema.Progress

/-!
Every declaration that is derived stands in the tokens.

A declaration ends in a semicolon or a brace, so that it does not matter what follows it.  The
one exception is a procedure with a body, which takes a semicolon behind its brace if there is
one: the grammar also derives this semicolon as an item of the service.
-/

namespace Proto2

open Proto2.Parser

variable {ts us rest : List Token}

section Inversion

variable {readable : Token → Prop} {p q : Phrase}

theorem Derives.token_append_iff {k : TokenKind} :
    Derives readable (.token k ++ p) ts ↔
      ∃ t us, ts = t :: us ∧ t.kind = k ∧ Derives readable p us := by
  rw [append_iff]
  simp only [token_iff]
  constructor
  · rintro ⟨_, us, rfl, ⟨t, rfl, hk⟩, hp⟩
    exact ⟨t, us, rfl, hk, hp⟩
  · rintro ⟨t, us, rfl, hk, hp⟩
    exact ⟨[t], us, rfl, ⟨t, rfl, hk⟩, hp⟩

theorem Derives.append_token_iff {k : TokenKind} :
    Derives readable (p ++ .token k) ts ↔
      ∃ us t, ts = us ++ [t] ∧ Derives readable p us ∧ t.kind = k := by
  rw [append_iff]
  simp only [token_iff]
  constructor
  · rintro ⟨us, _, rfl, hp, t, rfl, hk⟩
    exact ⟨us, t, rfl, hp, hk⟩
  · rintro ⟨us, t, rfl, hp, hk⟩
    exact ⟨us, [t], rfl, hp, t, rfl, hk⟩

theorem Derives.braced_iff {w : String} :
    Derives readable (.braced w p) ts ↔
      ∃ word name opening us closing, ts = word :: name :: opening :: (us ++ [closing]) ∧
        word.isWord w = true ∧ name.kind = .identifier ∧ opening.kind = .openBrace ∧
        Derives readable (.many p) us ∧ closing.kind = .closeBrace := by
  rw [Phrase.braced, append_token_iff]
  simp only [append_iff (p := _ ++ _), append_iff (p := .word w), token_iff, word_iff]
  constructor
  · rintro ⟨_, closing, rfl, ⟨_, us, rfl, ⟨_, _, rfl, ⟨_, _, rfl, ⟨word, rfl, hw⟩, name, rfl, hn⟩,
      opening, rfl, ho⟩, hp⟩, hc⟩
    exact ⟨word, name, opening, us, closing, rfl, hw, hn, ho, hp, hc⟩
  · rintro ⟨word, name, opening, us, closing, rfl, hw, hn, ho, hp, hc⟩
    exact ⟨_, closing, rfl, ⟨_, us, rfl, ⟨_, _, rfl, ⟨_, _, rfl, ⟨word, rfl, hw⟩, name, rfl, hn⟩,
      opening, rfl, ho⟩, hp⟩, hc⟩

/-- Derived things of one kind stand in the tokens one after the other. -/
theorem Derives.sequence {α : Type} {step : List Token → α → List Token → Prop}
    (complete : ∀ {ts} rest, Derives readable p ts → ∃ a, step (ts ++ rest) a rest)
    (rest : List Token) (h : Derives readable (.many p) ts) :
    ∃ as, Sequence step (ts ++ rest) as rest := by
  induction h using Derives.many_induction with
  | none => exact ⟨[], .nil⟩
  | more us vs first others ih =>
      obtain ⟨as, htail⟩ := ih
      obtain ⟨a, hhead⟩ := complete (vs ++ rest) first
      exact ⟨a :: as, by simpa using .cons hhead htail⟩

end Inversion

/-! ### Pieces of declarations -/

theorem Derives.tokenAt {k : TokenKind} {readable : Token → Prop} (rest : List Token)
    (h : Derives readable (.token k) ts) : TokenAt k (ts ++ rest) rest := by
  obtain ⟨t, rfl, hk⟩ := token_iff.mp h
  exact ⟨t, rfl, hk⟩

theorem Derives.optionAt (rest : List Token)
    (h : Derives Token.HasValue (.category .optionStatement) ts) :
    ∃ s, OptionAt (ts ++ rest) s rest := by
  rw [category_iff, Category.rule, append_token_iff] at h
  simp only [append_iff, word_iff] at h
  obtain ⟨_, semi, rfl, ⟨_, ms, rfl, ⟨word, rfl, hw⟩, hs⟩, hk⟩ := h
  have hdot : NotAtKind .dot (semi :: rest) := by simp [hk]
  obtain ⟨s, hset⟩ := hs.stands_setting hdot (by simp [hk])
  exact ⟨s, by simpa using .mk hw hset hk⟩

theorem Derives.trailingAt {semi : Token} (rest : List Token) (kind : semi.kind = .semicolon)
    (h : Derives Token.HasValue (.optional (.category .bracketedSettings)) ts) :
    ∃ ss, TrailingAt (ts ++ semi :: rest) ss (semi :: rest) := by
  rcases optional_iff.mp h with h | rfl
  · obtain ⟨ss, hss⟩ := h.bracketedAt (semi :: rest)
    exact ⟨ss, .some hss⟩
  · exact ⟨[], .none (by simp [kind])⟩

theorem Label.ofText?_of_mem {s : String} (h : s ∈ ["required", "optional", "repeated"]) :
    ∃ l, Label.ofText? s = some l := by
  simp only [List.mem_cons, List.not_mem_nil, or_false] at h
  rcases h with rfl | rfl | rfl
  · exact ⟨.required, rfl⟩
  · exact ⟨.optional, rfl⟩
  · exact ⟨.repeated, rfl⟩

theorem Derives.fieldAt (rest : List Token)
    (h : Derives Token.HasValue (.category .field) ts) : ∃ f, FieldAt (ts ++ rest) f rest := by
  rw [category_iff, Category.rule, append_token_iff] at h
  simp only [append_iff, terminal_iff, token_iff, literal_iff] at h
  obtain ⟨_, semi, rfl, ⟨_, settings, rfl, ⟨_, _, rfl, ⟨_, _, rfl, ⟨_, _, rfl, ⟨_, type, rfl,
    ⟨first, rfl, hfirst, hlabel⟩, htype⟩, name, rfl, hname⟩, equals, rfl, hequals⟩, number, rfl,
    hnumber, hvalue⟩, hsettings⟩, hsemi⟩ := h
  obtain ⟨label, hknown⟩ := Label.ofText?_of_mem hlabel
  obtain ⟨tag, htag⟩ := hvalue.2 hnumber
  obtain ⟨ss, htrailing⟩ := trailingAt rest hsemi hsettings
  obtain ⟨t, hstands⟩ :=
    htype.nameAt (name :: equals :: number :: (settings ++ semi :: rest)) (by simp [hname])
  exact ⟨_, by simpa using .mk hfirst hknown hstands hname hequals hnumber htag htrailing hsemi⟩

theorem Derives.rangeAt (doc : String) (stop : NotAtWord "to" rest)
    (h : Derives Token.HasValue (.category .range) ts) : ∃ r, RangeAt doc (ts ++ rest) r rest := by
  rw [category_iff, Category.rule] at h
  simp only [append_iff, literal_iff, optional_iff, or_iff, word_iff] at h
  obtain ⟨_, _, rfl, ⟨number, rfl, hk, hv⟩, h⟩ := h
  obtain ⟨n, hn⟩ := hv.2 hk
  rcases h with ⟨_, _, rfl, ⟨word, rfl, hw⟩, ⟨last, rfl, hl, hlv⟩ | ⟨last, rfl, hl⟩⟩ | rfl
  · obtain ⟨m, hm⟩ := hlv.2 hl
    exact ⟨_, .between hk hn hw hl hm⟩
  · exact ⟨_, .onwards hk hn hw hl⟩
  · exact ⟨_, .single hk hn stop⟩

theorem notAtWord_of_kind {t : Token} {word : String} (other : t.kind ≠ .identifier) :
    NotAtWord word (t :: ts) := by
  simp [Token.isWord, other]

/-- A derived range and the ranges behind commas after it. -/
theorem Derives.separatedAt {semi : Token} {more : List Token} (doc : String)
    (rest : List Token) (kind : semi.kind = .semicolon)
    (h : Derives Token.HasValue (.category .range) ts)
    (hmore : Derives Token.HasValue (.many (.token .comma ++ .category .range)) more) :
    ∃ rs, Separated (RangeAt doc) (ts ++ (more ++ semi :: rest)) rs (semi :: rest) := by
  induction hmore using Derives.many_induction generalizing ts with
  | none =>
      have hstop : NotAtWord "to" (semi :: rest) := notAtWord_of_kind (by simp [kind])
      obtain ⟨r, hr⟩ := h.rangeAt doc hstop
      exact ⟨[r], .last hr (by simp [kind])⟩
  | more us vs first others ih =>
      obtain ⟨comma, us, rfl, hc, hfirst⟩ := token_append_iff.mp first
      obtain ⟨rs, htail⟩ := ih hfirst
      have hstop : NotAtWord "to" (comma :: (us ++ (vs ++ semi :: rest))) :=
        notAtWord_of_kind (by simp [hc])
      obtain ⟨r, hr⟩ := h.rangeAt doc hstop
      exact ⟨r :: rs, by simpa using .cons hr hc htail⟩

theorem Derives.rangesAt (rest : List Token)
    (h : Derives Token.HasValue (.category .extensionRanges) ts) :
    ∃ rs, RangesAt (ts ++ rest) rs rest := by
  rw [category_iff, Category.rule, append_token_iff] at h
  simp only [append_iff (p := _ ++ _), append_iff (p := .word _), word_iff] at h
  obtain ⟨_, semi, rfl, ⟨_, more, rfl, ⟨_, first, rfl, ⟨word, rfl, hw⟩, hfirst⟩, hmore⟩, hk⟩ := h
  obtain ⟨rs, hrs⟩ := hfirst.separatedAt word.documentation rest hk hmore
  exact ⟨rs, by simpa using .mk hw hrs hk⟩

/-! ### Enums -/

theorem Derives.enumValueAt (rest : List Token)
    (h : Derives Token.HasValue (.category .enumValue) ts) :
    ∃ v, EnumValueAt (ts ++ rest) v rest := by
  rw [category_iff, Category.rule, append_token_iff] at h
  simp only [append_iff, token_iff, literal_iff] at h
  obtain ⟨_, semi, rfl, ⟨_, settings, rfl, ⟨_, _, rfl, ⟨_, _, rfl, ⟨name, rfl, hname⟩, equals,
    rfl, hequals⟩, number, rfl, hnumber, hvalue⟩, hsettings⟩, hsemi⟩ := h
  obtain ⟨tag, htag⟩ := hvalue.2 hnumber
  obtain ⟨ss, htrailing⟩ := trailingAt rest hsemi hsettings
  exact ⟨_, by simpa using .mk hname hequals hnumber htag htrailing hsemi⟩

theorem Derives.enumItemAt (rest : List Token) (h : Derives Token.HasValue .enumItem ts) :
    ∃ item, EnumItemAt (ts ++ rest) item rest := by
  rw [Phrase.enumItem] at h
  simp only [or_iff] at h
  rcases h with (h | h) | h
  · exact ⟨_, .empty (h.tokenAt rest)⟩
  · obtain ⟨s, hs⟩ := h.optionAt rest
    exact ⟨_, .option hs⟩
  · obtain ⟨v, hv⟩ := h.enumValueAt rest
    exact ⟨_, .value hv⟩

theorem Derives.enumerationAt (scope : Scope) (rest : List Token)
    (h : Derives Token.HasValue (.category .enumeration) ts) :
    ∃ e, EnumerationAt scope (ts ++ rest) e rest := by
  rw [category_iff, Category.rule_enumeration, braced_iff] at h
  obtain ⟨word, name, opening, us, closing, rfl, hw, hn, ho, hitems, hc⟩ := h
  obtain ⟨items, hseq⟩ := hitems.sequence enumItemAt (closing :: rest)
  exact ⟨_, by simpa using .mk hw hn ho hseq hc⟩

/-! ### Services -/

theorem Derives.rpcTypeAt {readable : Token → Prop} (rest : List Token)
    (h : Derives readable (.category .rpcType) ts) : ∃ name, RpcTypeAt (ts ++ rest) name rest := by
  rw [category_iff, Category.rule, append_token_iff] at h
  obtain ⟨_, closing, rfl, h, hc⟩ := h
  obtain ⟨opening, us, rfl, ho, hname⟩ := token_append_iff.mp h
  obtain ⟨name, hstands⟩ := hname.nameAt (closing :: rest) (by simp [hc])
  exact ⟨name, by simpa using .mk ho hstands hc⟩

theorem Derives.rpcItemAt (rest : List Token) (h : Derives Token.HasValue .rpcItem ts) :
    ∃ item, RpcItemAt (ts ++ rest) item rest := by
  rcases or_iff.mp h with h | h
  · exact ⟨_, .empty (h.tokenAt rest)⟩
  · obtain ⟨s, hs⟩ := h.optionAt rest
    exact ⟨some s, .option hs⟩

/-- Tokens that are not over start with a token of a kind or do not. -/
theorem exists_skipKind (k : TokenKind) (t : Token) (ts : List Token) :
    ∃ us, SkipKind k (t :: ts) us ∧ (us = t :: ts ∨ t.kind = k ∧ us = ts) := by
  by_cases h : t.kind = k
  · exact ⟨ts, .inl ⟨t, rfl, h⟩, .inr ⟨h, rfl⟩⟩
  · exact ⟨t :: ts, .inr ⟨rfl, by simpa using h⟩, .inl rfl⟩

/-- A derived procedure stands in front of any token, and may take it if it is a semicolon. -/
theorem Derives.rpcAt (next : Token) (rest : List Token)
    (h : Derives Token.HasValue (.category .rpc) ts) :
    ∃ r us, RpcAt (ts ++ next :: rest) r us ∧
      (us = next :: rest ∨ next.kind = .semicolon ∧ us = rest) := by
  rw [category_iff, Category.rule, append_iff] at h
  obtain ⟨_, body, rfl, h, hbody⟩ := h
  simp only [append_iff, word_iff, token_iff] at h
  obtain ⟨_, response, rfl, ⟨_, _, rfl, ⟨_, request, rfl, ⟨_, _, rfl, ⟨word, rfl, hw⟩, name, rfl,
    hn⟩, hrequest⟩, returns, rfl, hreturns⟩, hresponse⟩ := h
  suffices hstands : ∃ ss us, RpcBodyAt (body ++ next :: rest) ss us ∧
      (us = next :: rest ∨ next.kind = .semicolon ∧ us = rest) by
    obtain ⟨ss, us, hbody, hus⟩ := hstands
    obtain ⟨b, hb⟩ := hresponse.rpcTypeAt (body ++ next :: rest)
    obtain ⟨a, ha⟩ := hrequest.rpcTypeAt (returns :: (response ++ (body ++ next :: rest)))
    exact ⟨_, us, by simpa using .mk hw hn ha hreturns hb hbody, hus⟩
  rcases or_iff.mp hbody with h | h
  · exact ⟨[], _, .none (h.tokenAt _), .inl rfl⟩
  · rw [append_iff] at h
    obtain ⟨_, semi, rfl, h, hsemi⟩ := h
    simp only [append_token_iff, token_append_iff] at h
    obtain ⟨_, closing, rfl, ⟨opening, ms, rfl, ho, hitems⟩, hc⟩ := h
    obtain ⟨items, hseq⟩ := hitems.sequence rpcItemAt (closing :: (semi ++ next :: rest))
    rcases optional_iff.mp hsemi with hsemi | rfl
    · obtain ⟨t, rfl, hk⟩ := token_iff.mp hsemi
      exact ⟨_, _, by simpa using .some ho hseq hc (.inl ⟨t, rfl, hk⟩), .inl rfl⟩
    · obtain ⟨us, hskip, hus⟩ := exists_skipKind .semicolon next rest
      exact ⟨_, us, by simpa using .some ho hseq hc hskip, hus⟩

/-- The items of a service that start with a semicolon go on behind it. -/
theorem Derives.serviceItems_of_cons {readable : Token → Prop} {t : Token}
    (kind : t.kind = .semicolon) (h : Derives readable (.many .serviceItem) (t :: ts)) :
    Derives readable (.many .serviceItem) ts := by
  have hword : ∀ {w : String}, t.isWord w = false := by simp [Token.isWord, kind]
  rcases many_iff.mp h with h | ⟨us, vs, heq, hitem, hothers⟩
  · cases h
  · rw [Phrase.serviceItem] at hitem
    simp only [or_iff, token_iff] at hitem
    rcases hitem with (⟨u, rfl, -⟩ | hitem) | hitem
    · cases heq
      exact hothers
    all_goals
      rw [category_iff, Category.rule] at hitem
      simp only [append_iff, word_iff] at hitem
    · obtain ⟨_, _, rfl, ⟨_, _, rfl, ⟨w, rfl, hw⟩, -⟩, -⟩ := hitem
      cases heq
      simp [hword] at hw
    · obtain ⟨_, _, rfl, ⟨_, _, rfl, ⟨_, _, rfl, ⟨_, _, rfl, ⟨_, _, rfl, ⟨w, rfl, hw⟩, -⟩, -⟩, -⟩,
        -⟩, -⟩ := hitem
      cases heq
      simp [hword] at hw

/-- Derived items of a service stand before its closing brace: by induction on the number of
their tokens, as a procedure may take the semicolon that is the next item. -/
theorem Derives.serviceItemsAt {close : Token} (rest : List Token)
    (kind : close.kind = .closeBrace) (n : Nat) : ∀ ts, ts.length ≤ n →
      Derives Token.HasValue (.many .serviceItem) ts →
      ∃ items, Sequence ServiceItemAt (ts ++ close :: rest) items (close :: rest) := by
  induction n with
  | zero =>
      intro ts hn _
      cases List.length_eq_zero_iff.mp (Nat.le_zero.mp hn)
      exact ⟨[], .nil⟩
  | succ n ih =>
      intro ts hn h
      rcases many_iff.mp h with rfl | ⟨item, more, rfl, hitem, hmore⟩
      · exact ⟨[], .nil⟩
      · -- Behind the first item there are fewer tokens, and they are derived as items again.
        suffices hstands : ∃ i vs, ServiceItemAt (item ++ (more ++ close :: rest)) i
            (vs ++ close :: rest) ∧ vs.length ≤ more.length ∧
              Derives Token.HasValue (.many .serviceItem) vs by
          obtain ⟨i, vs, hi, hlen, hvs⟩ := hstands
          have hlt := ServiceItemAt.isItem.progress hi
          simp only [List.length_append, List.length_cons] at hn hlt
          obtain ⟨items, hitems⟩ := ih vs (by omega) hvs
          exact ⟨i :: items, by simpa using .cons hi hitems⟩
        rw [Phrase.serviceItem] at hitem
        simp only [or_iff] at hitem
        rcases hitem with (hitem | hitem) | hitem
        · exact ⟨_, more, .empty (hitem.tokenAt _), Nat.le_refl _, hmore⟩
        · obtain ⟨s, hs⟩ := hitem.optionAt (more ++ close :: rest)
          exact ⟨_, more, .option hs, Nat.le_refl _, hmore⟩
        · cases more with
          | nil =>
              obtain ⟨r, us, hr, hus⟩ := hitem.rpcAt close rest
              have hus : us = close :: rest := by simpa [kind] using hus
              exact ⟨_, [], .rpc (hus ▸ hr), Nat.le_refl _, .none⟩
          | cons t more =>
              obtain ⟨r, us, hr, rfl | ⟨hk, rfl⟩⟩ := hitem.rpcAt t (more ++ close :: rest)
              · exact ⟨_, t :: more, .rpc hr, Nat.le_refl _, hmore⟩
              · exact ⟨_, more, .rpc hr, Nat.le_succ _, hmore.serviceItems_of_cons hk⟩

theorem Derives.serviceAt (scope : Scope) (rest : List Token)
    (h : Derives Token.HasValue (.category .service) ts) :
    ∃ s, ServiceAt scope (ts ++ rest) s rest := by
  rw [category_iff, Category.rule_service, braced_iff] at h
  obtain ⟨word, name, opening, us, closing, rfl, hw, hn, ho, hitems, hc⟩ := h
  obtain ⟨items, hseq⟩ := serviceItemsAt rest hc _ us (Nat.le_refl _) hitems
  exact ⟨_, by simpa using .mk hw hn ho hseq hc⟩

/-! ### Extensions -/

theorem Derives.extendItemAt (rest : List Token) (h : Derives Token.HasValue .extendItem ts) :
    ∃ item, ExtendItemAt (ts ++ rest) item rest := by
  rcases or_iff.mp h with h | h
  · exact ⟨_, .empty (h.tokenAt rest)⟩
  · obtain ⟨f, hf⟩ := h.fieldAt rest
    exact ⟨some f, .field hf⟩

theorem Derives.extendAt (scope : Scope) (rest : List Token)
    (h : Derives Token.HasValue (.category .extension) ts) :
    ∃ e, ExtendAt scope (ts ++ rest) e rest := by
  rw [category_iff, Category.rule, append_token_iff] at h
  simp only [append_iff (p := _ ++ _), append_iff (p := .word _), word_iff, token_iff] at h
  obtain ⟨_, closing, rfl, ⟨_, us, rfl, ⟨_, _, rfl, ⟨_, name, rfl, ⟨word, rfl, hw⟩, hname⟩,
    opening, rfl, ho⟩, hitems⟩, hc⟩ := h
  obtain ⟨items, hseq⟩ := Derives.sequence (p := .extendItem) extendItemAt (closing :: rest) hitems
  obtain ⟨n, hn⟩ := hname.nameAt (opening :: (us ++ closing :: rest)) (by simp [ho])
  exact ⟨_, by simpa using .mk hw hn ho hseq hc⟩

/-! ### Messages -/

/-- Derived items of a message stand in the tokens. -/
theorem Derives.messageItemsAt (n : Nat) : ∀ (scope : Scope) (ts rest : List Token),
    ts.length ≤ n → Derives Token.HasValue (.many .messageItem) ts →
    ∃ items, MessageAt scope (.items items) (ts ++ rest) rest := by
  -- By the number of tokens, which is smaller both for the items of a message in the message and
  -- for the items behind it.
  induction n with
  | zero =>
      intro scope ts rest hn _
      cases List.length_eq_zero_iff.mp (Nat.le_zero.mp hn)
      exact ⟨[], .noItems⟩
  | succ n ih =>
      intro scope ts rest hn h
      rcases many_iff.mp h with rfl | ⟨item, more, rfl, hitem, hmore⟩
      · exact ⟨[], .noItems⟩
      · have plain : (∃ i, PlainItemAt scope (item ++ (more ++ rest)) i (more ++ rest)) →
            ∃ items, MessageAt scope (.items items) (item ++ more ++ rest) rest := by
          rintro ⟨i, hi⟩
          have hlt := (PlainItemAt.isItem scope).progress hi
          simp only [List.length_append] at hn hlt
          obtain ⟨items, hitems⟩ := ih scope more rest (by omega) hmore
          exact ⟨i :: items, by simpa using .plain hi hitems⟩
        rw [Phrase.messageItem] at hitem
        simp only [or_iff] at hitem
        rcases hitem with (((((hitem | hitem) | hitem) | hitem) | hitem) | hitem) | hitem
        · exact plain ⟨_, .empty (hitem.tokenAt _)⟩
        · obtain ⟨f, hf⟩ := hitem.fieldAt (more ++ rest)
          exact plain ⟨_, .field hf⟩
        · rw [category_iff, Category.rule_message, braced_iff] at hitem
          obtain ⟨word, name, opening, us, closing, rfl, hw, hname, ho, hinner, hc⟩ := hitem
          simp only [List.length_append, List.length_cons] at hn
          obtain ⟨inner, hinner⟩ :=
            ih (scope.nested name.lexeme) us (closing :: (more ++ rest)) (by omega) hinner
          obtain ⟨items, hitems⟩ := ih scope more rest (by omega) hmore
          exact ⟨_, by simpa using .nested (.message hw hname ho hinner hc) hitems⟩
        · obtain ⟨e, he⟩ := hitem.enumerationAt scope (more ++ rest)
          exact plain ⟨_, .enumeration he⟩
        · obtain ⟨rs, hrs⟩ := hitem.rangesAt (more ++ rest)
          exact plain ⟨_, .ranges hrs⟩
        · obtain ⟨s, hs⟩ := hitem.optionAt (more ++ rest)
          exact plain ⟨_, .option hs⟩
        · obtain ⟨e, he⟩ := hitem.extendAt scope (more ++ rest)
          exact plain ⟨_, .extension he⟩

theorem Derives.messageAt (scope : Scope) (rest : List Token)
    (h : Derives Token.HasValue (.category .message) ts) :
    ∃ m, MessageAt scope (.message m) (ts ++ rest) rest := by
  rw [category_iff, Category.rule_message, braced_iff] at h
  obtain ⟨word, name, opening, us, closing, rfl, hw, hn, ho, hitems, hc⟩ := h
  obtain ⟨items, hstands⟩ :=
    messageItemsAt _ (scope.nested name.lexeme) us (closing :: rest) (Nat.le_refl _) hitems
  exact ⟨_, by simpa using .message hw hn ho hstands hc⟩

/-! ### Files -/

theorem Derives.statementAt (package : Option String) (rest : List Token)
    (h : Derives Token.HasValue (.category .statement) ts) :
    ∃ item, FileItemAt package (ts ++ rest) item rest ∧ item.package? = .none := by
  rw [category_iff, Category.rule] at h
  simp only [or_iff] at h
  rcases h with ((((((h | h) | h) | h) | h) | h) | h) | h
  · exact ⟨_, .empty (h.tokenAt rest), rfl⟩
  · simp only [append_iff, word_iff, token_iff] at h
    obtain ⟨_, _, rfl, ⟨_, _, rfl, ⟨_, _, rfl, ⟨word, rfl, hw⟩, equals, rfl, he⟩, name, rfl, hn⟩,
      semi, rfl, hs⟩ := h
    exact ⟨_, .dialect hw he hn hs, rfl⟩
  · simp only [append_iff, word_iff, token_iff, optional_iff, literal_iff] at h
    obtain ⟨_, _, rfl, ⟨_, _, rfl, ⟨_, _, rfl, ⟨word, rfl, hw⟩, hpublic⟩, path, rfl, hp, hv⟩,
      semi, rfl, hs⟩ := h
    obtain ⟨text, htext⟩ := hv.1 hp
    rcases hpublic with ⟨modifier, rfl, hm⟩ | rfl
    · exact ⟨_, .publiclyImported hw hm hp htext hs, rfl⟩
    · exact ⟨_, .imported hw hp htext hs, rfl⟩
  · obtain ⟨s, hs⟩ := h.optionAt rest
    exact ⟨_, .option hs, rfl⟩
  · obtain ⟨m, hm⟩ := h.messageAt (.top package) rest
    exact ⟨_, .message hm, rfl⟩
  · obtain ⟨e, he⟩ := h.enumerationAt (.top package) rest
    exact ⟨_, .enumeration he, rfl⟩
  · obtain ⟨s, hs⟩ := h.serviceAt (.top package) rest
    exact ⟨_, .service hs, rfl⟩
  · obtain ⟨e, he⟩ := h.extendAt (.top package) rest
    exact ⟨_, .extension he, rfl⟩

/-- Derived statements stand before the items of a file. -/
theorem Derives.statementsAt {package : Option String} {items : List FileItem}
    (h : Derives Token.HasValue (.many (.category .statement)) ts)
    (tail : FileItemsAt package rest items us) :
    ∃ items, FileItemsAt package (ts ++ rest) items us := by
  induction h using Derives.many_induction with
  | none => exact ⟨items, tail⟩
  | more ts ms first others ih =>
      obtain ⟨items, hitems⟩ := ih
      obtain ⟨item, hitem, hnone⟩ := first.statementAt package (ms ++ rest)
      have htail : FileItemsAt (item.package?.or package) (ms ++ rest) items us := by
        rwa [hnone, Option.none_or]
      exact ⟨item :: items, by simpa using .cons hitem htail⟩

/-- The items of a derived file stand before the end of the input. -/
theorem Derives.fileItemsAt (atEnd : AtKind .endOfInput rest)
    (h : Derives Token.HasValue (.category .file) ts) :
    ∃ items, FileItemsAt .none (ts ++ rest) items rest := by
  rw [category_iff, Category.rule, append_iff] at h
  obtain ⟨us, vs, rfl, hfirst, hothers⟩ := h
  rcases optional_iff.mp hothers with h | rfl
  · obtain ⟨_, more, rfl, h, hmore⟩ := append_iff.mp h
    rw [category_iff, Category.rule, append_token_iff] at h
    simp only [append_iff, word_iff] at h
    obtain ⟨_, semi, rfl, ⟨_, name, rfl, ⟨word, rfl, hw⟩, hname⟩, hk⟩ := h
    obtain ⟨n, hn⟩ := hname.nameAt (semi :: (more ++ rest)) (by simp [hk])
    obtain ⟨items, hitems⟩ := hmore.statementsAt (.nil atEnd)
    obtain ⟨items, hall⟩ := hfirst.statementsAt (.cons (.package rfl hw hn hk) hitems)
    exact ⟨items, by simpa using hall⟩
  · obtain ⟨items, hall⟩ := hfirst.statementsAt (.nil atEnd)
    exact ⟨items, by simpa using hall⟩

end Proto2

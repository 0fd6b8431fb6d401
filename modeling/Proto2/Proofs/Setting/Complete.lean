import Proto2.Proofs.Setting.Longest

/-!
Everything that is derived stands in the tokens.

By induction on the number of tokens: a derived value stands in front of anything in which names
and strings come to an end, and runs on into it.  Within a list the next items are such; within
an aggregate nothing runs on, because an entry starts with an identifier or a bracket.
-/

namespace Proto2

variable {ts us rest : List Token} {close : Token}

/-- Derived values of fewer tokens than given stand in the tokens. -/
def ValuesStand (n : Nat) : Prop :=
  ∀ ts rest, ts.length < n → Derives Token.HasValue (.category .value) ts → Bounded rest →
    ∃ v us, Stands (.value v) (ts ++ rest) us ∧ RunsOn rest us

/-! ### Settings -/

theorem ValuesStand.setting (hn : ValuesStand ts.length)
    (h : Derives Token.HasValue (.category .setting) ts) (bounded : Bounded rest) :
    ∃ s us, Stands (.setting s) (ts ++ rest) us ∧ RunsOn rest us := by
  obtain ⟨head, more, equals, vs, rfl, hh, hm, he, hv⟩ := Derives.setting_iff.mp h
  obtain ⟨v, us, hvalue, hrun⟩ := hn vs rest (by simp; omega) hv bounded
  obtain ⟨part, hpart⟩ := hh.namePartAt (more ++ equals :: (vs ++ rest))
  obtain ⟨parts, hparts⟩ := hm.morePartsAt (equals :: (vs ++ rest)) (by simp [he])
  exact ⟨_, us, by simpa using .setting hpart hparts he hvalue, hrun⟩

/-! ### Items -/

theorem leadsOn_moreParts {readable : Token → Prop} {equals : Token} (rest : List Token)
    (h : Derives readable (.many (.token .dot ++ .category .namePart)) ts)
    (kind : equals.kind = .equals) : leadsOn (ts ++ equals :: rest) = true := by
  induction h using Derives.many_induction with
  | none => cases rest <;> simp [leadsOn, kind]
  | more us vs first others ih =>
      simp only [Derives.append_iff, Derives.token_iff] at first
      obtain ⟨_, ms, rfl, ⟨dot, rfl, hd⟩, hp⟩ := first
      rw [Derives.category_iff, Category.rule] at hp
      simp only [Derives.or_iff, Derives.append_iff, Derives.token_iff] at hp
      rcases hp with ⟨t, rfl, hk⟩ | ⟨_, _, rfl, ⟨_, ms, rfl, ⟨opening, rfl, ho⟩, -⟩, -⟩
      · simpa [leadsOn, hd, hk] using ih
      · simp [leadsOn, hd, ho]

theorem startsSetting_of_setting {readable : Token → Prop} (rest : List Token)
    (h : Derives readable (.category .setting) ts) : startsSetting (ts ++ rest) = true := by
  obtain ⟨head, more, equals, vs, rfl, hh, hm, he, -⟩ := Derives.setting_iff.mp h
  rw [Derives.category_iff, Category.rule] at hh
  simp only [Derives.or_iff, Derives.append_iff, Derives.token_iff] at hh
  rcases hh with ⟨t, rfl, hk⟩ | ⟨_, _, rfl, ⟨_, ms, rfl, ⟨opening, rfl, ho⟩, -⟩, -⟩
  · have := leadsOn_moreParts (vs ++ rest) hm he
    simp [startsSetting, hk, this]
  · simp [startsSetting, ho]

theorem startsSetting_of_value {readable : Token → Prop} {item comma more : List Token}
    (kind : close.kind = .closeBracket) (hi : Derives readable (.category .value) item)
    (hc : Derives readable (.optional (.token .comma)) comma)
    (hm : Derives readable (.many .listItem) more) :
    startsSetting (item ++ (comma ++ more) ++ close :: rest) = false := by
  cases item with
  | nil => exact absurd rfl hi.value_ne_nil
  | cons t item =>
      have hs := hi.value_start
      by_cases hk : t.kind = .identifier
      · have htail : item = [] ∨ Derives readable (.category .value) item := by
          simp only [Derives.value_cons_iff, hk] at hi
          split at hi
          · exact .inl hi
          · exact Derives.value_of_nameTail hi
        have hl := Derives.laterItems_of_tail htail hc hm
        simpa [startsSetting, hk] using
          Derives.leadsOn_laterItems rest kind _ _ (Nat.le_refl _) hl
      · have hp : t.kind ≠ .openParen := by
          intro hp
          simp [hp] at hs
        simp [startsSetting, hk, hp]

theorem ValuesStand.mono {m n : Nat} (hn : ValuesStand n) (le : m ≤ n) : ValuesStand m :=
  fun ts rest hm => hn ts rest (Nat.lt_of_lt_of_le hm le)

/-- Derived items stand before the bracket that closes the list. -/
theorem ValuesStand.items {n : Nat} (hn : ValuesStand n) (rest : List Token)
    (kind : close.kind = .closeBracket) (m : Nat) :
    ∀ ts, ts.length ≤ m → m < n → Derives Token.HasValue (.many .listItem) ts →
      ∃ vs, Stands (.items vs) (ts ++ close :: rest) (close :: rest) := by
  -- By the number of tokens and not of items: a string of the grammar's first item is an item of
  -- its own, so the items that follow are not those that the grammar derives.
  induction m with
  | zero =>
      intro ts hm _ _
      cases List.length_eq_zero_iff.mp (Nat.le_zero.mp hm)
      exact ⟨[], .noItems⟩
  | succ m ih =>
      intro ts hm hlt h
      cases ts with
      | nil => exact ⟨[], .noItems⟩
      | cons t ts =>
          simp only [List.length_cons] at hm
          by_cases hs : t.kind = .string
          · obtain ⟨hv, hlater⟩ := h.laterItems_of_items.laterItems_of_string hs
            obtain ⟨s, hvalue⟩ := hv.1 hs
            obtain ⟨vs, hskip, hitems, hlen⟩ := hlater.skipComma rest kind
            obtain ⟨ws, htail⟩ := ih vs (by omega) (by omega) hitems
            exact ⟨_, .stringItem hs hvalue hskip htail⟩
          · obtain ⟨item, comma, more, rfl, hi, hc, hmore⟩ := h.items_cons
            have hlater : Derives Token.HasValue .laterItems (comma ++ more) := .both hc hmore
            have hlen : (item ++ (comma ++ more)).length = item.length + (comma ++ more).length :=
              List.length_append
            -- What is read of the item may be longer than what is derived; it runs on into the later
            -- items, of which some are left.
            rcases hi with hi | hi
            · obtain ⟨s, us, hset, hrun⟩ :=
                ValuesStand.setting (hn.mono (by simp; omega)) hi (hlater.bounded rest kind)
              obtain ⟨ws, rfl, hws, hlen₁⟩ := hrun.laterItems kind hlater
              obtain ⟨vs, hskip, hitems, hlen₂⟩ := hws.skipComma rest kind
              obtain ⟨us, htail⟩ := ih vs (by omega) (by omega) hitems
              have hstart := startsSetting_of_setting (comma ++ more ++ close :: rest) hi
              rw [← List.append_assoc] at hset hstart
              exact ⟨_, .settingItem hstart hset hskip htail⟩
            · obtain ⟨v, us, hval, hrun⟩ :=
                hn (t :: item) _ (by simp; omega) hi (hlater.bounded rest kind)
              obtain ⟨ws, rfl, hws, hlen₁⟩ := hrun.laterItems kind hlater
              obtain ⟨vs, hskip, hitems, hlen₂⟩ := hws.skipComma rest kind
              obtain ⟨us, htail⟩ := ih vs (by omega) (by omega) hitems
              rw [← List.append_assoc] at hval
              exact ⟨_, .valueItem (startsSetting_of_value kind hi hc hmore) (by simpa using hs)
                hval hskip htail⟩

/-! ### Entries -/

theorem Derives.entry_iff {readable : Token → Prop} :
    Derives readable (.category .entry) ts ↔
      ∃ key, (∃ colon vs, ts = key ++ colon :: vs ∧ Derives readable (.category .key) key ∧
          colon.kind = .colon ∧ Derives readable (.category .value) vs) ∨
        (∃ vs, ts = key ++ vs ∧ Derives readable (.category .key) key ∧
          (Derives readable (.category .list) vs ∨ Derives readable (.category .aggregate) vs)) := by
  rw [category_iff, Category.rule]
  simp only [append_iff, or_iff, token_iff]
  constructor
  · rintro ⟨key, _, rfl, hk, (⟨_, vs, rfl, ⟨colon, rfl, hc⟩, hv⟩ | hv) | hv⟩
    · exact ⟨key, .inl ⟨colon, vs, rfl, hk, hc, hv⟩⟩
    · exact ⟨key, .inr ⟨_, rfl, hk, .inl hv⟩⟩
    · exact ⟨key, .inr ⟨_, rfl, hk, .inr hv⟩⟩
  · rintro ⟨key, ⟨colon, vs, rfl, hk, hc, hv⟩ | ⟨vs, rfl, hk, hv | hv⟩⟩
    · exact ⟨key, _, rfl, hk, .inl (.inl ⟨_, vs, rfl, ⟨colon, rfl, hc⟩, hv⟩)⟩
    · exact ⟨key, _, rfl, hk, .inl (.inr hv)⟩
    · exact ⟨key, _, rfl, hk, .inr hv⟩

theorem Derives.key_start {readable : Token → Prop} (h : Derives readable (.category .key) ts) :
    ∃ t us, ts = t :: us ∧ (t.kind = .identifier ∨ t.kind = .openBracket) := by
  rw [category_iff, Category.rule] at h
  simp only [or_iff, append_iff, token_iff] at h
  rcases h with ⟨t, rfl, hk⟩ | ⟨_, _, rfl, ⟨_, _, rfl, ⟨t, rfl, hk⟩, -⟩, -⟩
  · exact ⟨t, _, rfl, .inl hk⟩
  · exact ⟨t, _, rfl, .inr hk⟩

/-- An entry takes more tokens than its value. -/
theorem Derives.entries_iff {readable : Token → Prop} :
    Derives readable (.many .aggregateEntry) ts ↔
      ts = [] ∨ ∃ entry separator more, ts = entry ++ (separator ++ more) ∧
        Derives readable (.category .entry) entry ∧
        Derives readable (.optional (.token .comma ||| .token .semicolon)) separator ∧
        Derives readable (.many .aggregateEntry) more := by
  rw [many_iff]
  simp only [Phrase.aggregateEntry, append_iff (p := .category .entry)]
  constructor
  · rintro (rfl | ⟨_, more, rfl, ⟨entry, separator, rfl, he, hs⟩, hm⟩)
    · exact .inl rfl
    · exact .inr ⟨entry, separator, more, by simp, he, hs, hm⟩
  · rintro (rfl | ⟨entry, separator, more, rfl, he, hs, hm⟩)
    · exact .inl rfl
    · exact .inr ⟨_, more, by simp, ⟨entry, separator, rfl, he, hs⟩, hm⟩

/-- What an entry of an aggregate, or its end, starts with. -/
theorem Derives.entries_start {readable : Token → Prop} (rest : List Token)
    (kind : close.kind = .closeBrace) (h : Derives readable (.many .aggregateEntry) ts) :
    ∃ t us, ts ++ close :: rest = t :: us ∧
      t.kind ∈ [TokenKind.identifier, .openBracket, .closeBrace] := by
  rcases entries_iff.mp h with rfl | ⟨entry, separator, more, rfl, he, -⟩
  · exact ⟨close, rest, rfl, by simp [kind]⟩
  · obtain ⟨key, ⟨colon, vs, rfl, hk, -⟩ | ⟨vs, rfl, hk, -⟩⟩ := entry_iff.mp he
    all_goals
      obtain ⟨t, us, rfl, ht⟩ := hk.key_start
      refine ⟨t, _, rfl, ?_⟩
      rcases ht with ht | ht <;> simp [ht]

/-- The separator behind an entry is passed over. -/
theorem Derives.entryEndAt {readable : Token → Prop} {separator more : List Token}
    (rest : List Token) (kind : close.kind = .closeBrace)
    (hm : Derives readable (.many .aggregateEntry) more)
    (hs : Derives readable (.optional (.token .comma ||| .token .semicolon)) separator) :
    EntryEndAt (separator ++ (more ++ close :: rest)) (more ++ close :: rest) ∧
      NotAtKind .dot (separator ++ (more ++ close :: rest)) ∧
      NotAtKind .string (separator ++ (more ++ close :: rest)) := by
  simp only [optional_iff, or_iff, token_iff] at hs
  rcases hs with (⟨c, rfl, hc⟩ | ⟨c, rfl, hc⟩) | rfl
  · exact ⟨.inl ⟨c, rfl, hc⟩, by simp [hc], by simp [hc]⟩
  · exact ⟨.inr ⟨by simp [hc], .inl ⟨c, rfl, hc⟩⟩, by simp [hc], by simp [hc]⟩
  · obtain ⟨t, us, heq, ht⟩ := hm.entries_start rest kind
    have hne : ∀ k ∉ [TokenKind.identifier, .openBracket, .closeBrace], t.kind ≠ k := by
      rintro k hk rfl
      exact hk ht
    rw [List.nil_append, heq]
    exact ⟨.inr ⟨by simpa using hne .comma (by decide),
        .inr ⟨rfl, by simpa using hne .semicolon (by decide)⟩⟩,
      by simpa using hne .dot (by decide), by simpa using hne .string (by decide)⟩

theorem colonAt_of_bracket {readable : Token → Prop}
    (h : Derives readable (.category .list) ts ∨ Derives readable (.category .aggregate) ts) :
    ColonAt (ts ++ rest) (ts ++ rest) := by
  rcases h with h | h
  · obtain ⟨t, us, closing, rfl, hk, -⟩ := Derives.list_iff.mp h
    exact .bracket (.inr hk)
  · obtain ⟨t, us, closing, rfl, hk, -⟩ := Derives.aggregate_iff.mp h
    exact .bracket (.inl hk)

/-- Derived entries stand before the brace that closes the aggregate. -/
theorem ValuesStand.entries {n : Nat} (hn : ValuesStand n) (rest : List Token)
    (kind : close.kind = .closeBrace) (m : Nat) :
    ∀ ts, ts.length ≤ m → m ≤ n → Derives Token.HasValue (.many .aggregateEntry) ts →
      ∃ es, Stands (.entries es) (ts ++ close :: rest) (close :: rest) := by
  induction m with
  | zero =>
      intro ts hm _ _
      cases List.length_eq_zero_iff.mp (Nat.le_zero.mp hm)
      exact ⟨[], .noEntries⟩
  | succ m ih =>
      intro ts hm hlt h
      rcases Derives.entries_iff.mp h with rfl | ⟨entry, separator, more, rfl, he, hs, hmore⟩
      · exact ⟨[], .noEntries⟩
      · -- A value cannot run on into a separator, a key or the closing brace.
        obtain ⟨hend, hdot, hstring⟩ := hmore.entryEndAt rest kind hs
        have hbound := bounded_of_stop hdot hstring
        obtain ⟨key, ⟨colon, vs, rfl, hk, hc, hv⟩ | ⟨vs, rfl, hk, hv⟩⟩ :=
          Derives.entry_iff.mp he
        all_goals
          obtain ⟨t, us, rfl, hstart⟩ := hk.key_start
          simp only [List.length_append, List.length_cons] at hm
        · obtain ⟨v, ws, hval, hrun⟩ := hn vs _ (by omega) hv hbound
          cases hrun.eq_of_stop hdot hstring
          obtain ⟨es, htail⟩ := ih more (by omega) (by omega) hmore
          obtain ⟨k, hkey⟩ := hk.keyAt (colon :: (vs ++ (separator ++ (more ++ close :: rest))))
          exact ⟨_, by simpa using .entry hkey (.colon hc) hval hend htail⟩
        · have hvalue : Derives Token.HasValue (.category .value) vs := by
            refine Derives.value_iff.mpr ?_
            simp only [hv, or_true]
          obtain ⟨v, ws, hval, hrun⟩ := hn vs _ (by omega) hvalue hbound
          cases hrun.eq_of_stop hdot hstring
          obtain ⟨es, htail⟩ := ih more (by omega) (by omega) hmore
          obtain ⟨k, hkey⟩ := hk.keyAt (vs ++ (separator ++ (more ++ close :: rest)))
          exact ⟨_, by simpa using .entry hkey (colonAt_of_bracket hv) hval hend htail⟩

/-! ### Values -/

theorem valuesStand (n : Nat) : ValuesStand n := by
  -- The values in a list or an aggregate have fewer tokens than it has.
  induction n with
  | zero => exact fun ts rest h => absurd h (Nat.not_lt_zero _)
  | succ n ih =>
      intro ts rest hlen h bounded
      cases ts with
      | nil => exact absurd rfl h.value_ne_nil
      | cons t ts =>
          simp only [List.length_cons] at hlen
          rw [Derives.value_cons_iff] at h
          split at h
          case h_1 hk =>
            obtain ⟨ss, us, hstop⟩ := bounded.strings
            obtain ⟨s, hs⟩ := h.1.1 hk
            obtain ⟨ss', htail⟩ := h.2.stringsAt hstop
            exact ⟨_, us, .string (by simpa using hk) (.cons hk hs htail), .strings hstop⟩
          case h_2 hk =>
            obtain ⟨hv, rfl⟩ := h
            obtain ⟨n, hn⟩ := hv.2 hk
            exact ⟨_, rest, .int hk hn, .stop⟩
          case h_3 hk =>
            cases h
            exact ⟨_, rest, .float hk, .stop⟩
          case h_4 hk =>
            split at h
            case isTrue hw =>
              cases h
              exact ⟨_, rest, .bool hk (by simpa [startsBool, Token.isWord, hk] using hw), .stop⟩
            case isFalse hw =>
              obtain ⟨parts, us, hstop⟩ := bounded.name
              obtain ⟨parts', htail⟩ := h.nameTailAt hstop
              refine ⟨_, us, .constant ?_ (.relative hk htail), .name hstop⟩
              simpa [startsBool, Token.isWord, hk] using hw
          case h_5 hk =>
            obtain ⟨first, ts, rfl, hf, h⟩ := h
            obtain ⟨parts, us, hstop⟩ := bounded.name
            obtain ⟨parts', htail⟩ := h.nameTailAt hstop
            refine ⟨_, us, .constant ?_ (.rooted hk hf htail), .name hstop⟩
            simp [startsBool, Token.isWord, hk]
          case h_6 hk =>
            obtain ⟨ts, closing, rfl, h, hc⟩ := h
            simp only [List.length_append, List.length_cons, List.length_nil] at hlen
            obtain ⟨vs, hitems⟩ := ih.items rest hc _ ts (Nat.le_refl _) (by omega) h
            exact ⟨_, rest, by simpa using .list hk hitems hc, .stop⟩
          case h_7 hk =>
            obtain ⟨ts, closing, rfl, h, hc⟩ := h
            simp only [List.length_append, List.length_cons, List.length_nil] at hlen
            obtain ⟨es, hentries⟩ := ih.entries rest hc _ ts (Nat.le_refl _) (by omega) h
            exact ⟨_, rest, by simpa using .aggregate hk hentries hc, .stop⟩
          case h_8 => exact h.elim

/-- A derived setting stands before tokens that start with neither a dot nor a string. -/
theorem Derives.stands_setting (h : Derives Token.HasValue (.category .setting) ts)
    (dot : NotAtKind .dot rest) (string : NotAtKind .string rest) :
    ∃ s, Stands (.setting s) (ts ++ rest) rest := by
  obtain ⟨s, us, hs, hrun⟩ := (valuesStand _).setting h (bounded_of_stop dot string)
  cases hrun.eq_of_stop dot string
  exact ⟨s, hs⟩

/-! ### Bracketed settings -/

theorem Derives.settings_iff {readable : Token → Prop} :
    Derives readable (.many (.category .setting ++ .optional (.token .comma))) ts ↔
      ts = [] ∨ ∃ setting comma more, ts = setting ++ (comma ++ more) ∧
        Derives readable (.category .setting) setting ∧
        Derives readable (.optional (.token .comma)) comma ∧
        Derives readable (.many (.category .setting ++ .optional (.token .comma))) more := by
  rw [many_iff]
  simp only [append_iff (p := .category .setting)]
  constructor
  · rintro (rfl | ⟨_, more, rfl, ⟨setting, comma, rfl, hs, hc⟩, hm⟩)
    · exact .inl rfl
    · exact .inr ⟨setting, comma, more, by simp, hs, hc, hm⟩
  · rintro (rfl | ⟨setting, comma, more, rfl, hs, hc, hm⟩)
    · exact .inl rfl
    · exact .inr ⟨_, more, by simp, ⟨setting, comma, rfl, hs, hc⟩, hm⟩

/-- What a bracketed setting, or the end of the settings, starts with. -/
theorem Derives.settings_start {readable : Token → Prop} (rest : List Token)
    (kind : close.kind = .closeBracket)
    (h : Derives readable (.many (.category .setting ++ .optional (.token .comma))) ts) :
    ∃ t us, ts ++ close :: rest = t :: us ∧
      t.kind ∈ [TokenKind.identifier, .openParen, .closeBracket] := by
  rcases settings_iff.mp h with rfl | ⟨setting, comma, more, rfl, hs, -⟩
  · exact ⟨close, rest, rfl, by simp [kind]⟩
  · obtain ⟨t, us, rfl, ht⟩ := hs.setting_start
    refine ⟨t, _, rfl, ?_⟩
    rcases ht with ht | ht <;> simp [ht]

theorem Derives.settingEnd {readable : Token → Prop} {comma more : List Token}
    (rest : List Token) (kind : close.kind = .closeBracket)
    (hm : Derives readable (.many (.category .setting ++ .optional (.token .comma))) more)
    (hc : Derives readable (.optional (.token .comma)) comma) :
    SkipKind .comma (comma ++ (more ++ close :: rest)) (more ++ close :: rest) ∧
      NotAtKind .dot (comma ++ (more ++ close :: rest)) ∧
      NotAtKind .string (comma ++ (more ++ close :: rest)) := by
  simp only [optional_iff, token_iff] at hc
  rcases hc with ⟨c, rfl, hc⟩ | rfl
  · exact ⟨.inl ⟨c, rfl, hc⟩, by simp [hc], by simp [hc]⟩
  · obtain ⟨t, us, heq, ht⟩ := hm.settings_start rest kind
    have hne : ∀ k ∉ [TokenKind.identifier, .openParen, .closeBracket], t.kind ≠ k := by
      rintro k hk rfl
      exact hk ht
    rw [List.nil_append, heq]
    exact ⟨.inr ⟨rfl, by simpa using hne .comma (by decide)⟩,
      by simpa using hne .dot (by decide), by simpa using hne .string (by decide)⟩

theorem Derives.settingsAt (rest : List Token) (kind : close.kind = .closeBracket) (n : Nat) :
    ∀ ts, ts.length ≤ n →
      Derives Token.HasValue (.many (.category .setting ++ .optional (.token .comma))) ts →
      ∃ ss, SettingsAt (ts ++ close :: rest) ss (close :: rest) := by
  induction n with
  | zero =>
      intro ts hn _
      cases List.length_eq_zero_iff.mp (Nat.le_zero.mp hn)
      exact ⟨[], .nil⟩
  | succ n ih =>
      intro ts hn h
      rcases settings_iff.mp h with rfl | ⟨setting, comma, more, rfl, hs, hc, hm⟩
      · exact ⟨[], .nil⟩
      · obtain ⟨hskip, hdot, hstring⟩ := hm.settingEnd rest kind hc
        obtain ⟨s, hset⟩ := hs.stands_setting hdot hstring
        obtain ⟨t, us, rfl, -⟩ := hs.setting_start
        simp only [List.length_append, List.length_cons] at hn
        obtain ⟨ss, htail⟩ := ih more (by omega) hm
        exact ⟨s :: ss, by simpa using .cons hset hskip htail⟩

theorem Derives.bracketedAt (rest : List Token)
    (h : Derives Token.HasValue (.category .bracketedSettings) ts) :
    ∃ ss, BracketedAt (ts ++ rest) ss rest := by
  rw [category_iff, Category.rule] at h
  simp only [append_iff (q := .token _), append_iff (p := .token _), token_iff] at h
  obtain ⟨_, _, rfl, ⟨_, ms, rfl, ⟨opening, rfl, ho⟩, hs⟩, closing, rfl, hc⟩ := h
  obtain ⟨ss, hss⟩ := settingsAt rest hc _ ms (Nat.le_refl _) hs
  exact ⟨ss, opening, _, closing, by simp, ho, hss, hc⟩

theorem SettingsAt.begins {ss : List Setting} (h : SettingsAt ts ss us) :
    Begins Token.HasValue (.many (.category .setting ++ .optional (.token .comma))) ts us := by
  induction h with
  | nil => exact .none
  | cons head separator tail ih => exact .more (.append head.begins separator.begins) ih

theorem BracketedAt.begins {ss : List Setting} (h : BracketedAt ts ss us) :
    Begins Token.HasValue (.category .bracketedSettings) ts us := by
  obtain ⟨opening, ms, closing, rfl, ho, hss, hc⟩ := h
  exact .category (.append (.append (.token ho) hss.begins) (.token hc))

end Proto2

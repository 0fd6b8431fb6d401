import Proto2.Proofs.Setting.Parts

/-!
Reading settings and values: the parser reads exactly what stands in the tokens.

A value is read by a parser that is given how the values within it are read, and the depth of
nesting is bounded by the number of tokens.  What is read stands in the tokens whatever the
bound; and what stands in the tokens is read once the bound is as large as the number of tokens
it takes.
-/

namespace Proto2

namespace Parser

/-! ### Reading values

Values are read given how the values within them are read.  The lemmas of this part ask of the
inner reader that it takes a token.
-/

section Inner

variable {inner : Parser Value} [TokenDriven inner]

instance tokenDriven_listItem : TokenDriven (listItem inner) := by
  unfold listItem
  infer_instance

instance tokenDriven_list : TokenDriven (list inner) := by
  unfold list
  infer_instance

instance tokenDriven_entry : TokenDriven (entry inner) := by
  unfold entry
  infer_instance

instance tokenDriven_aggregate : TokenDriven (aggregate inner) := by
  unfold aggregate
  infer_instance

/-- What a value is read as, by the kind of its first token. -/
def valueFrom (inner : Parser Value) (t : Token) : Parser Value :=
  match t.kind with
  | .string => return .string (← adjacentStrings)
  | .integer => return .int (← integerLiteral)
  | .float => return .float (← floatLiteral)
  | .identifier =>
    if t.isWord "true" ∨ t.isWord "false" then
      return .bool ((← next).lexeme = "true")
    else
      return .constant (← qualifiedName .option "a name")
  | .dot => return .constant (← qualifiedName .option "a name")
  | .openBracket => list inner
  | .openBrace => aggregate inner
  | _ => fail .option t .notAValue

omit [TokenDriven inner] in
theorem valueWith_eq : valueWith inner = peek 0 >>= valueFrom inner := rfl

instance tokenDriven_valueFrom (t : Token) : TokenDriven (valueFrom inner t) := by
  unfold valueFrom
  split <;> infer_instance

instance tokenDriven_valueWith : TokenDriven (valueWith inner) := by
  rw [valueWith_eq]
  infer_instance

/-- An item of a list, with the comma behind it if there is one. -/
def listStep (inner : Parser Value) (opened : Token) : Parser Value := do
  checkOpen opened
  let item ← listItem inner
  let _ ← accept? .comma
  return item

/-- An entry of an aggregate, with the separator behind it if there is one. -/
def entryStep (inner : Parser Value) (opened : Token) : Parser (String × Value) := do
  checkOpen opened
  let e ← entry inner
  entrySeparator
  return e

instance tokenDriven_listStep (opened : Token) : TokenDriven (listStep inner opened) := by
  unfold listStep
  infer_instance

instance tokenDriven_entryStep (opened : Token) : TokenDriven (entryStep inner opened) := by
  unfold entryStep
  infer_instance

theorem reads_listItem {ts us : List Token} {v : Value} :
    Reads (listItem inner) ts v us ↔
      (startsSetting ts = true ∧ ∃ s, v = .setting s ∧ Reads (settingWith inner) ts s us) ∨
        (∃ t rest s, ts = t :: rest ∧ t.kind = .string ∧ t.stringValue = .ok s ∧
          v = .string s ∧ us = rest) ∨
        (startsSetting ts = false ∧ NotAtKind .string ts ∧ Reads inner ts v us) := by
  simp only [listItem, reads_bind, reads_isAtSetting, reads_ite, reads_pure, reads_isAt]
  constructor
  · rintro ⟨_, _, ⟨hne, rfl, rfl⟩, ⟨hs, s, _, hr, rfl, rfl⟩ | ⟨hs, b, _, ⟨rfl, hb⟩, hr⟩⟩
    · exact .inl ⟨hs, s, rfl, hr⟩
    · rcases hb with ⟨rfl, t, rest, rfl, hk⟩ | ⟨rfl, hk⟩
      · obtain ⟨-, s, _, hr, rfl, rfl⟩ | ⟨h, -⟩ := hr
        · obtain ⟨hv, rfl⟩ := (reads_stringLiteral hk).mp hr
          exact .inr (.inl ⟨t, _, s, rfl, hk, hv, rfl, rfl⟩)
        · exact absurd rfl h
      · obtain ⟨h, -⟩ | ⟨-, hr⟩ := hr
        · cases h
        · exact .inr (.inr ⟨by simpa using hs, hk, hr⟩)
  · rintro (⟨hs, s, rfl, hr⟩ | ⟨t, _, s, rfl, hk, hv, rfl, rfl⟩ | ⟨hs, hk, hr⟩)
    · refine ⟨_, _, ⟨?_, rfl, rfl⟩, .inl ⟨hs, s, us, hr, rfl, rfl⟩⟩
      rintro rfl
      cases hs
    · refine ⟨_, _, ⟨by simp, rfl, rfl⟩, .inr ⟨by simp [startsSetting, hk], true, _,
        ⟨rfl, .inl ⟨rfl, by simpa using hk⟩⟩, .inl ⟨rfl, s, us, ?_, rfl, rfl⟩⟩⟩
      exact (reads_stringLiteral hk).mpr ⟨hv, rfl⟩
    · refine ⟨_, _, ⟨?_, rfl, rfl⟩, .inr ⟨by simp [hs], false, _, ⟨rfl, .inr ⟨rfl, hk⟩⟩,
        .inr ⟨by simp, hr⟩⟩⟩
      rintro rfl
      simp at hk

theorem reads_listStep {opened : Token} {ts us : List Token} {v : Value} :
    Reads (listStep inner opened) ts v us ↔
      NotAtKind .endOfInput ts ∧ ∃ ms, Reads (listItem inner) ts v ms ∧ SkipKind .comma ms us := by
  simp only [listStep, reads_bind, reads_checkOpen, reads_pure,
    ← reads_skip (by decide : TokenKind.comma ≠ _)]
  constructor
  · rintro ⟨_, _, ⟨rfl, hend⟩, item, ms, hr, o, _, ho, rfl, rfl⟩
    exact ⟨hend, ms, hr, o, ho⟩
  · rintro ⟨hend, ms, hr, o, ho⟩
    exact ⟨.unit, ts, ⟨rfl, hend⟩, v, ms, hr, o, us, ho, rfl, rfl⟩

theorem reads_entryStep {opened : Token} {ts us : List Token} {e : String × Value} :
    Reads (entryStep inner opened) ts e us ↔
      NotAtKind .endOfInput ts ∧ ∃ ms ns ps, KeyAt ts e.1 ms ∧ ColonAt ms ns ∧
        Reads inner ns e.2 ps ∧ EntryEndAt ps us := by
  simp only [entryStep, entry, reads_bind, reads_checkOpen, reads_pure, reads_key, reads_colon,
    reads_entrySeparator]
  constructor
  · rintro ⟨_, _, ⟨rfl, hend⟩, _, _, ⟨k, ms, hk, _, ns, hc, v, ps, hv, rfl, rfl⟩, _, _, hs, rfl,
      rfl⟩
    exact ⟨hend, ms, ns, _, hk, hc, hv, hs⟩
  · rintro ⟨hend, ms, ns, ps, hk, hc, hv, hs⟩
    exact ⟨.unit, ts, ⟨rfl, hend⟩, e, ps, ⟨e.1, ms, hk, .unit, ns, hc, e.2, ps, hv, rfl, rfl⟩,
      .unit, us, hs, rfl, rfl⟩

/-- What the inner reader has to satisfy: it reads values that stand in the tokens. -/
def Sound (inner : Parser Value) : Prop :=
  ∀ ts v us, Reads inner ts v us → Stands (.value v) ts us

theorem Sound.settingWith (sound : Sound inner) {ts us : List Token} {s : Setting}
    (h : Reads (settingWith inner) ts s us) : Stands (.setting s) ts us := by
  obtain ⟨first, rest, ms, equals, ns, v, head, more, he, hv, rfl⟩ := reads_settingWith.mp h
  exact .setting head more he (sound _ _ _ hv)

theorem Sound.listItem_length (sound : Sound inner) {ts us : List Token} {v : Value}
    (h : Reads (listItem inner) ts v us) : us.length < ts.length := by
  rcases reads_listItem.mp h with ⟨-, s, rfl, hr⟩ | ⟨t, _, s, rfl, -, -, -, rfl⟩ | ⟨-, -, hr⟩
  · exact (sound.settingWith hr).length
  · simp
  · exact (sound _ _ _ hr).length

theorem Sound.listStep_length (sound : Sound inner) (opened : Token) (ts : List Token)
    (v : Value) (us : List Token) (h : Reads (listStep inner opened) ts v us) :
    us.length < ts.length := by
  obtain ⟨-, ms, hr, hs⟩ := reads_listStep.mp h
  have h₁ := sound.listItem_length hr
  have h₂ := hs.length_le
  omega

/-- An item of a list, with what separates it from the next one, is a step of the list. -/
theorem Sound.itemStep_list (sound : Sound inner) {opened : Token} {ts ms us : List Token}
    {v : Value} (item : Reads (listItem inner) ts v ms) (separator : SkipKind .comma ms us) :
    itemStep .closeBracket (listStep inner opened) ts v us := by
  have hstart {kind : TokenKind} (hkind : kind = .closeBracket ∨ kind = .endOfInput) :
      NotAtKind kind ts := by
    rcases reads_listItem.mp item with ⟨start, -⟩ | ⟨t, rest, s, rfl, hk, -⟩ | ⟨-, -, hr⟩
    · exact notAtKind_of_startsSetting (by rintro rfl; simp at hkind)
        (by rintro rfl; simp at hkind) start
    · rw [notAtKind_cons, hk]
      rintro rfl
      simp at hkind
    · refine (sound _ _ _ hr).notAtKind ?_
      rcases hkind with rfl | rfl <;> decide
  exact ⟨hstart (.inl rfl), reads_listStep.mpr ⟨hstart (.inr rfl), ms, item, separator⟩⟩

theorem Sound.entryStep_length (sound : Sound inner) (opened : Token) (ts : List Token)
    (e : String × Value) (us : List Token) (h : Reads (entryStep inner opened) ts e us) :
    us.length < ts.length := by
  obtain ⟨-, ms, ns, ps, hk, hc, hv, hs⟩ := reads_entryStep.mp h
  have h₁ := hk.length_lt
  have h₂ := hc.length_le
  have h₃ : ps.length < ns.length := (sound _ _ _ hv).length
  have h₄ := hs.length_le
  omega

theorem Sound.items (sound : Sound inner) {opened : Token} {ts us : List Token}
    {vs : List Value}
    (h : Sequence (itemStep .closeBracket (listStep inner opened)) ts vs us) :
    Stands (.items vs) ts us := by
  induction h with
  | nil => exact .noItems
  | cons head tail ih =>
      obtain ⟨-, ms, hr, hs⟩ := reads_listStep.mp head.2
      rcases reads_listItem.mp hr with ⟨start, s, rfl, hset⟩ |
        ⟨t, _, s, rfl, hk, hv, rfl, rfl⟩ | ⟨start, other, hval⟩
      · exact .settingItem start (sound.settingWith hset) hs ih
      · exact .stringItem hk hv hs ih
      · exact .valueItem start other (sound _ _ _ hval) hs ih

theorem Sound.entries (sound : Sound inner) {opened : Token} {ts us : List Token}
    {es : List (String × Value)}
    (h : Sequence (itemStep .closeBrace (entryStep inner opened)) ts es us) :
    Stands (.entries es) ts us := by
  induction h with
  | nil => exact .noEntries
  | cons head tail ih =>
      obtain ⟨-, ms, ns, ps, hk, hc, hv, hs⟩ := reads_entryStep.mp head.2
      exact .entry hk hc (sound _ _ _ hv) hs ih

theorem reads_list (sound : Sound inner) {opening : Token} {ts us : List Token} {v : Value}
    (kind : opening.kind = .openBracket) :
    Reads (list inner) (opening :: ts) v us ↔
      ∃ vs closing, v = .list vs ∧ closing.kind = .closeBracket ∧
        Sequence (itemStep .closeBracket (listStep inner opening)) ts vs (closing :: us) :=
  reads_next_itemsUntil (by decide) (isEnd_eq_false_of_kind kind (by decide))
    (sound.listStep_length opening)

theorem reads_aggregate (sound : Sound inner) {opening : Token} {ts us : List Token} {v : Value}
    (kind : opening.kind = .openBrace) :
    Reads (aggregate inner) (opening :: ts) v us ↔
      ∃ es closing, v = Value.ofEntries es ∧ closing.kind = .closeBrace ∧
        Sequence (itemStep .closeBrace (entryStep inner opening)) ts es (closing :: us) :=
  reads_next_itemsUntil (by decide) (isEnd_eq_false_of_kind kind (by decide))
    (sound.entryStep_length opening)

section First

variable {t : Token} {ts us : List Token} {v : Value}

omit [TokenDriven inner]

theorem reads_valueFrom_string (kind : t.kind = .string) :
    Reads (valueFrom inner t) (t :: ts) v us ↔
      ∃ ss, StringsAt (t :: ts) ss us ∧ v = .string (String.join ss) := by
  simp only [valueFrom, kind, reads_map, reads_adjacentStrings kind]
  constructor
  · rintro ⟨_, ⟨ss, hs, rfl⟩, rfl⟩
    exact ⟨ss, hs, rfl⟩
  · rintro ⟨ss, hs, rfl⟩
    exact ⟨_, ⟨ss, hs, rfl⟩, rfl⟩

theorem reads_valueFrom_integer (kind : t.kind = .integer) :
    Reads (valueFrom inner t) (t :: ts) v us ↔
      us = ts ∧ ∃ n, t.integerValue = .ok n ∧ v = .int n := by
  simp only [valueFrom, kind, reads_map, reads_integerLiteral kind]
  constructor
  · rintro ⟨n, ⟨hn, rfl⟩, rfl⟩
    exact ⟨rfl, n, hn, rfl⟩
  · rintro ⟨rfl, n, hn, rfl⟩
    exact ⟨n, ⟨hn, rfl⟩, rfl⟩

theorem reads_valueFrom_float (kind : t.kind = .float) :
    Reads (valueFrom inner t) (t :: ts) v us ↔ us = ts ∧ v = .float t.floatValue := by
  simp only [valueFrom, kind, reads_map, reads_floatLiteral kind]
  constructor
  · rintro ⟨_, ⟨rfl, rfl⟩, rfl⟩
    exact ⟨rfl, rfl⟩
  · rintro ⟨rfl, rfl⟩
    exact ⟨_, ⟨rfl, rfl⟩, rfl⟩

theorem reads_valueFrom_identifier (kind : t.kind = .identifier) :
    Reads (valueFrom inner t) (t :: ts) v us ↔
      (startsBool (t :: ts) = true ∧ us = ts ∧ v = .bool (t.lexeme = "true")) ∨
        (startsBool (t :: ts) = false ∧ ∃ name, NameAt (t :: ts) name us ∧ v = .constant name) := by
  simp only [valueFrom, kind, reads_ite, reads_map, reads_qualifiedName,
    reads_next_of_kind (by decide) kind, startsBool, Bool.or_eq_true, Bool.or_eq_false_iff, not_or,
    Bool.not_eq_true]
  constructor
  · rintro (⟨hw, _, ⟨rfl, rfl⟩, rfl⟩ | h)
    · exact .inl ⟨hw, rfl, rfl⟩
    · exact .inr h
  · rintro (⟨hw, rfl, rfl⟩ | h)
    · exact .inl ⟨hw, _, ⟨rfl, rfl⟩, rfl⟩
    · exact .inr h

theorem reads_valueFrom_dot (kind : t.kind = .dot) :
    Reads (valueFrom inner t) (t :: ts) v us ↔
      ∃ name, NameAt (t :: ts) name us ∧ v = .constant name := by
  simp only [valueFrom, kind, reads_map, reads_qualifiedName]

end First

/-- A reader of values on top of a sound one is sound. -/
theorem Sound.valueWith (sound : Sound inner) : Sound (valueWith inner) := by
  intro ts v us h
  rw [valueWith_eq] at h
  cases ts with
  | nil => simp [reads_bind_peek] at h
  | cons t ts =>
      rw [reads_bind_peek_cons] at h
      cases hk : t.kind with
      | string =>
          obtain ⟨ss, hs, rfl⟩ := (reads_valueFrom_string hk).mp h
          exact .string (by simpa using hk) hs
      | integer =>
          obtain ⟨rfl, n, hn, rfl⟩ := (reads_valueFrom_integer hk).mp h
          exact .int hk hn
      | float =>
          obtain ⟨rfl, rfl⟩ := (reads_valueFrom_float hk).mp h
          exact .float hk
      | identifier =>
          obtain ⟨hw, rfl, rfl⟩ | ⟨hw, name, hn, rfl⟩ := (reads_valueFrom_identifier hk).mp h
          · exact .bool hk hw
          · exact .constant hw hn
      | dot =>
          obtain ⟨name, hn, rfl⟩ := (reads_valueFrom_dot hk).mp h
          exact .constant (by simp [startsBool, Token.isWord, hk]) hn
      | openBracket =>
          simp only [valueFrom, hk, reads_list sound hk] at h
          obtain ⟨vs, closing, rfl, hc, hs⟩ := h
          exact .list hk (sound.items hs) hc
      | openBrace =>
          simp only [valueFrom, hk, reads_aggregate sound hk] at h
          obtain ⟨es, closing, rfl, hc, hs⟩ := h
          exact .aggregate hk (sound.entries hs) hc
      | _ => simp [valueFrom, hk] at h

end Inner

instance tokenDriven_valueWithin (depth : Nat) : TokenDriven (valueWithin depth) := by
  induction depth with
  | zero =>
      unfold valueWithin
      infer_instance
  | succ depth ih =>
      unfold valueWithin
      infer_instance

instance tokenDriven_value : TokenDriven value := by
  unfold value
  infer_instance

instance tokenDriven_setting : TokenDriven setting := by
  unfold setting
  infer_instance

theorem sound_valueWithin (depth : Nat) : Sound (valueWithin depth) := by
  induction depth with
  | zero =>
      intro ts v us h
      simp [valueWithin] at h
  | succ depth ih => exact ih.valueWith

/-! ### Everything that stands is read -/

theorem reads_valueWithin_succ {depth : Nat} {t : Token} {ts us : List Token} {v : Value} :
    Reads (valueWithin (depth + 1)) (t :: ts) v us ↔
      Reads (valueFrom (valueWithin depth) t) (t :: ts) v us := by
  rw [valueWithin, valueWith_eq, reads_bind_peek_cons]

/-- What a reader of values has to do for a part, at a depth that is not zero. -/
def Complete (depth : Nat) : Part → List Token → List Token → Prop
  | .setting s, ts, us => Reads (settingWith (valueWithin (depth + 1))) ts s us
  | .value v, ts, us => Reads (valueWithin (depth + 1)) ts v us
  | .items vs, ts, us =>
    ∀ opened, AtKind .closeBracket us →
      Sequence (itemStep .closeBracket (listStep (valueWithin (depth + 1)) opened)) ts vs us
  | .entries es, ts, us =>
    ∀ opened, AtKind .closeBrace us →
      Sequence (itemStep .closeBrace (entryStep (valueWithin (depth + 1)) opened)) ts es us

/-- What stands in the tokens is read, if the depth is at least the number of tokens taken. -/
theorem complete_of_stands {part : Part} {ts us : List Token} (h : Stands part ts us) :
    ∀ depth, ts.length ≤ us.length + (depth + 1) → Complete depth part ts us := by
  -- Along what stands in the tokens.  A bracket takes two tokens and one level of the depth, so
  -- the depth is large enough for what is between the brackets too.
  induction h with
  | setting head more kind value ih =>
      intro depth hd
      have h₁ := head.length_lt
      have h₂ := more.length_le
      simp only [List.length_cons] at h₂
      exact reads_settingWith.mpr ⟨_, _, _, _, _, _, head, more, kind, ih depth (by omega), rfl⟩
  | @string ts us ss start strings =>
      intro depth hd
      obtain ⟨t, ts, rfl, hk⟩ := start
      exact reads_valueWithin_succ.mpr ((reads_valueFrom_string hk).mpr ⟨ss, strings, rfl⟩)
  | @int t us n kind value =>
      intro depth hd
      exact reads_valueWithin_succ.mpr ((reads_valueFrom_integer kind).mpr ⟨rfl, n, value, rfl⟩)
  | @float t us kind =>
      intro depth hd
      exact reads_valueWithin_succ.mpr ((reads_valueFrom_float kind).mpr ⟨rfl, rfl⟩)
  | @bool t us kind word =>
      intro depth hd
      exact reads_valueWithin_succ.mpr
        ((reads_valueFrom_identifier kind).mpr (.inl ⟨word, rfl, rfl⟩))
  | @constant ts us name start inner =>
      intro depth hd
      have hname := inner
      cases inner with
      | relative kind tail =>
          exact reads_valueWithin_succ.mpr
            ((reads_valueFrom_identifier kind).mpr (.inr ⟨start, _, hname, rfl⟩))
      | rooted dotKind kind tail =>
          exact reads_valueWithin_succ.mpr ((reads_valueFrom_dot dotKind).mpr ⟨_, hname, rfl⟩)
  | @list opening closing ts us vs openKind items closeKind ih =>
      intro depth hd
      have hlen := items.length
      simp only [List.length_cons] at hd hlen
      obtain ⟨depth, rfl⟩ : ∃ d, depth = d + 1 := ⟨depth - 1, by omega⟩
      simp only [Complete, reads_valueWithin_succ, valueFrom, openKind,
        reads_list (sound_valueWithin (depth + 1)) openKind]
      refine ⟨vs, closing, rfl, closeKind, ih depth ?_ opening (by simpa using closeKind)⟩
      simp only [List.length_cons]
      omega
  | @aggregate opening closing ts us es openKind entries closeKind ih =>
      intro depth hd
      have hlen := entries.length
      simp only [List.length_cons] at hd hlen
      obtain ⟨depth, rfl⟩ : ∃ d, depth = d + 1 := ⟨depth - 1, by omega⟩
      simp only [Complete, reads_valueWithin_succ, valueFrom, openKind,
        reads_aggregate (sound_valueWithin (depth + 1)) openKind]
      refine ⟨es, closing, rfl, closeKind, ih depth ?_ opening (by simpa using closeKind)⟩
      simp only [List.length_cons]
      omega
  | noItems => exact fun _ _ _ _ => .nil
  | settingItem start head separator tail ih₁ ih₂ =>
      intro depth hd opened hclose
      have h₁ := head.length
      have h₂ := separator.length_le
      have h₃ := tail.length
      simp only at h₁ h₃
      have hitem := reads_listItem.mpr (.inl ⟨start, _, rfl, ih₁ depth (by omega)⟩)
      exact .cons ((sound_valueWithin _).itemStep_list hitem separator)
        (ih₂ depth (by omega) opened hclose)
  | stringItem kind value separator tail ih =>
      intro depth hd opened hclose
      have h₂ := separator.length_le
      simp only [List.length_cons] at hd
      refine .cons ((sound_valueWithin _).itemStep_list (reads_listItem.mpr ?_) separator)
        (ih depth (by omega) opened hclose)
      exact .inr (.inl ⟨_, _, _, rfl, kind, value, rfl, rfl⟩)
  | valueItem start other head separator tail ih₁ ih₂ =>
      intro depth hd opened hclose
      have h₁ := head.length
      have h₂ := separator.length_le
      have h₃ := tail.length
      simp only at h₁ h₃
      have hitem := reads_listItem.mpr (.inr (.inr ⟨start, other, ih₁ depth (by omega)⟩))
      exact .cons ((sound_valueWithin _).itemStep_list hitem separator)
        (ih₂ depth (by omega) opened hclose)
  | noEntries => exact fun _ _ _ _ => .nil
  | entry key colon value separator tail ih₁ ih₂ =>
      intro depth hd opened hclose
      have h₁ := key.length_lt
      have h₂ := colon.length_le
      have h₃ := value.length
      have h₄ := separator.length_le
      have h₅ := tail.length
      simp only at h₃ h₅
      exact .cons ⟨key.notAtKind (by decide) (by decide), reads_entryStep.mpr
          ⟨key.notAtKind (by decide) (by decide), _, _, _, key, colon, ih₁ depth (by omega),
            separator⟩⟩
        (ih₂ depth (by omega) opened hclose)

/-! ### Settings -/

/-- The parser of settings reads exactly the settings that stand in the tokens. -/
theorem reads_setting {ts us : List Token} {s : Setting} :
    Reads setting ts s us ↔ Stands (.setting s) ts us := by
  simp only [setting, reads_settingWith, value, reads_bind_budget]
  constructor
  · rintro ⟨first, rest, ms, equals, ns, v, head, more, kind, hv, rfl⟩
    exact .setting head more kind (sound_valueWithin _ _ _ _ hv)
  · intro h
    cases h with
    | setting head more kind value =>
        exact ⟨_, _, _, _, _, _, head, more, kind, complete_of_stands value _ (by omega), rfl⟩

end Parser

/-- Settings up to a closing bracket, each with the comma behind it if there is one. -/
inductive SettingsAt : List Token → List Setting → List Token → Prop
  | nil {ts : List Token} : SettingsAt ts [] ts
  | cons {ts ms ns us : List Token} {s : Setting} {ss : List Setting}
      (head : Stands (.setting s) ts ms) (separator : SkipKind .comma ms ns)
      (tail : SettingsAt ns ss us) : SettingsAt ts (s :: ss) us

/-- Settings between brackets. -/
def BracketedAt (before : List Token) (ss : List Setting) (after : List Token) : Prop :=
  ∃ opening ts closing, before = opening :: ts ∧ opening.kind = .openBracket ∧
    SettingsAt ts ss (closing :: after) ∧ closing.kind = .closeBracket

theorem Stands.setting_notAtKind {kind : TokenKind} {s : Setting} {ts us : List Token}
    (h : Stands (.setting s) ts us) (other : kind ≠ .openParen) (other' : kind ≠ .identifier) :
    NotAtKind kind ts := by
  cases h with
  | setting head more equal value =>
      cases head with
      | builtIn kind => simp [kind, Ne.symm other']
      | custom openKind inner closeKind => simp [openKind, Ne.symm other]

namespace Parser

/-- A setting between brackets, with the comma behind it if there is one. -/
def settingStep (opened : Token) : Parser Setting := do
  checkOpen opened
  let s ← setting
  let _ ← accept? .comma
  return s

instance tokenDriven_settingStep (opened : Token) : TokenDriven (settingStep opened) := by
  unfold settingStep
  infer_instance

theorem bracketedSettings_eq :
    bracketedSettings = expect .option .openBracket "" >>= fun opened =>
      itemsUntil .closeBracket (settingStep opened) := rfl

instance tokenDriven_bracketedSettings : TokenDriven bracketedSettings := by
  rw [bracketedSettings_eq]
  infer_instance

theorem reads_settingStep {opened : Token} {ts us : List Token} {s : Setting} :
    Reads (settingStep opened) ts s us ↔
      NotAtKind .endOfInput ts ∧ ∃ ms, Stands (.setting s) ts ms ∧ SkipKind .comma ms us := by
  simp only [settingStep, reads_bind, reads_checkOpen, reads_setting, reads_pure,
    ← reads_skip (by decide : TokenKind.comma ≠ _)]
  constructor
  · rintro ⟨_, _, ⟨rfl, hend⟩, s, ms, hs, o, _, ho, rfl, rfl⟩
    exact ⟨hend, ms, hs, o, ho⟩
  · rintro ⟨hend, ms, hs, o, ho⟩
    exact ⟨.unit, ts, ⟨rfl, hend⟩, s, ms, hs, o, us, ho, rfl, rfl⟩

theorem settingStep_length (opened : Token) (ts : List Token) (s : Setting) (us : List Token)
    (h : Reads (settingStep opened) ts s us) : us.length < ts.length := by
  obtain ⟨-, ms, hs, hsep⟩ := reads_settingStep.mp h
  have h₁ : ms.length < ts.length := hs.length
  have h₂ := hsep.length_le
  omega

theorem sequence_settingStep {opened : Token} {ts us : List Token} {ss : List Setting} :
    Sequence (itemStep .closeBracket (settingStep opened)) ts ss us ↔ SettingsAt ts ss us := by
  constructor
  · intro h
    induction h with
    | nil => exact .nil
    | cons head tail ih =>
        obtain ⟨-, ms, hs, hsep⟩ := reads_settingStep.mp head.2
        exact .cons hs hsep ih
  · intro h
    induction h with
    | nil => exact .nil
    | cons head separator tail ih =>
        exact .cons ⟨head.setting_notAtKind (by decide) (by decide), reads_settingStep.mpr
          ⟨head.setting_notAtKind (by decide) (by decide), _, head, separator⟩⟩ ih

/-- The parser of bracketed settings reads exactly those that stand in the tokens. -/
theorem reads_bracketedSettings {ts us : List Token} {ss : List Setting} :
    Reads bracketedSettings ts ss us ↔ BracketedAt ts ss us := by
  rw [bracketedSettings_eq]
  simp only [reads_bind, reads_expect (by decide : TokenKind.openBracket ≠ _),
    reads_itemsUntil (by decide : TokenKind.closeBracket ≠ _) (settingStep_length _),
    sequence_settingStep]
  constructor
  · rintro ⟨opening, ms, ⟨rfl, ho⟩, closing, hc, h⟩
    exact ⟨opening, ms, closing, rfl, ho, h, hc⟩
  · rintro ⟨opening, ms, closing, rfl, ho, h, hc⟩
    exact ⟨opening, ms, ⟨rfl, ho⟩, closing, hc, h⟩

end Parser

end Proto2

import Proto2.Proofs.Setting.Stands

/-!
Reading option names, keys and separators.
-/

namespace Proto2

namespace Parser

/-! ### Reading option names -/

instance tokenDriven_namePart : TokenDriven namePart := by
  unfold namePart
  infer_instance

instance tokenDriven_moreNameParts (n : Nat) : TokenDriven (moreNameParts n) := by
  induction n with
  | zero =>
      unfold moreNameParts
      infer_instance
  | succ n ih =>
      unfold moreNameParts
      infer_instance

instance tokenDriven_settingWith (value : Parser Value) [TokenDriven value] :
    TokenDriven (settingWith value) := by
  unfold settingWith
  infer_instance

theorem reads_namePart {ts us : List Token} {part : NamePart} :
    Reads namePart ts part us ↔ NamePartAt ts part us := by
  simp only [namePart, reads_if_accepts (by decide : TokenKind.openParen ≠ _), reads_bind,
    reads_qualifiedName, reads_expect (by decide : TokenKind.closeParen ≠ _), reads_identifier,
    reads_pure]
  constructor
  · rintro (⟨opening, ms, rfl, ho, name, _, hname, closing, _, ⟨rfl, hc⟩, rfl, rfl⟩ |
      ⟨-, _, _, ⟨t, rfl, hk, rfl⟩, rfl, rfl⟩)
    · exact .custom ho hname hc
    · exact .builtIn hk
  · intro h
    cases h with
    | @builtIn t ts kind =>
        exact .inr ⟨by simp [kind], _, _, ⟨t, rfl, kind, rfl⟩, rfl, rfl⟩
    | @custom opening closing ts _ name openKind inner closeKind =>
        exact .inl ⟨opening, ts, rfl, openKind, name, _, inner, closing, us, ⟨rfl, closeKind⟩,
          rfl, rfl⟩

theorem reads_moreNameParts {n : Nat} {ts us : List Token} {parts : List NamePart} :
    Reads (moreNameParts n) ts parts us ↔ parts.length < n ∧ MorePartsAt ts parts us := by
  induction n generalizing ts us parts with
  | zero => simp [moreNameParts]
  | succ n ih =>
      simp only [moreNameParts, reads_if_accepts (by decide : TokenKind.dot ≠ _), reads_bind,
        reads_namePart, ih, reads_pure]
      constructor
      · rintro (⟨dot, rest, rfl, hd, part, ms, head, parts, _, ⟨hn, tail⟩, rfl, rfl⟩ |
          ⟨stop, rfl, rfl⟩)
        · exact ⟨Nat.succ_lt_succ hn, .cons hd head tail⟩
        · exact ⟨Nat.succ_pos _, .nil stop⟩
      · rintro ⟨hn, h⟩
        cases h with
        | nil stop => exact .inr ⟨stop, rfl, rfl⟩
        | @cons dot ts ms _ part parts kind head tail =>
            exact .inl ⟨dot, ts, rfl, kind, part, ms, head, parts, us,
              ⟨Nat.lt_of_succ_lt_succ hn, tail⟩, rfl, rfl⟩

theorem reads_settingWith {value : Parser Value} [TokenDriven value] {ts us : List Token}
    {s : Setting} :
    Reads (settingWith value) ts s us ↔
      ∃ first rest ms equals ns v, NamePartAt ts first ms ∧
        MorePartsAt ms rest (equals :: ns) ∧ equals.kind = .equals ∧ Reads value ns v us ∧
        s = Setting.ofParts first rest v := by
  simp only [settingWith, reads_bind, reads_namePart, reads_budget, reads_moreNameParts,
    reads_expect (by decide : TokenKind.equals ≠ _), reads_pure]
  constructor
  · rintro ⟨first, _, head, _, ms, ⟨rfl, rfl⟩, rest, _, ⟨-, more⟩, equals, ns, ⟨rfl, he⟩, v, _,
      hv, rfl, rfl⟩
    exact ⟨first, rest, ms, equals, ns, v, head, more, he, hv, rfl⟩
  · rintro ⟨first, rest, ms, equals, ns, v, head, more, he, hv, rfl⟩
    have := more.length_le
    simp only [List.length_cons] at this
    exact ⟨first, ms, head, _, _, ⟨rfl, rfl⟩, rest, _, ⟨by omega, more⟩, equals, ns, ⟨rfl, he⟩,
      v, us, hv, rfl, rfl⟩

/-! ### Looking for a setting -/

instance tokenDriven_checkOpen (opened : Token) : TokenDriven (checkOpen opened) := by
  unfold checkOpen
  infer_instance

instance tokenDriven_leadsToSetting (n i : Nat) : TokenDriven (leadsToSetting n i) := by
  induction n generalizing i with
  | zero =>
      unfold leadsToSetting
      infer_instance
  | succ n ih =>
      unfold leadsToSetting
      infer_instance

instance tokenDriven_isAtSetting : TokenDriven isAtSetting := by
  unfold isAtSetting
  infer_instance

theorem reads_checkOpen {opened : Token} {u : Unit} {ts us : List Token} :
    Reads (checkOpen opened) ts u us ↔ us = ts ∧ NotAtKind .endOfInput ts := by
  simp only [checkOpen, reads_bind, reads_peek_zero, reads_ite, not_reads_fail, and_false,
    false_or, reads_pure]
  constructor
  · rintro ⟨t, _, ⟨rfl, rest, rfl⟩, hk, -, rfl⟩
    exact ⟨rfl, by simpa [Token.isEnd] using hk⟩
  · rintro ⟨rfl, t, rest, rfl, hk⟩
    exact ⟨t, _, ⟨rfl, rest, rfl⟩, by simpa [Token.isEnd] using hk, trivial, rfl⟩

/-- Whether a setting starts at an identifier that comes first. -/
def startsPlainSetting : List Token → Bool
  | [] => false
  | t :: ts => t.kind = .identifier && leadsOn ts

theorem getElem?_append_length (seen rest : List Token) (k : Nat) :
    (seen ++ rest)[seen.length + k]? = rest[k]? := by
  simp [List.getElem?_append_right]

/-- The search looks at every second token, and behind the last token sees that one again; it
ends there, since it gets there over a dot only. -/
theorem reads_leadsToSetting {n : Nat} (seen rest us : List Token) {b : Bool}
    (enough : rest.length < n)
    (last : rest = [] → ∃ t, seen.getLast? = some t ∧ t.kind ≠ .identifier) :
    Reads (leadsToSetting n seen.length) (seen ++ rest) b us ↔
      b = startsPlainSetting rest ∧ us = seen ++ rest := by
  induction n generalizing seen rest with
  | zero => simp at enough
  | succ n ih =>
      have h₀ := getElem?_append_length seen rest 0
      have h₁ := getElem?_append_length seen rest 1
      have h₂ := getElem?_append_length seen rest 2
      rw [Nat.add_zero] at h₀
      simp only [leadsToSetting, reads_bind_peek, reads_ite, h₀, h₁, h₂, reads_pure]
      -- The search looks two tokens ahead of the one it is at.
      rcases rest with _ | ⟨t, _ | ⟨u, _ | ⟨w, rest⟩⟩⟩
      · obtain ⟨t, ht, hk⟩ := last rfl
        simp [ht, hk, startsPlainSetting]
      · by_cases ht : t.kind = .identifier <;> simp [ht, startsPlainSetting, leadsOn]
      · by_cases ht : t.kind = .identifier <;> by_cases hd : u.kind = .dot
        case pos =>
          have ih' := ih (seen ++ [t, u]) []
            (by simp only [List.length_cons, List.length_nil] at enough ⊢; omega)
            fun _ => ⟨u, by simp, by simp [hd]⟩
          simp only [List.length_append, List.length_cons, List.length_nil,
            List.append_nil] at ih'
          simp [ht, hd, startsPlainSetting, leadsOn, ih']
        all_goals by_cases he : u.kind = .equals <;> simp [ht, hd, he, startsPlainSetting, leadsOn]
      · have ih' := ih (seen ++ [t, u]) (w :: rest)
          (by simp only [List.length_cons] at enough ⊢; omega) fun h => by cases h
        rw [show seen ++ [t, u] ++ w :: rest = seen ++ t :: u :: w :: rest by simp] at ih'
        simp only [List.length_append, List.length_cons, List.length_nil] at ih'
        by_cases ht : t.kind = .identifier <;> by_cases hd : u.kind = .dot
        case pos =>
          by_cases hw : w.kind = .openParen
          · simp [ht, hd, hw, startsPlainSetting, leadsOn]
          · by_cases hi : w.kind = .identifier <;>
              simp [ht, hd, hw, hi, startsPlainSetting, leadsOn, ih']
        all_goals by_cases he : u.kind = .equals <;> simp [ht, hd, he, startsPlainSetting, leadsOn]

theorem reads_isAtSetting {b : Bool} {ts us : List Token} :
    Reads isAtSetting ts b us ↔ ts ≠ [] ∧ b = startsSetting ts ∧ us = ts := by
  simp only [isAtSetting, reads_if_isAt, reads_bind_budget, reads_pure]
  cases ts with
  | nil => simp
  | cons t ts =>
      have h := reads_leadsToSetting (n := (t :: ts).length + 1) (b := b) [] (t :: ts) us
        (by simp) (fun h => by cases h)
      simp only [List.length_nil, List.length_cons, List.nil_append] at h
      by_cases ht : t.kind = .openParen <;> simp [ht, startsSetting, startsPlainSetting, h]

/-! ### Reading keys and separators -/

instance tokenDriven_key : TokenDriven key := by
  unfold key
  infer_instance

instance tokenDriven_colon (k : String) : TokenDriven (colon k) := by
  unfold colon
  infer_instance

instance tokenDriven_entrySeparator : TokenDriven entrySeparator := by
  unfold entrySeparator
  infer_instance

theorem reads_key {ts us : List Token} {k : String} : Reads key ts k us ↔ KeyAt ts k us := by
  simp only [key, reads_if_accepts (by decide : TokenKind.openBracket ≠ _), reads_bind,
    reads_qualifiedName, reads_expect (by decide : TokenKind.closeBracket ≠ _),
    reads_identifier, reads_pure]
  constructor
  · rintro (⟨opening, ms, rfl, ho, name, _, hname, closing, _, ⟨rfl, hc⟩, rfl, rfl⟩ |
      ⟨-, t, rfl, hk, rfl⟩)
    · exact .bracketed ho hname hc
    · exact .plain hk
  · intro h
    cases h with
    | @plain t ts kind => exact .inr ⟨by simp [kind], t, rfl, kind, rfl⟩
    | @bracketed opening closing ts _ name openKind inner closeKind =>
        exact .inl ⟨opening, ts, rfl, openKind, name, _, inner, closing, us, ⟨rfl, closeKind⟩,
          rfl, rfl⟩

theorem reads_colon {k : String} {u : Unit} {ts us : List Token} :
    Reads (colon k) ts u us ↔ ColonAt ts us := by
  simp only [colon, reads_if_accepts (by decide : TokenKind.colon ≠ _), reads_bind,
    reads_peek_zero, reads_ite, reads_pure, not_reads_fail, and_false, or_false]
  constructor
  · rintro (⟨t, rest, rfl, hk, -, rfl⟩ | ⟨hne, t, _, ⟨rfl, rest, rfl⟩, hk, -, rfl⟩)
    · exact .colon hk
    · exact .bracket hk
  · intro h
    cases h with
    | colon kind => exact .inl ⟨_, _, rfl, kind, trivial, rfl⟩
    | @bracket t ts kind =>
        refine .inr ⟨?_, t, _, ⟨rfl, ts, rfl⟩, kind, trivial, rfl⟩
        rcases kind with kind | kind <;> simp [kind]

theorem reads_entrySeparator {u : Unit} {ts us : List Token} :
    Reads entrySeparator ts u us ↔ EntryEndAt ts us := by
  simp only [entrySeparator, reads_if_accepts (by decide : TokenKind.comma ≠ _), reads_bind,
    reads_pure, EntryEndAt, ← reads_skip (by decide : TokenKind.semicolon ≠ _)]
  constructor
  · rintro (⟨t, rest, rfl, hk, -, rfl⟩ | ⟨hne, o, ms, ho, -, rfl⟩)
    · exact .inl ⟨t, rfl, hk⟩
    · exact .inr ⟨hne, o, ho⟩
  · rintro (⟨t, rfl, hk⟩ | ⟨hne, o, ho⟩)
    · exact .inl ⟨t, us, rfl, hk, trivial, rfl⟩
    · exact .inr ⟨hne, o, us, ho, trivial, rfl⟩

end Parser

end Proto2

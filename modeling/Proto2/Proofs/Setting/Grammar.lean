import Proto2.Proofs.Grammar.Basic
import Proto2.Proofs.Setting.Values

/-!
What stands in the tokens, and what the grammar of options derives.

A part that stands in the tokens is derived.  Conversely, of a derived sequence with something
behind it, the longest reading may take more than was derived: a name goes on into the dots and
identifiers that follow, a run of strings into the strings that follow.  That happens inside
lists only, where the comma between two items may be missing; the token that closes the list
stops the reading, and what was taken from the next items leaves a sequence that is an optional
comma and items again.
-/

namespace Proto2

/-- A literal that denotes something. -/
def Token.HasValue (t : Token) : Prop :=
  (t.kind = .string → ∃ s, t.stringValue = .ok s) ∧
    (t.kind = .integer → ∃ n, t.integerValue = .ok n)

namespace Phrase

/-- What follows the first identifier of a name. -/
def nameTail : Phrase :=
  many (token .dot ++ token .identifier)

/-- An item of a list, with a comma or without. -/
def listItem : Phrase :=
  (category .setting ||| category .value) ++ optional (token .comma)

/-- An entry of an aggregate, with a separator or without. -/
def aggregateEntry : Phrase :=
  category .entry ++ optional (token .comma ||| token .semicolon)

end Phrase

/-- The phrase that describes a part. -/
def Part.phrase : Part → Phrase
  | .setting _ => .category .setting
  | .value _ => .category .value
  | .items _ => .many .listItem
  | .entries _ => .many .aggregateEntry

open Phrase in
theorem Category.rule_list :
    Category.rule .list = token .openBracket ++ many listItem ++ token .closeBracket := rfl

open Phrase in
theorem Category.rule_aggregate :
    Category.rule .aggregate = token .openBrace ++ many aggregateEntry ++ token .closeBrace := rfl

/-! ### How values are derived -/

section Forms

variable {readable : Token → Prop} {ts : List Token}

theorem Derives.constant_iff :
    Derives readable (.category .constant) ts ↔
      (∃ dot first us, ts = dot :: first :: us ∧ dot.kind = .dot ∧ first.kind = .identifier ∧
        Derives readable .nameTail us) ∨
      (∃ first us, ts = first :: us ∧ first.kind = .identifier ∧
        first.lexeme ∉ ["true", "false"] ∧ Derives readable .nameTail us) := by
  rw [category_iff, Category.rule, append_iff]
  simp only [or_iff, append_iff, token_iff, terminal_iff, Terminal.Admits]
  constructor
  · rintro ⟨_, us, rfl, ⟨_, _, rfl, ⟨dot, rfl, hd⟩, first, rfl, hf⟩ | ⟨first, rfl, hf, hw⟩, tail⟩
    · exact .inl ⟨dot, first, us, rfl, hd, hf, tail⟩
    · exact .inr ⟨first, us, rfl, hf, hw, tail⟩
  · rintro (⟨dot, first, us, rfl, hd, hf, tail⟩ | ⟨first, us, rfl, hf, hw, tail⟩)
    · exact ⟨_, us, rfl, .inl ⟨_, _, rfl, ⟨dot, rfl, hd⟩, first, rfl, hf⟩, tail⟩
    · exact ⟨_, us, rfl, .inr ⟨first, rfl, hf, hw⟩, tail⟩

open Phrase in
/-- A phrase between two tokens. -/
theorem Derives.enclosed_iff {openKind closeKind : TokenKind} {p : Phrase} :
    Derives readable (token openKind ++ p ++ token closeKind) ts ↔
      ∃ opening us closing, ts = opening :: (us ++ [closing]) ∧ opening.kind = openKind ∧
        Derives readable p us ∧ closing.kind = closeKind := by
  simp only [append_iff, token_iff]
  constructor
  · rintro ⟨_, _, rfl, ⟨_, us, rfl, ⟨opening, rfl, ho⟩, hs⟩, closing, rfl, hc⟩
    exact ⟨opening, us, closing, rfl, ho, hs, hc⟩
  · rintro ⟨opening, us, closing, rfl, ho, hs, hc⟩
    exact ⟨_, _, rfl, ⟨_, us, rfl, ⟨opening, rfl, ho⟩, hs⟩, closing, rfl, hc⟩

theorem Derives.list_iff :
    Derives readable (.category .list) ts ↔
      ∃ opening us closing, ts = opening :: (us ++ [closing]) ∧ opening.kind = .openBracket ∧
        Derives readable (.many .listItem) us ∧ closing.kind = .closeBracket := by
  rw [category_iff, Category.rule_list, enclosed_iff]

theorem Derives.aggregate_iff :
    Derives readable (.category .aggregate) ts ↔
      ∃ opening us closing, ts = opening :: (us ++ [closing]) ∧ opening.kind = .openBrace ∧
        Derives readable (.many .aggregateEntry) us ∧ closing.kind = .closeBrace := by
  rw [category_iff, Category.rule_aggregate, enclosed_iff]

theorem Derives.value_iff :
    Derives readable (.category .value) ts ↔
      (∃ t us, ts = t :: us ∧ t.kind = .string ∧ readable t ∧
        Derives readable (.many (.literal .string)) us) ∨
      (∃ t, ts = [t] ∧ t.kind = .identifier ∧ t.lexeme ∈ ["true", "false"]) ∨
      (∃ t, ts = [t] ∧ t.kind = .integer ∧ readable t) ∨
      (∃ t, ts = [t] ∧ t.kind = .float) ∨
      (∃ dot first us, ts = dot :: first :: us ∧ dot.kind = .dot ∧ first.kind = .identifier ∧
        Derives readable .nameTail us) ∨
      (∃ first us, ts = first :: us ∧ first.kind = .identifier ∧
        first.lexeme ∉ ["true", "false"] ∧ Derives readable .nameTail us) ∨
      Derives readable (.category .list) ts ∨ Derives readable (.category .aggregate) ts := by
  rw [category_iff, Category.rule]
  simp only [or_iff, append_iff, literal_iff, token_iff, terminal_iff, Terminal.Admits,
    constant_iff]
  constructor
  · rintro ((((((⟨_, us, rfl, ⟨t, rfl, hk, hr⟩, tail⟩ | h) | h) | h) | h | h) | h) | h)
    · exact .inl ⟨t, us, rfl, hk, hr, tail⟩
    · exact .inr (.inl h)
    · exact .inr (.inr (.inl h))
    · exact .inr (.inr (.inr (.inl h)))
    · exact .inr (.inr (.inr (.inr (.inl h))))
    · exact .inr (.inr (.inr (.inr (.inr (.inl h)))))
    · exact .inr (.inr (.inr (.inr (.inr (.inr (.inl h))))))
    · exact .inr (.inr (.inr (.inr (.inr (.inr (.inr h))))))
  · rintro (⟨t, us, rfl, hk, hr, tail⟩ | h | h | h | h | h | h | h)
    · exact .inl (.inl (.inl (.inl (.inl (.inl ⟨_, us, rfl, ⟨t, rfl, hk, hr⟩, tail⟩)))))
    · exact .inl (.inl (.inl (.inl (.inl (.inr h)))))
    · exact .inl (.inl (.inl (.inl (.inr h))))
    · exact .inl (.inl (.inl (.inr h)))
    · exact .inl (.inl (.inr (.inl h)))
    · exact .inl (.inl (.inr (.inr h)))
    · exact .inl (.inr h)
    · exact .inr h

/-- What is left of a value behind its first token, by the kind of that token. -/
theorem Derives.value_cons_iff {t : Token} :
    Derives readable (.category .value) (t :: ts) ↔
      match t.kind with
      | .string => readable t ∧ Derives readable (.many (.literal .string)) ts
      | .integer => readable t ∧ ts = []
      | .float => ts = []
      | .identifier =>
        if t.lexeme ∈ ["true", "false"] then ts = [] else Derives readable .nameTail ts
      | .dot => ∃ first us, ts = first :: us ∧ first.kind = .identifier ∧
        Derives readable .nameTail us
      | .openBracket => ∃ us closing, ts = us ++ [closing] ∧
        Derives readable (.many .listItem) us ∧ closing.kind = .closeBracket
      | .openBrace => ∃ us closing, ts = us ++ [closing] ∧
        Derives readable (.many .aggregateEntry) us ∧ closing.kind = .closeBrace
      | _ => False := by
  rw [value_iff]
  constructor
  · rintro (⟨u, us, heq, hk, h⟩ | ⟨u, heq, hk, hw⟩ | ⟨u, heq, hk, hr⟩ | ⟨u, heq, hk⟩ |
      ⟨u, first, us, heq, hk, hf, h⟩ | ⟨u, us, heq, hk, hw, h⟩ | h | h)
    case inl => cases heq; simpa only [hk] using h
    case inr.inl => cases heq; simp only [hk, hw, if_true]
    case inr.inr.inl => cases heq; simpa only [hk, and_true] using hr
    case inr.inr.inr.inl => cases heq; simp only [hk]
    case inr.inr.inr.inr.inl => cases heq; simpa only [hk] using ⟨first, us, rfl, hf, h⟩
    case inr.inr.inr.inr.inr.inl => cases heq; simpa only [hk, hw, if_false] using h
    · obtain ⟨u, us, closing, heq, hk, items⟩ := list_iff.mp h
      cases heq
      simpa only [hk] using ⟨us, closing, rfl, items⟩
    · obtain ⟨u, us, closing, heq, hk, entries⟩ := aggregate_iff.mp h
      cases heq
      simpa only [hk] using ⟨us, closing, rfl, entries⟩
  · intro h
    split at h
    case h_1 hk => exact .inl ⟨t, ts, rfl, hk, h⟩
    case h_2 hk =>
      obtain ⟨hr, rfl⟩ := h
      exact .inr (.inr (.inl ⟨t, rfl, hk, hr⟩))
    case h_3 hk =>
      cases h
      exact .inr (.inr (.inr (.inl ⟨t, rfl, hk⟩)))
    case h_4 hk =>
      split at h
      case isTrue hw =>
        cases h
        exact .inr (.inl ⟨t, rfl, hk, hw⟩)
      case isFalse hw => exact .inr (.inr (.inr (.inr (.inr (.inl ⟨t, ts, rfl, hk, hw, h⟩)))))
    case h_5 hk =>
      obtain ⟨first, us, rfl, hf, h⟩ := h
      exact .inr (.inr (.inr (.inr (.inl ⟨t, first, us, rfl, hk, hf, h⟩))))
    case h_6 hk =>
      obtain ⟨us, closing, rfl, h⟩ := h
      exact .inr (.inr (.inr (.inr (.inr (.inr (.inl
        (list_iff.mpr ⟨t, us, closing, rfl, hk, h⟩)))))))
    case h_7 hk =>
      obtain ⟨us, closing, rfl, h⟩ := h
      exact .inr (.inr (.inr (.inr (.inr (.inr (.inr
        (aggregate_iff.mpr ⟨t, us, closing, rfl, hk, h⟩)))))))
    case h_8 => exact h.elim

theorem Derives.value_ne_nil (h : Derives readable (.category .value) ts) : ts ≠ [] := by
  rintro rfl
  simp [value_iff, list_iff, aggregate_iff] at h

end Forms

/-! ### What stands in the tokens is derived -/

section Sound

variable {readable : Token → Prop} {ts us : List Token}

theorem NameTailAt.begins {parts : List String} (h : NameTailAt ts parts us) :
    Begins readable .nameTail ts us := by
  induction h with
  | nil ends => exact .none
  | cons kind partKind tail ih => exact .more (.append (.token kind) (.token partKind)) ih

theorem NameAt.begins {name : String} (h : NameAt ts name us) :
    Begins readable (.category .name) ts us := by
  cases h with
  | relative kind tail => exact .category (.append (.append .skip (.token kind)) tail.begins)
  | rooted dotKind kind tail =>
      exact .category (.append (.append (.some (.token dotKind)) (.token kind)) tail.begins)

/-- A name that is a value does not start with `true` or `false`. -/
theorem NameAt.begins_constant {name : String} (start : startsBool ts = false)
    (h : NameAt ts name us) : Begins readable (.category .constant) ts us := by
  cases h with
  | @relative first ts _ parts kind tail =>
      refine .category (.append (.right (.terminal ⟨kind, ?_⟩)) tail.begins)
      simpa [startsBool, Token.isWord, kind] using start
  | rooted dotKind kind tail =>
      exact .category (.append (.left (.append (.token dotKind) (.token kind))) tail.begins)

theorem NamePartAt.begins {part : NamePart} (h : NamePartAt ts part us) :
    Begins readable (.category .namePart) ts us := by
  cases h with
  | builtIn kind => exact .category (.left (.token kind))
  | custom openKind inner closeKind =>
      exact .category (.right (.append (.append (.token openKind) inner.begins)
        (.token closeKind)))

theorem MorePartsAt.begins {parts : List NamePart} (h : MorePartsAt ts parts us) :
    Begins readable (.many (.token .dot ++ .category .namePart)) ts us := by
  induction h with
  | nil stop => exact .none
  | cons kind head tail ih => exact .more (.append (.token kind) head.begins) ih

theorem KeyAt.begins {k : String} (h : KeyAt ts k us) :
    Begins readable (.category .key) ts us := by
  cases h with
  | plain kind => exact .category (.left (.token kind))
  | bracketed openKind inner closeKind =>
      exact .category (.right (.append (.append (.token openKind) inner.begins)
        (.token closeKind)))

theorem SkipKind.begins {kind : TokenKind} (h : SkipKind kind ts us) :
    Begins readable (.optional (.token kind)) ts us := by
  rcases h with ⟨t, rfl, hk⟩ | ⟨rfl, -⟩
  · exact .some (.token hk)
  · exact .skip

theorem EntryEndAt.begins (h : EntryEndAt ts us) :
    Begins readable (.optional (.token .comma ||| .token .semicolon)) ts us := by
  rcases h with ⟨t, rfl, hk⟩ | ⟨-, ⟨t, rfl, hk⟩ | ⟨rfl, -⟩⟩
  · exact .some (.left (.token hk))
  · exact .some (.right (.token hk))
  · exact .skip

theorem StringsAt.begins_tail {ss : List String} (h : StringsAt ts ss us) :
    Begins Token.HasValue (.many (.literal .string)) ts us := by
  induction h with
  | nil stop => exact .none
  | @cons t s ss ts us kind value tail ih =>
      exact .more (.literal kind ⟨fun _ => ⟨s, value⟩, fun h => by simp [kind] at h⟩) ih

theorem StringsAt.begins_value {ss : List String} (start : AtKind .string ts)
    (h : StringsAt ts ss us) : Begins Token.HasValue (.category .value) ts us := by
  cases h with
  | nil stop =>
      obtain ⟨t, rest, rfl, hk⟩ := start
      simp [hk] at stop
  | @cons t s ss rest _ kind value tail =>
      have hv : t.HasValue := ⟨fun _ => ⟨s, value⟩, fun h => by simp [kind] at h⟩
      exact .category (.left (.left (.left (.left (.left (.left
        (.append (.literal kind hv) tail.begins_tail)))))))

/-- A derived value that starts with a bracket is a list or an aggregate. -/
theorem Derives.value_of_bracket {t : Token}
    (h : Derives readable (.category .value) (t :: ts))
    (start : t.kind = .openBrace ∨ t.kind = .openBracket) :
    Derives readable (.category .list ||| .category .aggregate) (t :: ts) := by
  rw [value_cons_iff] at h
  rcases start with hk | hk <;> simp only [hk] at h <;> obtain ⟨us, closing, rfl, h⟩ := h
  · exact .right (aggregate_iff.mpr ⟨t, us, closing, rfl, hk, h⟩)
  · exact .left (list_iff.mpr ⟨t, us, closing, rfl, hk, h⟩)

/-- A part that stands in the tokens is derived by the grammar. -/
theorem Stands.begins {part : Part} (h : Stands part ts us) :
    Begins Token.HasValue part.phrase ts us := by
  induction h with
  | setting head more kind value ih =>
      exact .category (.append (.append (.append head.begins more.begins) (.token kind)) ih)
  | string start strings => exact strings.begins_value start
  | @int t us n kind value =>
      exact .category (.left (.left (.left (.left (.right
        (.literal kind ⟨fun h => by simp [kind] at h, fun _ => ⟨n, value⟩⟩))))))
  | float kind => exact .category (.left (.left (.left (.right (.token kind)))))
  | bool kind word =>
      refine .category (.left (.left (.left (.left (.left (.right (.terminal ⟨kind, ?_⟩)))))))
      simpa [startsBool, Token.isWord, kind] using word
  | constant start inner => exact .category (.left (.left (.right (inner.begins_constant start))))
  | list openKind items closeKind ih =>
      exact .category (.left (.right (.category
        (.append (.append (.token openKind) ih) (.token closeKind)))))
  | aggregate openKind entries closeKind ih =>
      exact .category (.right (.category
        (.append (.append (.token openKind) ih) (.token closeKind))))
  | noItems => exact .none
  | settingItem start head separator tail ih₁ ih₂ =>
      exact .more (.append (.left ih₁) separator.begins) ih₂
  | @stringItem t ms ns us s vs kind value separator tail ih =>
      have hv : t.HasValue := ⟨fun _ => ⟨s, value⟩, fun h => by simp [kind] at h⟩
      have item : Begins Token.HasValue (.category .value) (t :: ms) ms :=
        .category (.left (.left (.left (.left (.left (.left (.append (.literal kind hv) .none)))))))
      exact .more (.append (.right item) separator.begins) ih
  | valueItem start other head separator tail ih₁ ih₂ =>
      exact .more (.append (.right ih₁) separator.begins) ih₂
  | noEntries => exact .none
  | entry key colon value separator tail ih₁ ih₂ =>
      refine .more (.append (.category (.append key.begins ?_)) separator.begins) ih₂
      cases colon with
      | colon kind => exact .left (.left (.append (.token kind) ih₁))
      | @bracket t rest kind =>
          obtain ⟨d, heq, derived⟩ := ih₁
          cases d with
          | nil => exact absurd rfl derived.value_ne_nil
          | cons u d =>
              cases heq
              rcases Derives.or_iff.mp (derived.value_of_bracket kind) with hd | hd
              · exact .left (.right ⟨_, rfl, hd⟩)
              · exact .right ⟨_, rfl, hd⟩

end Sound

end Proto2

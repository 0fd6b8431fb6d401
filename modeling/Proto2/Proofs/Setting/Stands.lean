import Proto2.Proofs.Parser.Literal
import Proto2.Proofs.Parser.Name
import Proto2.Parser.Setting

/-!
Settings and values in a list of tokens.

`Stands part before after` says that `before` starts with a setting, a value, the items of a
list or the entries of an aggregate, and goes on with `after`.  Where the grammar leaves a
choice, the longest reading is meant: names and runs of strings go on for as long as they can, a
separator is taken when there is one, and in a list an item is a setting whenever one starts
there.  The parser reads exactly what stands in its way.
-/

namespace Proto2

/-! ### Option names -/

/-- A part of an option name. -/
inductive NamePartAt : List Token → NamePart → List Token → Prop
  | builtIn {t : Token} {ts : List Token} (kind : t.kind = .identifier) :
      NamePartAt (t :: ts) ⟨t.lexeme, false⟩ ts
  | custom {opening closing : Token} {ts us : List Token} {name : String}
      (openKind : opening.kind = .openParen) (inner : NameAt ts name (closing :: us))
      (closeKind : closing.kind = .closeParen) : NamePartAt (opening :: ts) ⟨name, true⟩ us

/-- The parts of an option name behind the first one, up to a token that is no dot. -/
inductive MorePartsAt : List Token → List NamePart → List Token → Prop
  | nil {ts : List Token} (stop : NotAtKind .dot ts) : MorePartsAt ts [] ts
  | cons {dot : Token} {ts ms us : List Token} {part : NamePart} {parts : List NamePart}
      (kind : dot.kind = .dot) (head : NamePartAt ts part ms)
      (tail : MorePartsAt ms parts us) : MorePartsAt (dot :: ts) (part :: parts) us

theorem NamePartAt.length_lt {ts us : List Token} {part : NamePart}
    (h : NamePartAt ts part us) : us.length < ts.length := by
  cases h with
  | builtIn => simp
  | custom openKind inner closeKind =>
      have := inner.length_lt
      simp only [List.length_cons] at this ⊢
      omega

theorem MorePartsAt.length_le {ts us : List Token} {parts : List NamePart}
    (h : MorePartsAt ts parts us) : parts.length + us.length ≤ ts.length := by
  induction h with
  | nil => simp
  | cons kind head tail ih =>
      have := head.length_lt
      simp only [List.length_cons]
      omega

/-! ### Where a setting starts -/

/-- Whether the tokens behind an identifier lead to an equals sign, or to a part in
parentheses, over dots and identifiers alone. -/
def leadsOn : List Token → Bool
  | [] => false
  | [t] => t.kind = .equals
  | t :: u :: ts =>
    if t.kind = .equals then true
    else if t.kind = .dot then
      if u.kind = .openParen then true else if u.kind = .identifier then leadsOn ts else false
    else false

/-- Whether a setting starts at the first token. -/
def startsSetting : List Token → Bool
  | [] => false
  | t :: ts => t.kind = .openParen || (t.kind = .identifier && leadsOn ts)

/-- Whether the tokens start with `true` or `false`. -/
def startsBool : List Token → Bool
  | [] => false
  | t :: _ => t.isWord "true" || t.isWord "false"

/-! ### Keys and separators -/

/-- The key of an entry. -/
inductive KeyAt : List Token → String → List Token → Prop
  | plain {t : Token} {ts : List Token} (kind : t.kind = .identifier) :
      KeyAt (t :: ts) t.lexeme ts
  | bracketed {opening closing : Token} {ts us : List Token} {name : String}
      (openKind : opening.kind = .openBracket) (inner : NameAt ts name (closing :: us))
      (closeKind : closing.kind = .closeBracket) :
      KeyAt (opening :: ts) ("[" ++ name ++ "]") us

/-- The colon behind a key, which may be missing before a bracket. -/
inductive ColonAt : List Token → List Token → Prop
  | colon {t : Token} {ts : List Token} (kind : t.kind = .colon) : ColonAt (t :: ts) ts
  | bracket {t : Token} {ts : List Token} (kind : t.kind = .openBrace ∨ t.kind = .openBracket) :
      ColonAt (t :: ts) (t :: ts)

/-- A comma, a semicolon or nothing behind an entry. -/
def EntryEndAt (before after : List Token) : Prop :=
  (∃ t, before = t :: after ∧ t.kind = .comma) ∨
    (NotAtKind .comma before ∧ SkipKind .semicolon before after)

/-! ### Settings and values -/

/-- What the grammar of options reads. -/
inductive Part where
  | setting (s : Setting)
  | value (v : Value)
  | items (vs : List Value)
  | entries (es : List (String × Value))

/-- The tokens start with a part, and go on with the given ones. -/
inductive Stands : Part → List Token → List Token → Prop
  | setting {ts ms ns us : List Token} {equals : Token} {first : NamePart}
      {rest : List NamePart} {v : Value} (head : NamePartAt ts first ms)
      (more : MorePartsAt ms rest (equals :: ns)) (kind : equals.kind = .equals)
      (value : Stands (.value v) ns us) :
      Stands (.setting (Setting.ofParts first rest v)) ts us
  | string {ts us : List Token} {ss : List String} (start : AtKind .string ts)
      (strings : StringsAt ts ss us) : Stands (.value (.string (String.join ss))) ts us
  | int {t : Token} {us : List Token} {n : Int} (kind : t.kind = .integer)
      (value : t.integerValue = .ok n) : Stands (.value (.int n)) (t :: us) us
  | float {t : Token} {us : List Token} (kind : t.kind = .float) :
      Stands (.value (.float t.floatValue)) (t :: us) us
  | bool {t : Token} {us : List Token} (kind : t.kind = .identifier)
      (word : startsBool (t :: us) = true) :
      Stands (.value (.bool (t.lexeme = "true"))) (t :: us) us
  | constant {ts us : List Token} {name : String} (start : startsBool ts = false)
      (inner : NameAt ts name us) : Stands (.value (.constant name)) ts us
  | list {opening closing : Token} {ts us : List Token} {vs : List Value}
      (openKind : opening.kind = .openBracket)
      (items : Stands (.items vs) ts (closing :: us)) (closeKind : closing.kind = .closeBracket) :
      Stands (.value (.list vs)) (opening :: ts) us
  | aggregate {opening closing : Token} {ts us : List Token} {es : List (String × Value)}
      (openKind : opening.kind = .openBrace)
      (entries : Stands (.entries es) ts (closing :: us))
      (closeKind : closing.kind = .closeBrace) :
      Stands (.value (Value.ofEntries es)) (opening :: ts) us
  | noItems {ts : List Token} : Stands (.items []) ts ts
  | settingItem {ts ms ns us : List Token} {s : Setting} {vs : List Value}
      (start : startsSetting ts = true) (head : Stands (.setting s) ts ms)
      (separator : SkipKind .comma ms ns) (tail : Stands (.items vs) ns us) :
      Stands (.items (.setting s :: vs)) ts us
  | stringItem {t : Token} {ms ns us : List Token} {s : String} {vs : List Value}
      (kind : t.kind = .string) (value : t.stringValue = .ok s)
      (separator : SkipKind .comma ms ns) (tail : Stands (.items vs) ns us) :
      Stands (.items (.string s :: vs)) (t :: ms) us
  | valueItem {ts ms ns us : List Token} {v : Value} {vs : List Value}
      (start : startsSetting ts = false) (other : NotAtKind .string ts)
      (head : Stands (.value v) ts ms) (separator : SkipKind .comma ms ns)
      (tail : Stands (.items vs) ns us) : Stands (.items (v :: vs)) ts us
  | noEntries {ts : List Token} : Stands (.entries []) ts ts
  | entry {ts ms ns ps qs us : List Token} {k : String} {v : Value}
      {es : List (String × Value)} (key : KeyAt ts k ms) (colon : ColonAt ms ns)
      (value : Stands (.value v) ns ps) (separator : EntryEndAt ps qs)
      (tail : Stands (.entries es) qs us) : Stands (.entries ((k, v) :: es)) ts us

theorem SkipKind.length_le {kind : TokenKind} {ts us : List Token} (h : SkipKind kind ts us) :
    us.length ≤ ts.length := by
  rcases h with ⟨t, rfl, -⟩ | ⟨rfl, -⟩
  · simp
  · exact Nat.le_refl _

theorem EntryEndAt.length_le {ts us : List Token} (h : EntryEndAt ts us) :
    us.length ≤ ts.length := by
  rcases h with ⟨t, rfl, -⟩ | ⟨-, h⟩
  · simp
  · exact h.length_le

theorem KeyAt.length_lt {ts us : List Token} {k : String} (h : KeyAt ts k us) :
    us.length < ts.length := by
  cases h with
  | plain => simp
  | bracketed openKind inner closeKind =>
      have := inner.length_lt
      simp only [List.length_cons] at this ⊢
      omega

theorem ColonAt.length_le {ts us : List Token} (h : ColonAt ts us) :
    us.length ≤ ts.length := by
  cases h <;> simp

theorem StringsAt.length_lt {ts us : List Token} {ss : List String} (start : AtKind .string ts)
    (h : StringsAt ts ss us) : us.length < ts.length := by
  cases h with
  | nil stop =>
      obtain ⟨t, ts, rfl, hk⟩ := start
      simp [hk] at stop
  | cons kind value tail =>
      have := tail.length_le
      simp only [List.length_cons]
      omega

/-- Settings and values take a token at least; items and entries may take none. -/
theorem Stands.length {part : Part} {ts us : List Token} (h : Stands part ts us) :
    match part with
    | .setting _ | .value _ => us.length < ts.length
    | .items _ | .entries _ => us.length ≤ ts.length := by
  induction h with
  | setting head more kind value ih =>
      have h₁ := head.length_lt
      have h₂ := more.length_le
      simp only [List.length_cons] at ih h₂ ⊢
      omega
  | string start strings => exact strings.length_lt start
  | int => simp
  | float => simp
  | bool => simp
  | constant start inner => exact inner.length_lt
  | list openKind items closeKind ih =>
      simp only [List.length_cons] at ih ⊢
      omega
  | aggregate openKind entries closeKind ih =>
      simp only [List.length_cons] at ih ⊢
      omega
  | noItems => exact Nat.le_refl _
  | settingItem start head separator tail ih₁ ih₂ =>
      have := separator.length_le
      simp only at ih₁ ih₂ ⊢
      omega
  | stringItem kind value separator tail ih =>
      have := separator.length_le
      simp only [List.length_cons] at ih ⊢
      omega
  | valueItem start other head separator tail ih₁ ih₂ =>
      have := separator.length_le
      simp only at ih₁ ih₂ ⊢
      omega
  | noEntries => exact Nat.le_refl _
  | entry key colon value separator tail ih₁ ih₂ =>
      have h₁ := key.length_lt
      have h₂ := colon.length_le
      have h₃ := separator.length_le
      simp only at ih₁ ih₂ ⊢
      omega

/-! ### How parts start -/

theorem notAtKind_of_startsSetting {kind : TokenKind} (other : kind ≠ .openParen)
    (other' : kind ≠ .identifier) {ts : List Token} (h : startsSetting ts = true) :
    NotAtKind kind ts := by
  cases ts with
  | nil => cases h
  | cons t ts =>
      simp only [startsSetting, Bool.or_eq_true, decide_eq_true_eq, Bool.and_eq_true] at h
      rcases h with h | ⟨h, -⟩ <;> simp [h, Ne.symm other, Ne.symm other']

/-- The kinds of tokens that a value may start with. -/
theorem Stands.value_start {v : Value} {ts us : List Token} (h : Stands (.value v) ts us) :
    ∃ t rest, ts = t :: rest ∧ t.kind ∈ [TokenKind.string, .integer, .float, .identifier, .dot,
      .openBracket, .openBrace] := by
  cases h with
  | string start strings =>
      obtain ⟨t, rest, rfl, hk⟩ := start
      exact ⟨t, rest, rfl, by simp [hk]⟩
  | int kind value => exact ⟨_, _, rfl, by simp [kind]⟩
  | float kind => exact ⟨_, _, rfl, by simp [kind]⟩
  | bool kind word => exact ⟨_, _, rfl, by simp [kind]⟩
  | constant start inner =>
      cases inner with
      | relative kind tail => exact ⟨_, _, rfl, by simp [kind]⟩
      | rooted dotKind kind tail => exact ⟨_, _, rfl, by simp [dotKind]⟩
  | list openKind items closeKind => exact ⟨_, _, rfl, by simp [openKind]⟩
  | aggregate openKind entries closeKind => exact ⟨_, _, rfl, by simp [openKind]⟩

theorem Stands.notAtKind {kind : TokenKind} {v : Value} {ts us : List Token}
    (h : Stands (.value v) ts us)
    (other : kind ∉ [TokenKind.string, .integer, .float, .identifier, .dot, .openBracket,
      .openBrace]) : NotAtKind kind ts := by
  obtain ⟨t, rest, rfl, hk⟩ := h.value_start
  simp only [notAtKind_cons]
  rintro rfl
  exact other hk

theorem KeyAt.notAtKind {kind : TokenKind} {k : String} {ts us : List Token}
    (h : KeyAt ts k us) (other : kind ≠ .identifier) (other' : kind ≠ .openBracket) :
    NotAtKind kind ts := by
  cases h with
  | plain kind => simp [kind, Ne.symm other]
  | bracketed openKind inner closeKind => simp [openKind, Ne.symm other']

end Proto2

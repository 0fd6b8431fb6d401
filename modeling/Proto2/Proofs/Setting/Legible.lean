import Proto2.Printer.Setting
import Proto2.Proofs.Documentation
import Proto2.Proofs.Setting.Grammar

/-!
Settings and values that can be written and read back.

Names are names, numbers may be written and are finite, and no key of an aggregate is there
twice.  What stands in tokens read from a text is such, if the literals among them are in range.
-/

namespace Proto2

/-! ### Legible tokens -/

/-- A number that the token denotes is finite and may be written. -/
def Token.InRange (t : Token) : Prop :=
  (t.kind = .float → ∃ negative m, t.floatValue = .finite negative m) ∧
    (t.kind = .integer → ∀ n, t.integerValue = .ok n → Numeral.isWritable n = true)

theorem Token.inRange_iff {t : Token} :
    t.InRange ↔ (t.kind = .float → t.floatValue ≠ .nan ∧ ∀ b, t.floatValue ≠ .infinite b) ∧
      (t.kind = .integer → ∀ n ∈ t.integerValue.toOption, Numeral.isWritable n = true) := by
  refine and_congr (imp_congr_right fun _ => ?_) (imp_congr_right fun _ => ?_)
  · cases t.floatValue <;> simp
  · cases t.integerValue <;> simp [Except.toOption]

instance Token.decidableInRange (t : Token) : Decidable t.InRange :=
  decidable_of_iff _ Token.inRange_iff.symm

/-- What parsers take from the token can be written. -/
structure Token.IsLegible (t : Token) : Prop where
  form : t.kind = .identifier → Lexeme.IdentifierForm t.lexeme.toList
  inRange : t.InRange
  documentation : Documentation.IsNormal (Documentation.ofComments t.comments)

/-- What parsers take from the tokens can be written. -/
def AllLegible (ts : List Token) : Prop :=
  ∀ t ∈ ts, t.IsLegible

theorem Begins.allLegible {readable : Token → Prop} {p : Phrase} {ts us : List Token}
    (h : Begins readable p ts us) (legible : AllLegible ts) : AllLegible us :=
  h.forall_mem legible

theorem TokensOf.allLegible {file : String} {source : List Char} {ts : List Token} {e : Token}
    (tokens : TokensOf file source ts e)
    (inRange : ∀ t ∈ (Lexed.ofText file source).tokens, t.InRange) : AllLegible (ts ++ [e]) := by
  intro t ht
  have hmem : t ∈ (Lexed.ofText file source).tokens := by
    rw [tokens.1]
    exact ht
  refine ⟨fun kind => ?_, inRange t hmem, Documentation.isNormal_ofComments (Lexed.isLexed_of_mem hmem)⟩
  rcases List.mem_append.mp ht with ht | ht
  · exact (tokens.isScanned t ht).identifierForm kind
  · rw [List.mem_singleton.mp ht] at kind
    have hend := tokens.2
    simp [Token.isEnd, kind] at hend

/-! ### Names -/

/-- The texts are identifiers. -/
def AreIdentifiers (parts : List String) : Prop :=
  ∀ part ∈ parts, Lexeme.IdentifierForm part.toList

/-- The text is a qualified name. -/
def IsName (name : String) : Prop :=
  ∃ first parts, AreIdentifiers (first :: parts) ∧
    (name = dotted (first :: parts) ∨ name = dotted ("" :: first :: parts))

/-- The text is a qualified name that is not taken for a boolean. -/
def IsConstant (name : String) : Prop :=
  ∃ first parts, AreIdentifiers (first :: parts) ∧
    (name = dotted (first :: parts) ∧ first ∉ ["true", "false"] ∨
      name = dotted ("" :: first :: parts))

/-- The part of an option name can be written. -/
def NamePart.Legible (part : NamePart) : Prop :=
  if part.custom then IsName part.name else Lexeme.IdentifierForm part.name.toList

/-- The text is the key of an entry. -/
def IsKey (key : String) : Prop :=
  Lexeme.IdentifierForm key.toList ∨ ∃ name, IsName name ∧ key = "[" ++ name ++ "]"

section Names

variable {ts us : List Token}

theorem NameTailAt.areIdentifiers {parts : List String} (h : NameTailAt ts parts us)
    (legible : AllLegible ts) : AreIdentifiers parts := by
  induction h with
  | nil => simp [AreIdentifiers]
  | cons kind partKind tail ih =>
      have hpart := (legible _ (by simp)).form partKind
      have htail := ih fun t ht => legible t (by simp [ht])
      simpa [AreIdentifiers] using ⟨hpart, htail⟩

theorem NameAt.exists_parts {name : String} (h : NameAt ts name us) (legible : AllLegible ts) :
    ∃ first parts, AreIdentifiers (first :: parts) ∧
      (name = dotted (first :: parts) ∧ (∃ t rest, ts = t :: rest ∧ t.kind = .identifier ∧
        t.lexeme = first) ∨ name = dotted ("" :: first :: parts)) := by
  cases h with
  | relative kind tail =>
      have hfirst := (legible _ (by simp)).form kind
      have hparts := tail.areIdentifiers fun t ht => legible t (by simp [ht])
      exact ⟨_, _, by simpa [AreIdentifiers] using ⟨hfirst, hparts⟩, .inl ⟨rfl, _, _, rfl, kind, rfl⟩⟩
  | rooted dotKind kind tail =>
      have hfirst := (legible _ (by simp)).form kind
      have hparts := tail.areIdentifiers fun t ht => legible t (by simp [ht])
      exact ⟨_, _, by simpa [AreIdentifiers] using ⟨hfirst, hparts⟩, .inr rfl⟩

theorem NameAt.isName {name : String} (h : NameAt ts name us) (legible : AllLegible ts) :
    IsName name := by
  obtain ⟨first, parts, hparts, ⟨hname, -⟩ | hname⟩ := h.exists_parts legible
  · exact ⟨first, parts, hparts, .inl hname⟩
  · exact ⟨first, parts, hparts, .inr hname⟩

theorem NameAt.isConstant {name : String} (start : startsBool ts = false) (h : NameAt ts name us)
    (legible : AllLegible ts) : IsConstant name := by
  obtain ⟨first, parts, hparts, ⟨hname, t, rest, rfl, kind, rfl⟩ | hname⟩ :=
    h.exists_parts legible
  · refine ⟨_, parts, hparts, .inl ⟨hname, ?_⟩⟩
    simpa [startsBool, Token.isWord, kind] using start
  · exact ⟨first, parts, hparts, .inr hname⟩

theorem NamePartAt.legible {part : NamePart} (h : NamePartAt ts part us)
    (legible : AllLegible ts) : part.Legible := by
  cases h with
  | builtIn kind => exact (legible _ (by simp)).form kind
  | custom openKind inner closeKind => exact inner.isName fun t ht => legible t (by simp [ht])

theorem MorePartsAt.legible {parts : List NamePart} (h : MorePartsAt ts parts us)
    (legible : AllLegible ts) : ∀ part ∈ parts, part.Legible := by
  induction h with
  | nil => simp
  | cons kind head tail ih =>
      have hrest := fun t ht => legible t (List.mem_cons_of_mem _ ht)
      have hhead := head.legible hrest
      have htail := ih ((head.begins : Begins Token.HasValue _ _ _).allLegible hrest)
      simpa using ⟨hhead, htail⟩

theorem KeyAt.isKey {k : String} (h : KeyAt ts k us) (legible : AllLegible ts) : IsKey k := by
  cases h with
  | plain kind => exact .inl ((legible _ (by simp)).form kind)
  | bracketed openKind inner closeKind =>
      exact .inr ⟨_, inner.isName fun t ht => legible t (by simp [ht]), rfl⟩

end Names

/-! ### Values -/

/-- A value that is no setting. -/
def Value.IsPlain (v : Value) : Prop :=
  ∀ s, v ≠ .setting s

/-- The value can be written and read back. -/
inductive Value.Legible : Value → Prop
  | string (text : String) : Legible (.string text)
  | bool (b : Bool) : Legible (.bool b)
  | int {n : Int} (writable : Numeral.isWritable n = true) : Legible (.int n)
  | float (negative : Bool) (m : Magnitude) : Legible (.float (.finite negative m))
  | constant {name : String} (isConstant : IsConstant name) : Legible (.constant name)
  | list {items : List Value} (legible : ∀ v ∈ items, Legible v) : Legible (.list items)
  | aggregate {entries : List (String × Value)} (distinct : (entries.map Prod.fst).Nodup)
      (keys : ∀ e ∈ entries, IsKey e.1) (plain : ∀ e ∈ entries, e.2.IsPlain)
      (legible : ∀ e ∈ entries, Legible e.2) : Legible (.aggregate entries)
  | setting {name : String} {value : Value} {custom : Bool}
      (part : NamePart.Legible ⟨name, custom⟩) (legible : Legible value) :
      Legible (.setting ⟨name, value, custom⟩)

/-- The setting can be written and read back. -/
def Setting.Legible (s : Setting) : Prop :=
  Value.Legible (.setting s)

/-- The entry can be written and read back. -/
structure LegibleEntry (e : String × Value) : Prop where
  key : IsKey e.1
  plain : e.2.IsPlain
  value : e.2.Legible

/-! ### Entries under keys that were repeated -/

theorem Value.Legible.items {v : Value} (h : v.Legible) : ∀ w ∈ v.items, w.Legible := by
  cases h with
  | list legible => exact legible
  | _ =>
      intro w hw
      rw [List.mem_singleton.mp hw]
      constructor <;> assumption

/-- The entries can be written and read back, and no key is there twice. -/
structure LegibleEntries (entries : List (String × Value)) : Prop where
  distinct : (entries.map Prod.fst).Nodup
  entry : ∀ e ∈ entries, LegibleEntry e

theorem Entries.mem_of_mem_put {α : Type} {key : String} {value : α} {es : List (String × α)}
    {e : String × α} (h : e ∈ put key value es) : e = (key, value) ∨ e ∈ es := by
  induction es with
  | nil => exact .inl (List.mem_singleton.mp h)
  | cons f es ih =>
      unfold put at h
      split at h
      · rename_i hkey
        rcases List.mem_cons.mp h with rfl | h
        · exact .inl (by rw [hkey])
        · exact .inr (List.mem_cons_of_mem _ h)
      · rcases List.mem_cons.mp h with rfl | h
        · exact .inr List.mem_cons_self
        · exact (ih h).imp_right (List.mem_cons_of_mem _)

namespace LegibleEntries

variable {entries : List (String × Value)} {key : String} {value : Value}

theorem put (h : LegibleEntries entries) (hentry : LegibleEntry (key, value)) :
    LegibleEntries (Entries.put key value entries) := by
  refine ⟨?_, ?_⟩
  · rw [Entries.keys_put]
    split
    · exact h.distinct
    · rename_i hkey
      simpa [List.nodup_append] using ⟨h.distinct, fun k v hk hkey' => hkey (by
        rw [← hkey']
        exact List.mem_map_of_mem hk)⟩
  · intro e he
    rcases Entries.mem_of_mem_put he with rfl | he
    · exact hentry
    · exact h.entry e he

theorem collect (h : LegibleEntries entries) (hentry : LegibleEntry (key, value)) :
    LegibleEntries (Value.collect entries key value) := by
  unfold Value.collect
  split
  · exact h.put hentry
  · rename_i earlier hget
    have hearlier := h.entry _ (Entries.mem_of_get? hget)
    refine h.put ⟨hentry.key, by simp [Value.IsPlain], .list ?_⟩
    intro v hv
    rcases List.mem_append.mp hv with hv | hv
    · exact hearlier.value.items v hv
    · exact hentry.value.items v hv

theorem foldl (more : List (String × Value)) (h : LegibleEntries entries)
    (hmore : ∀ e ∈ more, LegibleEntry e) :
    LegibleEntries (more.foldl (fun dict e => Value.collect dict e.1 e.2) entries) := by
  induction more generalizing entries with
  | nil => exact h
  | cons e more ih =>
      exact ih (h.collect (hmore e List.mem_cons_self))
        fun e he => hmore e (List.mem_cons_of_mem _ he)

end LegibleEntries

theorem Value.legible_ofEntries {entries : List (String × Value)}
    (h : ∀ e ∈ entries, LegibleEntry e) : (Value.ofEntries entries).Legible := by
  have hnil : LegibleEntries [] := ⟨List.nodup_nil, List.forall_mem_nil _⟩
  have hall := hnil.foldl entries h
  exact .aggregate hall.distinct (fun e he => (hall.entry e he).key)
    (fun e he => (hall.entry e he).plain) fun e he => (hall.entry e he).value

/-- The part can be written and read back. -/
def Part.Legible : Part → Prop
  | .setting s => s.Legible
  | .value v => v.Legible ∧ v.IsPlain
  | .items vs => ∀ v ∈ vs, v.Legible
  | .entries es => ∀ e ∈ es, LegibleEntry e

theorem Setting.legible_ofParts {first : NamePart} {rest : List NamePart} {v : Value}
    (hfirst : first.Legible) (hrest : ∀ part ∈ rest, part.Legible) (hv : v.Legible) :
    (Setting.ofParts first rest v).Legible := by
  induction rest generalizing first with
  | nil => exact .setting hfirst hv
  | cons second rest ih =>
      exact .setting hfirst (ih (hrest second (by simp)) fun part hp => hrest part (by simp [hp]))

/-- What stands in legible tokens is legible. -/
theorem Stands.legible {part : Part} {ts us : List Token} (h : Stands part ts us)
    (legible : AllLegible ts) : part.Legible := by
  induction h with
  | setting head more kind value ih =>
      have hmore := (head.begins : Begins Token.HasValue _ _ _).allLegible legible
      have hvalue := (more.begins : Begins Token.HasValue _ _ _).allLegible hmore
      exact Setting.legible_ofParts (head.legible legible) (more.legible hmore)
        (ih fun t ht => hvalue t (by simp [ht])).1
  | string start strings => exact ⟨.string _, by simp [Value.IsPlain]⟩
  | int kind value =>
      exact ⟨.int ((legible _ (by simp)).inRange.2 kind _ value), by simp [Value.IsPlain]⟩
  | @float t us kind =>
      obtain ⟨negative, m, hvalue⟩ := (legible t (by simp)).inRange.1 kind
      rw [hvalue]
      exact ⟨.float negative m, by simp [Value.IsPlain]⟩
  | bool kind word => exact ⟨.bool _, by simp [Value.IsPlain]⟩
  | constant start inner =>
      exact ⟨.constant (inner.isConstant start legible), by simp [Value.IsPlain]⟩
  | list openKind items closeKind ih =>
      exact ⟨.list (ih fun t ht => legible t (by simp [ht])), by simp [Value.IsPlain]⟩
  | aggregate openKind entries closeKind ih =>
      exact ⟨Value.legible_ofEntries (ih fun t ht => legible t (by simp [ht])),
        by simp [Value.IsPlain, Value.ofEntries]⟩
  | noItems => exact List.forall_mem_nil _
  | settingItem start head separator tail ih₁ ih₂ =>
      have hms := head.begins.allLegible legible
      have hns := (separator.begins : Begins Token.HasValue _ _ _).allLegible hms
      exact List.forall_mem_cons.mpr ⟨ih₁ legible, ih₂ hns⟩
  | stringItem kind value separator tail ih =>
      have hms := fun t ht => legible t (List.mem_cons_of_mem _ ht)
      have hns := (separator.begins : Begins Token.HasValue _ _ _).allLegible hms
      exact List.forall_mem_cons.mpr ⟨.string _, ih hns⟩
  | valueItem start other head separator tail ih₁ ih₂ =>
      have hms := head.begins.allLegible legible
      have hns := (separator.begins : Begins Token.HasValue _ _ _).allLegible hms
      exact List.forall_mem_cons.mpr ⟨(ih₁ legible).1, ih₂ hns⟩
  | noEntries => exact List.forall_mem_nil _
  | @entry ts ms ns ps qs us k v es key colon value separator tail ih₁ ih₂ =>
      have hms := (key.begins : Begins Token.HasValue _ _ _).allLegible legible
      -- Only a colon is a token of its own; in front of a bracket there is none.
      have hns : AllLegible ns := by
        cases colon with
        | colon kind => exact fun t ht => hms t (List.mem_cons_of_mem _ ht)
        | bracket kind => exact hms
      have hps := value.begins.allLegible hns
      have hqs := (separator.begins : Begins Token.HasValue _ _ _).allLegible hps
      exact List.forall_mem_cons.mpr
        ⟨⟨key.isKey legible, (ih₁ hns).2, (ih₁ hns).1⟩, ih₂ hqs⟩

end Proto2

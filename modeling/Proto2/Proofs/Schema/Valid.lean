import Mathlib.Data.List.Nodup
import Proto2.Model.Validation

/-!
Which declarations are legal.

The rules of the model are stated for declarations as they are, without regard to how they come
about, and a declaration is built exactly if it obeys them.
-/

namespace Proto2

namespace Validation

theorem firstRepeated?_go {α : Type} [BEq α] [LawfulBEq α] (seen xs : List α) :
    firstRepeated?.go seen xs = none ↔ xs.Nodup ∧ ∀ x ∈ xs, x ∉ seen := by
  induction xs generalizing seen with
  | nil => simp [firstRepeated?.go]
  | cons x xs ih =>
      rw [firstRepeated?.go]
      by_cases hx : x ∈ seen
      · simp [hx]
      · simp only [List.contains_eq_mem, hx, decide_false, Bool.false_eq_true, if_false, ih,
          List.nodup_cons, List.mem_cons, not_or, forall_eq_or_imp, not_false_eq_true, true_and]
        constructor
        · rintro ⟨hnodup, hother⟩
          exact ⟨⟨fun h => (hother x h).1 rfl, hnodup⟩, fun y hy => (hother y hy).2⟩
        · rintro ⟨⟨hnot, hnodup⟩, hother⟩
          exact ⟨hnodup, fun y hy => ⟨fun h => hnot (h ▸ hy), hother y hy⟩⟩

/-- There is no repetition exactly if all elements are different. -/
theorem firstRepeated?_eq_none {α : Type} [BEq α] [LawfulBEq α] {xs : List α} :
    firstRepeated? xs = none ↔ xs.Nodup := by
  simp [firstRepeated?, firstRepeated?_go]

theorem checkTag_eq_ok {owner : String} {tag : Int} {u : Unit} :
    checkTag owner tag = .ok u ↔ Tag.isValid tag = true := by
  unfold checkTag refuse
  split <;> simp [*]

theorem checkDistinctTags_eq_ok {scope : String} {tags : List Int} {u : Unit} :
    checkDistinctTags scope tags = .ok u ↔ tags.Nodup := by
  rw [← firstRepeated?_eq_none]
  unfold checkDistinctTags refuse
  split <;> simp [*]

theorem checkDistinctValueNames_eq_ok {scope : String} {types : List TypeDecl} {u : Unit} :
    checkDistinctValueNames scope types = .ok u ↔ (enumValueNames types).Nodup := by
  rw [← firstRepeated?_eq_none]
  unfold checkDistinctValueNames refuse
  split <;> simp [*]

end Validation

/-! ### Legal declarations -/

/-- The tag of the field is legal. -/
def Field.IsValid (f : Field) : Prop :=
  Tag.isValid f.tag = true

/-- The range does not run backwards and lies within the tags. -/
def ExtensionRange.IsValid (r : ExtensionRange) : Prop :=
  Tag.least ≤ r.start ∧ r.start ≤ r.stop ∧ r.stop ≤ Tag.greatest

/-- The tag of the value is legal. -/
def EnumValue.IsValid (v : EnumValue) : Prop :=
  Tag.isValid v.tag = true

/-- Tags are legal, and no two values share one unless the enum allows it; whether it does is
said at most once. -/
structure Enumeration.IsValid (e : Enumeration) : Prop where
  values : ∀ v ∈ e.values, v.IsValid
  aliasing : ∃ allowed, Enumeration.aliasing e.options = .ok allowed ∧
    (allowed = false → (e.values.map (·.tag)).Nodup)

/-- Tags are legal, and no two fields share one. -/
structure Extend.IsValid (e : Extend) : Prop where
  fields : ∀ f ∈ e.fields, f.IsValid
  tags : (e.fields.map (·.tag)).Nodup

/-- The rules for a message that do not concern the messages in it. -/
structure Message.IsValidAlone (m : Message) : Prop where
  fields : ∀ f ∈ m.fields, f.IsValid
  tags : (m.fields.map (·.tag)).Nodup
  valueNames : (Validation.enumValueNames m.nestedTypes).Nodup
  ranges : ∀ r ∈ m.extensionRanges, r.IsValid

mutual

/-- The message and everything declared in it obeys the rules. -/
def Message.IsValid : Message → Prop
  | ⟨name, fullName, doc, fields, nestedTypes, ranges, options⟩ =>
    Message.IsValidAlone ⟨name, fullName, doc, fields, nestedTypes, ranges, options⟩ ∧
      TypeDecl.AllValid nestedTypes

/-- The type and everything declared in it obeys the rules. -/
def TypeDecl.IsValid : TypeDecl → Prop
  | .message m => m.IsValid
  | .enumeration e => e.IsValid

/-- All types obey the rules. -/
def TypeDecl.AllValid : List TypeDecl → Prop
  | [] => True
  | t :: ts => t.IsValid ∧ TypeDecl.AllValid ts

end

theorem TypeDecl.allValid_iff {types : List TypeDecl} :
    TypeDecl.AllValid types ↔ ∀ t ∈ types, t.IsValid := by
  induction types with
  | nil => simp [TypeDecl.AllValid]
  | cons t types ih => simp [TypeDecl.AllValid, ih]

theorem Message.isValid_iff {m : Message} :
    m.IsValid ↔ m.IsValidAlone ∧ ∀ t ∈ m.nestedTypes, t.IsValid := by
  cases m
  rw [Message.IsValid, TypeDecl.allValid_iff]

@[simp] theorem TypeDecl.isValid_message {m : Message} :
    (TypeDecl.message m).IsValid ↔ m.IsValid := by
  rw [TypeDecl.IsValid]

@[simp] theorem TypeDecl.isValid_enumeration {e : Enumeration} :
    (TypeDecl.enumeration e).IsValid ↔ e.IsValid := by
  rw [TypeDecl.IsValid]

/-- All types and extensions of the file obey the rules. -/
structure SchemaFile.IsValid (f : SchemaFile) : Prop where
  types : ∀ t ∈ f.types, t.IsValid
  extensions : ∀ e ∈ f.extensions, e.IsValid

/-! ### Declarations that are built -/

theorem except_bind_eq_ok {ε α β : Type} {e : Except ε α} {f : α → Except ε β} {b : β} :
    (e >>= f) = .ok b ↔ ∃ a, e = .ok a ∧ f a = .ok b := by
  cases e <;> simp [bind, Except.bind]

theorem except_pure_eq_ok {ε α : Type} {a b : α} : (pure a : Except ε α) = .ok b ↔ b = a := by
  simp [pure, Except.pure, eq_comm]

theorem Label.read_eq_ok {text : String} {label : Label} :
    Label.read text = .ok label ↔ Label.ofText? text = some label := by
  unfold Label.read
  split <;> simp [*]

theorem Field.build_eq_ok {label type name doc : String} {tag : Int} {options : List Setting}
    {f : Field} :
    Field.build label type name tag doc options = .ok f ↔
      (∃ l, Label.ofText? label = some l ∧ f = ⟨l, type, name, tag, doc, options⟩) ∧
        f.IsValid := by
  simp only [Field.build, except_bind_eq_ok, except_pure_eq_ok, Validation.checkTag_eq_ok,
    Label.read_eq_ok, exists_const]
  constructor
  · rintro ⟨htag, l, hl, rfl⟩
    exact ⟨⟨l, hl, rfl⟩, htag⟩
  · rintro ⟨⟨l, hl, rfl⟩, htag⟩
    exact ⟨htag, l, hl, rfl⟩

theorem ExtensionRange.build_eq_ok {doc : String} {start stop : Int} {r : ExtensionRange} :
    ExtensionRange.build doc start stop = .ok r ↔ r = ⟨doc, start, stop⟩ ∧ r.IsValid := by
  unfold ExtensionRange.build Validation.refuse
  split
  case isTrue h =>
    constructor
    · rintro ⟨⟩
      exact ⟨rfl, h⟩
    · rintro ⟨rfl, -⟩
      rfl
  case isFalse h =>
    refine iff_of_false (by simp) ?_
    rintro ⟨rfl, hvalid⟩
    exact h hvalid

theorem EnumValue.build_eq_ok {name doc : String} {tag : Int} {options : List Setting}
    {v : EnumValue} :
    EnumValue.build name tag doc options = .ok v ↔ v = ⟨name, tag, doc, options⟩ ∧ v.IsValid := by
  simp only [EnumValue.build, except_bind_eq_ok, except_pure_eq_ok, Validation.checkTag_eq_ok,
    exists_const]
  constructor
  · rintro ⟨htag, rfl⟩
    exact ⟨rfl, htag⟩
  · rintro ⟨rfl, htag⟩
    exact ⟨htag, rfl⟩

/-- An enum of legal values is built exactly if it is legal. -/
theorem Enumeration.build_eq_ok {name fullName doc : String} {options : List Setting}
    {values : List EnumValue} {e : Enumeration} (hvalues : ∀ v ∈ values, v.IsValid) :
    Enumeration.build name fullName doc options values = .ok e ↔
      e = ⟨name, fullName, doc, options, values⟩ ∧ e.IsValid := by
  unfold Enumeration.build
  cases halias : Enumeration.aliasing options with
  | error err =>
      refine iff_of_false (by simp [Validation.refuse]) ?_
      rintro ⟨rfl, hvalid⟩
      obtain ⟨b, hb, -⟩ := hvalid.aliasing
      simp [halias] at hb
  | ok allowed =>
      cases allowed with
      | true =>
          constructor
          · rintro ⟨⟩
            exact ⟨rfl, hvalues, true, halias, by simp⟩
          · rintro ⟨rfl, -⟩
            rfl
      | false =>
          simp only [except_bind_eq_ok, except_pure_eq_ok, Validation.checkDistinctTags_eq_ok,
            exists_const]
          constructor
          · rintro ⟨hnodup, rfl⟩
            exact ⟨rfl, hvalues, false, halias, fun _ => hnodup⟩
          · rintro ⟨rfl, hvalid⟩
            obtain ⟨b, hb, hnodup⟩ := hvalid.aliasing
            rw [halias, Except.ok.injEq] at hb
            exact ⟨hnodup hb.symm, rfl⟩

/-- An extension of legal fields is built exactly if it is legal. -/
theorem Extend.build_eq_ok {name fullName doc : String} {fields : List Field} {e : Extend}
    (hfields : ∀ f ∈ fields, f.IsValid) :
    Extend.build name fullName doc fields = .ok e ↔
      e = ⟨name, fullName, doc, fields⟩ ∧ e.IsValid := by
  simp only [Extend.build, except_bind_eq_ok, except_pure_eq_ok,
    Validation.checkDistinctTags_eq_ok, exists_const]
  constructor
  · rintro ⟨hnodup, rfl⟩
    exact ⟨rfl, hfields, hnodup⟩
  · rintro ⟨rfl, hvalid⟩
    exact ⟨hvalid.tags, rfl⟩

/-- A message of legal declarations is built exactly if it is legal. -/
theorem Message.build_eq_ok {name fullName doc : String} {fields : List Field}
    {types : List TypeDecl} {ranges : List ExtensionRange} {options : List Setting} {m : Message}
    (hfields : ∀ f ∈ fields, f.IsValid) (htypes : ∀ t ∈ types, t.IsValid)
    (hranges : ∀ r ∈ ranges, r.IsValid) :
    Message.build name fullName doc fields types ranges options = .ok m ↔
      m = ⟨name, fullName, doc, fields, types, ranges, options⟩ ∧ m.IsValid := by
  simp only [Message.build, except_bind_eq_ok, except_pure_eq_ok,
    Validation.checkDistinctTags_eq_ok, Validation.checkDistinctValueNames_eq_ok, exists_const]
  constructor
  · rintro ⟨htags, hnames, rfl⟩
    exact ⟨rfl, Message.isValid_iff.mpr ⟨⟨hfields, htags, hnames, hranges⟩, htypes⟩⟩
  · rintro ⟨rfl, hvalid⟩
    obtain ⟨halone, -⟩ := Message.isValid_iff.mp hvalid
    exact ⟨halone.tags, halone.valueNames, rfl⟩

end Proto2

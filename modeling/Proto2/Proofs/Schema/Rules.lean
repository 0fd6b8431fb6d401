import Proto2.Proofs.Schema.Valid

/-!
The rules of the model, declaration by declaration.

A declaration obeys the rules if its own tags, names and range do; what is declared in it has
rules of its own.  For a declaration that does not, `n.Violates e` says which error is due to it:
that of the first rule in the order in which they are checked, about the first tag or name that
breaks it.  A declaration whose parts are there is built just if it obeys, and refused with that
error otherwise.
-/

namespace Proto2

/-! ### What is declared in a file -/

/-- The type, or a field, a value, a range or a type in it at any depth, is the declaration. -/
inductive TypeDecl.Declares : TypeDecl → Node → Prop
  | message {m : Message} : Declares (.message m) (.message m)
  | field {m : Message} {f : Field} (h : f ∈ m.fields) : Declares (.message m) (.field f)
  | range {m : Message} {r : ExtensionRange} (h : r ∈ m.extensionRanges) :
      Declares (.message m) (.extensionRange r)
  | nested {m : Message} {t : TypeDecl} {n : Node} (h : t ∈ m.nestedTypes) (inner : Declares t n) :
      Declares (.message m) n
  | enumeration {e : Enumeration} : Declares (.enumeration e) (.enumeration e)
  | value {e : Enumeration} {v : EnumValue} (h : v ∈ e.values) :
      Declares (.enumeration e) (.enumValue v)

/-- The extension or a field in it is the declaration. -/
inductive Extend.Declares (e : Extend) : Node → Prop
  | extension : Declares e (.extension e)
  | field {f : Field} (h : f ∈ e.fields) : Declares e (.field f)

/-- The declaration is in the file, at any depth. -/
inductive SchemaFile.Declares (f : SchemaFile) : Node → Prop
  | type {t : TypeDecl} {n : Node} (h : t ∈ f.types) (inner : t.Declares n) : Declares f n
  | extension {e : Extend} {n : Node} (h : e ∈ f.extensions) (inner : e.Declares n) :
      Declares f n

/-! ### Rules -/

/-- The tag may be used: it is in range and not in the reserved band. -/
def Tag.Legal (n : Int) : Prop :=
  1 ≤ n ∧ n ≤ 536870911 ∧ ¬ (19000 ≤ n ∧ n ≤ 19999)

instance (n : Int) : Decidable (Tag.Legal n) :=
  inferInstanceAs (Decidable (1 ≤ n ∧ n ≤ 536870911 ∧ ¬ (19000 ≤ n ∧ n ≤ 19999)))

theorem Tag.isValid_iff {n : Int} : Tag.isValid n = true ↔ Tag.Legal n := by
  simp only [isValid, Bool.or_eq_true, Bool.and_eq_true, decide_eq_true_eq]
  simp only [Legal, least, greatest, reservedStart, reservedStop]
  omega

/-- The settings under the name by which an enum allows that its values share tags. -/
def Enumeration.aliasSettings (e : Enumeration) : List Setting :=
  e.options.filter (·.name == "allow_alias")

/-- The declaration itself obeys the rules of the model. -/
def Node.Obeys : Node → Prop
  | .field f => Tag.Legal f.tag
  | .enumValue v => Tag.Legal v.tag
  | .extensionRange r => 1 ≤ r.start ∧ r.start ≤ r.stop ∧ r.stop ≤ 536870911
  | .enumeration e => e.aliasSettings.length ≤ 1 ∧
      ((∃ s ∈ e.aliasSettings, s.value = .bool true) ∨ (e.values.map (·.tag)).Nodup)
  | .message m => (m.fields.map (·.tag)).Nodup ∧ (Validation.enumValueNames m.nestedTypes).Nodup
  | .extension e => (e.fields.map (·.tag)).Nodup
  | _ => True

/-- The element occurs earlier in the list, and is the first one that does. -/
def FirstRepeated {α : Type} (xs : List α) (x : α) : Prop :=
  ∃ before after, xs = before ++ x :: after ∧ before.Nodup ∧ x ∈ before

/-- The declaration breaks a rule, and the error is about the first one that it breaks. -/
inductive Node.Violates : Node → ModelError → Prop
  | fieldTag {f : Field} (h : ¬ Tag.Legal f.tag) : Violates (.field f) (.illegalTag f.name f.tag)
  | valueTag {v : EnumValue} (h : ¬ Tag.Legal v.tag) :
      Violates (.enumValue v) (.illegalTag v.name v.tag)
  | range {r : ExtensionRange} (h : ¬ (1 ≤ r.start ∧ r.start ≤ r.stop ∧ r.stop ≤ 536870911)) :
      Violates (.extensionRange r) (.illegalRange r.start r.stop)
  | aliasTwice {e : Enumeration} (h : 1 < e.aliasSettings.length) :
      Violates (.enumeration e) (.multipleOptions "allow_alias")
  | valueTags {e : Enumeration} {tag : Int} (once : e.aliasSettings.length ≤ 1)
      (notAllowed : ∀ s ∈ e.aliasSettings, s.value ≠ .bool true)
      (h : FirstRepeated (e.values.map (·.tag)) tag) :
      Violates (.enumeration e) (.duplicateTag e.fullName tag)
  | messageTags {m : Message} {tag : Int} (h : FirstRepeated (m.fields.map (·.tag)) tag) :
      Violates (.message m) (.duplicateTag m.fullName tag)
  | valueNames {m : Message} {name : String} (tags : (m.fields.map (·.tag)).Nodup)
      (h : FirstRepeated (Validation.enumValueNames m.nestedTypes) name) :
      Violates (.message m) (.duplicateValueName m.fullName name)
  | extensionTags {e : Extend} {tag : Int} (h : FirstRepeated (e.fields.map (·.tag)) tag) :
      Violates (.extension e) (.duplicateTag e.fullName tag)

/-! ### Repetitions -/

theorem FirstRepeated.mem {α : Type} {xs : List α} {x : α} (h : FirstRepeated xs x) : x ∈ xs := by
  obtain ⟨before, after, rfl, -, -⟩ := h
  exact List.mem_append_right _ List.mem_cons_self

theorem Validation.firstRepeated?_go_eq_some {α : Type} [BEq α] [LawfulBEq α] {seen xs : List α}
    {x : α} :
    firstRepeated?.go seen xs = some x ↔
      ∃ before after, xs = before ++ x :: after ∧ before.Nodup ∧ (∀ y ∈ before, y ∉ seen) ∧
        (x ∈ seen ∨ x ∈ before) := by
  induction xs generalizing seen with
  | nil => simp [firstRepeated?.go]
  | cons y xs ih =>
      rw [firstRepeated?.go]
      -- An element that has been seen is the one looked for; any other joins those seen.
      by_cases hy : y ∈ seen
      · simp only [List.contains_eq_mem, hy, decide_true, if_true, Option.some.injEq]
        constructor
        · rintro rfl
          exact ⟨[], xs, rfl, .nil, by simp, .inl hy⟩
        · rintro ⟨before, after, heq, -, hbefore, -⟩
          cases before with
          | nil => exact (List.cons.inj heq).1
          | cons z before =>
              cases (List.cons.inj heq).1
              exact absurd hy (hbefore y List.mem_cons_self)
      · simp only [List.contains_eq_mem, hy, decide_false, Bool.false_eq_true, if_false, ih]
        constructor
        · rintro ⟨before, after, rfl, hnodup, hbefore, hx⟩
          have hnot : y ∉ before := fun h => (hbefore y h) List.mem_cons_self
          refine ⟨y :: before, after, rfl, List.nodup_cons.mpr ⟨hnot, hnodup⟩, ?_, ?_⟩
          · exact List.forall_mem_cons.mpr
              ⟨hy, fun z hz hseen => hbefore z hz (List.mem_cons_of_mem _ hseen)⟩
          · simpa [or_assoc, or_comm, or_left_comm] using hx
        · rintro ⟨before, after, heq, hnodup, hbefore, hx⟩
          cases before with
          | nil =>
              cases (List.cons.inj heq).1
              exact absurd (hx.resolve_right List.not_mem_nil) hy
          | cons z before =>
              obtain ⟨rfl, rfl⟩ := List.cons.inj heq
              obtain ⟨hnot, hnodup⟩ := List.nodup_cons.mp hnodup
              refine ⟨before, after, rfl, hnodup, fun w hw hseen => ?_, ?_⟩
              · rcases List.mem_cons.mp hseen with rfl | hseen
                · exact hnot hw
                · exact hbefore w (List.mem_cons_of_mem _ hw) hseen
              · simpa [or_assoc, or_comm, or_left_comm] using hx

theorem Validation.firstRepeated?_eq_some {α : Type} [BEq α] [LawfulBEq α] {xs : List α} {x : α} :
    firstRepeated? xs = some x ↔ FirstRepeated xs x := by
  simp [firstRepeated?, firstRepeated?_go_eq_some, FirstRepeated]

/-! ### The error of a declaration -/

/-- The error about the first element that occurs earlier, if there is one. -/
def Validation.repetition? {α : Type} [BEq α] (error : α → ModelError) (xs : List α) :
    Option ModelError :=
  (firstRepeated? xs).map error

/-- The error of the first rule that the declaration breaks. -/
def Node.violation? : Node → Option ModelError
  | .field f => if Tag.isValid f.tag then none else some (.illegalTag f.name f.tag)
  | .enumValue v => if Tag.isValid v.tag then none else some (.illegalTag v.name v.tag)
  | .extensionRange r =>
    if Tag.least ≤ r.start ∧ r.start ≤ r.stop ∧ r.stop ≤ Tag.greatest then none
    else some (.illegalRange r.start r.stop)
  | .enumeration e =>
    match Enumeration.aliasing e.options with
    | .error err => some err
    | .ok true => none
    | .ok false => Validation.repetition? (.duplicateTag e.fullName) (e.values.map (·.tag))
  | .message m =>
    (Validation.repetition? (.duplicateTag m.fullName) (m.fields.map (·.tag))).or
      (Validation.repetition? (.duplicateValueName m.fullName)
        (Validation.enumValueNames m.nestedTypes))
  | .extension e => Validation.repetition? (.duplicateTag e.fullName) (e.fields.map (·.tag))
  | _ => none

/-- The result of building the declaration: itself, or the error that is due to it. -/
def Node.built {α : Type} (n : Node) (a : α) : Except BuildError α :=
  match n.violation? with
  | some e => .error (.ofModelError e)
  | none => .ok a

section Repetition

variable {α : Type} [BEq α] [LawfulBEq α] {error : α → ModelError} {xs : List α}

theorem Validation.repetition?_eq_none : repetition? error xs = none ↔ xs.Nodup := by
  rw [repetition?, Option.map_eq_none_iff, firstRepeated?_eq_none]

theorem Validation.repetition?_eq_some {e : ModelError} :
    repetition? error xs = some e ↔ ∃ x, FirstRepeated xs x ∧ e = error x := by
  simp only [repetition?, Option.map_eq_some_iff, firstRepeated?_eq_some, eq_comm (a := error _)]

end Repetition

theorem Enumeration.aliasing_eq (e : Enumeration) :
    aliasing e.options =
      match e.aliasSettings with
      | [] => .ok false
      | [s] => .ok (Options.isTrue s.value)
      | _ :: _ :: _ => .error (.multipleOptions "allow_alias") := by
  unfold aliasing Options.find? aliasSettings
  cases e.options.filter (·.name == "allow_alias") with
  | nil => rfl
  | cons s rest => cases rest <;> rfl

theorem Options.isTrue_iff {v : Value} : isTrue v = true ↔ v = .bool true := by
  cases v with
  | bool b => cases b <;> simp [isTrue]
  | _ => simp [isTrue]

/-- What an enum says about its values sharing tags, by how often it says so. -/
theorem Enumeration.aliasing_cases (e : Enumeration) :
    (1 < e.aliasSettings.length ∧
        aliasing e.options = .error (.multipleOptions "allow_alias")) ∨
      (e.aliasSettings.length ≤ 1 ∧ (∃ s ∈ e.aliasSettings, s.value = .bool true) ∧
        aliasing e.options = .ok true) ∨
      (e.aliasSettings.length ≤ 1 ∧ (∀ s ∈ e.aliasSettings, s.value ≠ .bool true) ∧
        aliasing e.options = .ok false) := by
  rw [aliasing_eq]
  match e.aliasSettings with
  | [] => exact .inr (.inr ⟨by simp, by simp, rfl⟩)
  | [s] =>
      by_cases hs : s.value = .bool true
      · exact .inr (.inl ⟨by simp, by simpa using hs, by simp [Options.isTrue_iff.mpr hs]⟩)
      · have hfalse : Options.isTrue s.value = false := by
          rw [← Bool.not_eq_true, Options.isTrue_iff]
          exact hs
        exact .inr (.inr ⟨by simp, by simpa using hs, by simp [hfalse]⟩)
  | _ :: _ :: _ => exact .inl ⟨by simp, rfl⟩

theorem ite_eq_none_iff {α : Type} {c : Prop} [Decidable c] {a : α} :
    (if c then none else some a) = none ↔ c := by
  split <;> simp [*]

theorem ite_eq_some_iff {α : Type} {c : Prop} [Decidable c] {a b : α} :
    (if c then none else some a) = some b ↔ ¬ c ∧ b = a := by
  split <;> simp [*, eq_comm]

/-- The error is the one that is due to the declaration. -/
theorem Node.violation?_eq_some {n : Node} {e : ModelError} :
    n.violation? = some e ↔ n.Violates e := by
  cases n with
  | field f =>
      simp only [violation?, Tag.isValid_iff, ite_eq_some_iff]
      constructor
      · rintro ⟨h, rfl⟩
        exact .fieldTag h
      · intro h
        cases h with
        | fieldTag h => exact ⟨h, rfl⟩
  | enumValue v =>
      simp only [violation?, Tag.isValid_iff, ite_eq_some_iff]
      constructor
      · rintro ⟨h, rfl⟩
        exact .valueTag h
      · intro h
        cases h with
        | valueTag h => exact ⟨h, rfl⟩
  | extensionRange r =>
      simp only [violation?, ite_eq_some_iff]
      constructor
      · rintro ⟨h, rfl⟩
        exact .range h
      · intro h
        cases h with
        | range h => exact ⟨h, rfl⟩
  | enumeration enum =>
      simp only [violation?]
      rcases enum.aliasing_cases with ⟨hcount, hres⟩ | ⟨hcount, hallowed, hres⟩ |
        ⟨hcount, hnot, hres⟩
      · rw [hres]
        constructor
        · rintro ⟨⟩
          exact .aliasTwice hcount
        · intro h
          cases h with
          | aliasTwice => rfl
          | valueTags once => omega
      · rw [hres]
        refine iff_of_false (by simp) ?_
        obtain ⟨s, hs, hvalue⟩ := hallowed
        intro h
        cases h with
        | aliasTwice twice => omega
        | valueTags once notAllowed => exact notAllowed s hs hvalue
      · rw [hres]
        simp only [Validation.repetition?_eq_some]
        constructor
        · rintro ⟨tag, h, rfl⟩
          exact .valueTags hcount hnot h
        · intro h
          cases h with
          | aliasTwice twice => omega
          | valueTags once notAllowed h => exact ⟨_, h, rfl⟩
  | message m =>
      simp only [violation?, Option.or_eq_some_iff, Validation.repetition?_eq_some,
        Validation.repetition?_eq_none]
      constructor
      · rintro (⟨tag, h, rfl⟩ | ⟨tags, name, h, rfl⟩)
        · exact .messageTags h
        · exact .valueNames tags h
      · intro h
        cases h with
        | messageTags h => exact .inl ⟨_, h, rfl⟩
        | valueNames tags h => exact .inr ⟨tags, _, h, rfl⟩
  | extension x =>
      simp only [violation?, Validation.repetition?_eq_some]
      constructor
      · rintro ⟨tag, h, rfl⟩
        exact .extensionTags h
      · intro h
        cases h with
        | extensionTags h => exact ⟨_, h, rfl⟩
  | _ =>
      refine iff_of_false (by simp [violation?]) ?_
      rintro ⟨⟩

/-- There is no error just if the declaration obeys the rules. -/
theorem Node.violation?_eq_none {n : Node} : n.violation? = none ↔ n.Obeys := by
  cases n with
  | field f => simp only [violation?, Tag.isValid_iff, ite_eq_none_iff, Obeys]
  | enumValue v => simp only [violation?, Tag.isValid_iff, ite_eq_none_iff, Obeys]
  | extensionRange r => exact ite_eq_none_iff
  | enumeration e =>
      simp only [violation?, Obeys]
      rcases e.aliasing_cases with ⟨hcount, hres⟩ | ⟨hcount, hallowed, hres⟩ |
        ⟨hcount, hnot, hres⟩
      · rw [hres]
        exact iff_of_false (by simp) fun h => by omega
      · rw [hres]
        exact iff_of_true rfl ⟨hcount, .inl hallowed⟩
      · rw [hres]
        simp only [Validation.repetition?_eq_none]
        constructor
        · exact fun h => ⟨hcount, .inr h⟩
        · rintro ⟨-, ⟨s, hs, hvalue⟩ | h⟩
          · exact absurd hvalue (hnot s hs)
          · exact h
  | message m =>
      simp only [violation?, Option.or_eq_none_iff, Validation.repetition?_eq_none, Obeys]
  | extension e => simp only [violation?, Validation.repetition?_eq_none, Obeys]
  | _ => simp [violation?, Obeys]

/-- A declaration either obeys the rules or has one error that is due to it. -/
theorem Node.obeys_iff {n : Node} : n.Obeys ↔ ∀ e, ¬ n.Violates e := by
  simp only [← violation?_eq_none, ← violation?_eq_some, Option.eq_none_iff_forall_ne_some, ne_eq]

/-! ### Declarations that are built -/

theorem Node.built_of_some {α : Type} {n : Node} {a : α} {e : ModelError}
    (h : n.violation? = some e) : n.built a = .error (.ofModelError e) := by
  rw [built, h]

theorem Node.built_of_none {α : Type} {n : Node} {a : α} (h : n.violation? = none) :
    n.built a = .ok a := by
  rw [built, h]

theorem Field.build_eq {label type name doc : String} {tag : Int} {options : List Setting}
    {l : Label} (known : Label.ofText? label = some l) :
    Field.build label type name tag doc options =
      (Node.field ⟨l, type, name, tag, doc, options⟩).built ⟨l, type, name, tag, doc, options⟩ := by
  unfold Field.build Validation.checkTag Label.read
  rw [known, Node.built, Node.violation?]
  split <;> rfl

theorem EnumValue.build_eq {name doc : String} {tag : Int} {options : List Setting} :
    EnumValue.build name tag doc options =
      (Node.enumValue ⟨name, tag, doc, options⟩).built ⟨name, tag, doc, options⟩ := by
  unfold EnumValue.build Validation.checkTag
  rw [Node.built, Node.violation?]
  split <;> rfl

theorem ExtensionRange.build_eq {doc : String} {start stop : Int} :
    ExtensionRange.build doc start stop =
      (Node.extensionRange ⟨doc, start, stop⟩).built ⟨doc, start, stop⟩ := by
  unfold ExtensionRange.build
  rw [Node.built, Node.violation?]
  split <;> rfl

theorem Validation.checkDistinctTags_eq (scope : String) (tags : List Int) :
    checkDistinctTags scope tags =
      match repetition? (.duplicateTag scope) tags with
      | some e => .error (.ofModelError e)
      | none => .ok () := by
  unfold checkDistinctTags repetition?
  cases firstRepeated? tags <;> rfl

theorem Validation.checkDistinctValueNames_eq (scope : String) (types : List TypeDecl) :
    checkDistinctValueNames scope types =
      match repetition? (.duplicateValueName scope) (enumValueNames types) with
      | some e => .error (.ofModelError e)
      | none => .ok () := by
  unfold checkDistinctValueNames repetition?
  cases firstRepeated? (enumValueNames types) <;> rfl

theorem Enumeration.build_eq {name fullName doc : String} {options : List Setting}
    {values : List EnumValue} :
    Enumeration.build name fullName doc options values =
      (Node.enumeration ⟨name, fullName, doc, options, values⟩).built
        ⟨name, fullName, doc, options, values⟩ := by
  unfold Enumeration.build
  rw [Node.built, Node.violation?, Validation.checkDistinctTags_eq]
  cases aliasing options with
  | error e => rfl
  | ok allowed =>
      cases allowed with
      | true => rfl
      | false =>
          cases Validation.repetition? (.duplicateTag fullName) (values.map (·.tag)) <;> rfl

theorem Extend.build_eq {name fullName doc : String} {fields : List Field} :
    Extend.build name fullName doc fields =
      (Node.extension ⟨name, fullName, doc, fields⟩).built ⟨name, fullName, doc, fields⟩ := by
  unfold Extend.build
  rw [Node.built, Node.violation?, Validation.checkDistinctTags_eq]
  cases Validation.repetition? (.duplicateTag fullName) (fields.map (·.tag)) <;> rfl

theorem Message.build_eq {name fullName doc : String} {fields : List Field}
    {types : List TypeDecl} {ranges : List ExtensionRange} {options : List Setting} :
    Message.build name fullName doc fields types ranges options =
      (Node.message ⟨name, fullName, doc, fields, types, ranges, options⟩).built
        ⟨name, fullName, doc, fields, types, ranges, options⟩ := by
  unfold Message.build
  rw [Node.built, Node.violation?, Validation.checkDistinctTags_eq,
    Validation.checkDistinctValueNames_eq]
  cases Validation.repetition? (.duplicateTag fullName) (fields.map (·.tag)) with
  | some e => rfl
  | none =>
      cases Validation.repetition? (.duplicateValueName fullName)
        (Validation.enumValueNames types) <;> rfl

end Proto2

import Proto2.Model.Validation

/-!
Looking options up among one more of them.

A lookup goes by the name of a setting alone.  A setting of another name changes nothing, wherever
it is put; one of the name that is looked up is found if there was none, and is one too many if
there was.  Whether its name stands in parentheses makes no difference to this.
-/

namespace Proto2

namespace Options

variable {s : Setting} {name : String}

theorem find?_insert_of_ne (h : s.name ≠ name) (before after : List Setting) :
    find? (before ++ s :: after) name = find? (before ++ after) name := by
  have hfilter : (before ++ s :: after).filter (·.name == name) =
      (before ++ after).filter (·.name == name) := by
    rw [List.filter_append, List.filter_cons_of_neg (by simpa using h), ← List.filter_append]
  rw [find?, find?, hfilter]

theorem find?_insert_self (s : Setting) (before after : List Setting) :
    find? (before ++ s :: after) s.name =
      match find? (before ++ after) s.name with
      | .ok none => .ok (some s)
      | _ => .error (.multipleOptions s.name) := by
  rw [find?, find?, List.filter_append, List.filter_append, List.filter_cons_of_pos (by simp)]
  -- By how often the name is set on either side of the place.
  generalize before.filter (·.name == s.name) = earlier
  generalize after.filter (·.name == s.name) = later
  match earlier, later with
  | [], [] => rfl
  | [], [_] => rfl
  | [], _ :: _ :: _ => rfl
  | [_], [] => rfl
  | [_], _ :: _ => rfl
  | _ :: _ :: _, _ => rfl

theorem isSet_insert_of_ne (h : s.name ≠ name) (before after : List Setting) :
    isSet (before ++ s :: after) name = isSet (before ++ after) name := by
  rw [isSet, isSet, find?_insert_of_ne h]

end Options

namespace Enumeration

/-- Whether an enum is accepted, and whether its values may then share tags, depends on what its
options say of that and on nothing else in them. -/
theorem map_allowsAlias_build (name fullName doc : String) (options : List Setting)
    (values : List EnumValue) :
    (build name fullName doc options values).map (·.allowsAlias) =
      match aliasing options with
      | .error e => Validation.refuse e
      | .ok true => .ok true
      | .ok false =>
        (Validation.checkDistinctTags fullName (values.map (·.tag))).map fun _ => false := by
  unfold build
  cases haliasing : aliasing options with
  | error e => rfl
  | ok allowed =>
      have hallows : allowsAlias ⟨name, fullName, doc, options, values⟩ = allowed := by
        rw [allowsAlias, haliasing]
      cases allowed with
      | true => exact congrArg Except.ok hallows
      | false =>
          cases Validation.checkDistinctTags fullName (values.map (·.tag)) with
          | error e => rfl
          | ok _ => exact congrArg Except.ok hallows

theorem aliasing_insert_of_ne {s : Setting} (h : s.name ≠ "allow_alias")
    (before after : List Setting) :
    aliasing (before ++ s :: after) = aliasing (before ++ after) := by
  rw [aliasing, aliasing, Options.find?_insert_of_ne h]

end Enumeration

/-- What the built-in options say of a field or an enum does not change by a setting of another
name, wherever it is put among the options.  A setting of the name that is looked up counts, custom
or not: it is found if there was none, and one too many if there was. -/
theorem builtin_options_by_name (s : Setting) (before after : List Setting) :
    (∀ f : Field,
      let given : Field := { f with options := before ++ after }
      let enlarged : Field := { f with options := before ++ s :: after }
      (s.name ≠ "deprecated" → enlarged.isDeprecated = given.isDeprecated) ∧
        (s.name ≠ "packed" → enlarged.isPacked = given.isPacked) ∧
        (s.name ≠ "default" → enlarged.default? = given.default?)) ∧
    (s.name ≠ "allow_alias" → ∀ name fullName doc values,
      (Enumeration.build name fullName doc (before ++ s :: after) values).map (·.allowsAlias) =
        (Enumeration.build name fullName doc (before ++ after) values).map (·.allowsAlias)) ∧
    Options.find? (before ++ s :: after) s.name =
      match Options.find? (before ++ after) s.name with
      | .ok none => .ok (some s)
      | _ => .error (.multipleOptions s.name) := by
  refine ⟨fun f => ⟨fun h => ?_, fun h => ?_, fun h => ?_⟩,
    fun h name fullName doc values => ?_, ?_⟩
  · exact Options.isSet_insert_of_ne h before after
  · exact Options.isSet_insert_of_ne h before after
  · rw [Field.default?, Field.default?, Options.find?_insert_of_ne h]
  · rw [Enumeration.map_allowsAlias_build, Enumeration.map_allowsAlias_build,
      Enumeration.aliasing_insert_of_ne h]
  · exact Options.find?_insert_self s before after

/-- The custom option `(packed)` leaves the other built-in options of a field alone, and an enum
whose values share a tag is refused with it as without it. -/
theorem builtin_options_by_name_packed :
    let s : Setting := ⟨"packed", .bool true, true⟩
    let deprecated : Setting := ⟨"deprecated", .bool true, false⟩
    let given : Field := ⟨.optional, "int32", "f", 1, "", [deprecated]⟩
    let enlarged : Field := { given with options := [s, deprecated] }
    enlarged.isDeprecated = given.isDeprecated ∧ given.isDeprecated = .ok true ∧
      enlarged.default? = given.default? ∧ given.default? = .ok none ∧
      ((Enumeration.build "E" "E" "" [s] [⟨"A", 1, "", []⟩, ⟨"B", 1, "", []⟩]).map
        (·.allowsAlias)).toOption = none := by
  intro s deprecated given enlarged
  have hfield := (builtin_options_by_name s [] [deprecated]).1 given
  have henum := (builtin_options_by_name s [] []).2.1 (by decide) "E" "E" ""
    [⟨"A", 1, "", []⟩, ⟨"B", 1, "", []⟩]
  exact ⟨hfield.1 (by decide), rfl, hfield.2.2 (by decide), rfl,
    (congrArg Except.toOption henum).trans rfl⟩

/-- The custom option `(deprecated)` counts as the built-in one. -/
theorem not_custom_options_ignored :
    ¬∀ (s : Setting) (before after : List Setting), s.custom = true →
      (∀ f : Field,
        let given : Field := { f with options := before ++ after }
        let enlarged : Field := { f with options := before ++ s :: after }
        enlarged.isDeprecated = given.isDeprecated ∧ enlarged.isPacked = given.isPacked ∧
          enlarged.default? = given.default?) ∧
      ∀ name fullName doc values,
        (Enumeration.build name fullName doc (before ++ s :: after) values).map (·.allowsAlias) =
          (Enumeration.build name fullName doc (before ++ after) values).map (·.allowsAlias) := by
  intro h
  have hfield := (h ⟨"deprecated", .bool true, true⟩ [] [] rfl).1
    ⟨.optional, "int32", "f", 1, "", []⟩
  cases hfield.1

end Proto2

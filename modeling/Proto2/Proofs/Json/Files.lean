import Proto2.Proofs.Json.Values
import Proto2.Proofs.Schema.Names
import Proto2.Proofs.Schema.Same

/-!
Files by their JSON form.

A file has the JSON form of the file whose option values are spelled out as aggregates, and files
of the same JSON form are the same once they are spelled out.  So the JSON form of a file tells
everything about it, except whether a constant or an option in an option value was written as such
or as the aggregate that looks like it.
-/

namespace Proto2

/-! ### Pieces of a schema with spelled-out values -/

/-- The field with the values of its options spelled out. -/
def Field.spelledOut (f : Field) : Field :=
  { f with options := f.options.map Setting.spelledOut }

/-- The enum value with the values of its options spelled out. -/
def EnumValue.spelledOut (v : EnumValue) : EnumValue :=
  { v with options := v.options.map Setting.spelledOut }

/-- The enum with the values of its options, and of those of its values, spelled out. -/
def Enumeration.spelledOut (e : Enumeration) : Enumeration :=
  { e with
    options := e.options.map Setting.spelledOut
    values := e.values.map EnumValue.spelledOut }

mutual

/-- The message with the values of all options in it spelled out. -/
def Message.spelledOut : Message → Message
  | ⟨name, fullName, documentation, fields, nestedTypes, extensionRanges, options⟩ =>
    ⟨name, fullName, documentation, fields.map Field.spelledOut,
      TypeDecl.spelledOutTypes nestedTypes, extensionRanges, options.map Setting.spelledOut⟩

/-- The declared type with the values of all options in it spelled out. -/
def TypeDecl.spelledOut : TypeDecl → TypeDecl
  | .message m => .message m.spelledOut
  | .enumeration e => .enumeration e.spelledOut

/-- The declared types, each spelled out. -/
def TypeDecl.spelledOutTypes : List TypeDecl → List TypeDecl
  | [] => []
  | t :: ts => t.spelledOut :: TypeDecl.spelledOutTypes ts

end

/-- The extension with the values of the options of its fields spelled out. -/
def Extend.spelledOut (e : Extend) : Extend :=
  { e with fields := e.fields.map Field.spelledOut }

/-- The procedure with the values of its options spelled out. -/
def Rpc.spelledOut (r : Rpc) : Rpc :=
  { r with options := r.options.map Setting.spelledOut }

/-- The service with the values of its options, and of those of its procedures, spelled out. -/
def Service.spelledOut (s : Service) : Service :=
  { s with
    options := s.options.map Setting.spelledOut
    rpcs := s.rpcs.map Rpc.spelledOut }

/-- The file with the values of all options in it spelled out. -/
def SchemaFile.spelledOut (f : SchemaFile) : SchemaFile :=
  { f with
    types := TypeDecl.spelledOutTypes f.types
    services := f.services.map Service.spelledOut
    options := f.options.map Setting.spelledOut
    extensions := f.extensions.map Extend.spelledOut }

/-! ### The JSON form of what is spelled out -/

theorem Json.ofList_map {α : Type} {encode : α → Json} {φ : α → α}
    (h : ∀ a, encode (φ a) = encode a) (as : List α) :
    Json.ofList encode (as.map φ) = Json.ofList encode as := by
  simp [Json.ofList, h]

theorem Setting.toJson_spelledOut (s : Setting) : s.spelledOut.toJson = s.toJson := by
  cases s
  rw [Setting.spelledOut, Setting.toJson, Setting.toJson, Value.toJson_spelledOut]

theorem Field.toJson_spelledOut (f : Field) : f.spelledOut.toJson = f.toJson := by
  rw [toJson, toJson, Field.spelledOut, Json.ofList_map Setting.toJson_spelledOut]

theorem EnumValue.toJson_spelledOut (v : EnumValue) : v.spelledOut.toJson = v.toJson := by
  rw [toJson, toJson, EnumValue.spelledOut, Json.ofList_map Setting.toJson_spelledOut]

theorem Options.find?_spelledOut (ss : List Setting) (name : String) :
    find? (ss.map Setting.spelledOut) name = (find? ss name).map (·.map Setting.spelledOut) := by
  have hfilter : (ss.map Setting.spelledOut).filter (·.name == name) =
      (ss.filter (·.name == name)).map Setting.spelledOut := List.filter_map
  unfold find?
  rw [hfilter]
  generalize ss.filter (·.name == name) = found
  rcases found with _ | ⟨_, _ | _⟩ <;> rfl

theorem Options.isTrue_spelledOut (v : Value) : isTrue v.spelledOut = isTrue v := by
  cases v with
  | setting s => rw [Value.spelledOut_setting]; rfl
  | _ => simp [Value.spelledOut, isTrue]

theorem Enumeration.allowsAlias_spelledOut (e : Enumeration) :
    e.spelledOut.allowsAlias = e.allowsAlias := by
  have haliasing : aliasing (e.options.map Setting.spelledOut) = aliasing e.options := by
    rw [aliasing, aliasing, Options.find?_spelledOut]
    rcases Options.find? e.options "allow_alias" with _ | _ | s
    · rfl
    · rfl
    · exact congrArg Except.ok (Options.isTrue_spelledOut s.value)
  rw [allowsAlias, allowsAlias, Enumeration.spelledOut, haliasing]

theorem Enumeration.toJson_spelledOut (e : Enumeration) : e.spelledOut.toJson = e.toJson := by
  rw [toJson, toJson, allowsAlias_spelledOut, Enumeration.spelledOut,
    Json.ofList_map Setting.toJson_spelledOut, Json.ofList_map EnumValue.toJson_spelledOut]

mutual

theorem Message.toJson_spelledOut : (m : Message) → m.spelledOut.toJson = m.toJson
  | ⟨name, fullName, documentation, fields, nestedTypes, extensionRanges, options⟩ => by
      rw [Message.spelledOut, Message.toJson, Message.toJson,
        Json.ofList_map Field.toJson_spelledOut, Json.ofList_map Setting.toJson_spelledOut,
        TypeDecl.toJsonItems_spelledOut nestedTypes]

theorem TypeDecl.toJson_spelledOut : (t : TypeDecl) → t.spelledOut.toJson = t.toJson
  | .message m => by
      rw [TypeDecl.spelledOut, TypeDecl.toJson, TypeDecl.toJson, Message.toJson_spelledOut m]
  | .enumeration e => by
      rw [TypeDecl.spelledOut, TypeDecl.toJson, TypeDecl.toJson, Enumeration.toJson_spelledOut]

theorem TypeDecl.toJsonItems_spelledOut : (ts : List TypeDecl) →
    TypeDecl.toJsonItems (TypeDecl.spelledOutTypes ts) = TypeDecl.toJsonItems ts
  | [] => rfl
  | t :: ts => by
      rw [TypeDecl.spelledOutTypes, TypeDecl.toJsonItems, TypeDecl.toJsonItems,
        TypeDecl.toJson_spelledOut t, TypeDecl.toJsonItems_spelledOut ts]

end

theorem Extend.toJson_spelledOut (e : Extend) : e.spelledOut.toJson = e.toJson := by
  rw [toJson, toJson, Extend.spelledOut, Json.ofList_map Field.toJson_spelledOut]

theorem Rpc.toJson_spelledOut (r : Rpc) : r.spelledOut.toJson = r.toJson := by
  rw [toJson, toJson, Rpc.spelledOut, Json.ofList_map Setting.toJson_spelledOut]

theorem Service.toJson_spelledOut (s : Service) : s.spelledOut.toJson = s.toJson := by
  rw [toJson, toJson, Service.spelledOut, Json.ofList_map Setting.toJson_spelledOut,
    Json.ofList_map Rpc.toJson_spelledOut]

/-- A file has the JSON form of the file spelled out. -/
theorem SchemaFile.toJson_spelledOut (f : SchemaFile) : f.spelledOut.toJson = f.toJson := by
  rw [toJson, toJson, SchemaFile.spelledOut, Json.ofList_map Setting.toJson_spelledOut,
    Json.ofList_map Service.toJson_spelledOut, Json.ofList_map Extend.toJson_spelledOut,
    TypeDecl.toJsonItems_spelledOut]

/-! ### Pieces of the same JSON form -/

section

variable {t : TruthValues}

theorem Json.sameElements_of_ofList {α : Type} {encode : α → Json} {φ : α → α}
    {r : α → α → Bool} {as bs : List α}
    (h : (Json.ofList encode as).same t (Json.ofList encode bs) = true)
    (each : ∀ a b, (encode a).same t (encode b) = true → r (φ a) (φ b) = true) :
    sameElements r (as.map φ) (bs.map φ) = true := by
  rw [Json.ofList, Json.ofList, Json.same_array, List.forall₂_map_left_iff,
    List.forall₂_map_right_iff] at h
  rw [sameElements_iff, List.forall₂_map_left_iff, List.forall₂_map_right_iff]
  exact h.imp each

theorem Json.eq_of_ofList {α : Type} {encode : α → Json} {as bs : List α}
    (h : (Json.ofList encode as).same t (Json.ofList encode bs) = true)
    (each : ∀ a b, (encode a).same t (encode b) = true → a = b) : as = bs := by
  rw [Json.ofList, Json.ofList, Json.same_array, List.forall₂_map_left_iff,
    List.forall₂_map_right_iff] at h
  rw [← List.forall₂_eq_eq_eq]
  exact h.imp each

theorem Json.eq_of_ofList_string {as bs : List String}
    (h : (Json.ofList .string as).same t (Json.ofList .string bs) = true) : as = bs :=
  Json.eq_of_ofList h fun _ _ => Json.same_string_string.mp

theorem Setting.same_of_toJson {s s' : Setting} (h : s.toJson.same t s'.toJson = true) :
    s.spelledOut.same .ignored s'.spelledOut = true := by
  cases s
  cases s'
  rw [Setting.toJson, Setting.toJson] at h
  have hmembers := Json.forall₂_of_same h rfl (by simp)
  simp only [List.forall₂_cons, Json.same_string_string, Json.same_bool_bool] at hmembers
  obtain ⟨hname, hvalue, hcustom, -⟩ := hmembers
  simp [Setting.same_eq, Setting.spelledOut, hname, hcustom, Value.same_spelledOut_of_toJson hvalue]

theorem Setting.allSame_of_toJson {ss ss' : List Setting}
    (h : (Json.ofList Setting.toJson ss).same t (Json.ofList Setting.toJson ss') = true) :
    Setting.allSame .ignored (ss.map Setting.spelledOut) (ss'.map Setting.spelledOut) = true :=
  Json.sameElements_of_ofList h fun _ _ => Setting.same_of_toJson

theorem Field.same_of_toJson {f g : Field} (h : f.toJson.same t g.toJson = true) :
    f.spelledOut.same .ignored g.spelledOut = true := by
  have hmembers := Json.forall₂_of_same h rfl (by simp)
  simp only [List.forall₂_cons, Json.same_string_string, Json.same_int_int] at hmembers
  obtain ⟨hlabel, htype, hname, htag, hdoc, hoptions, -⟩ := hmembers
  have hlabel' : f.label = g.label := by
    rw [← Option.some_inj, ← Label.ofText?_text, ← Label.ofText?_text, hlabel]
  simp [Field.same, Field.spelledOut, hlabel', htype, hname, htag, hdoc,
    Setting.allSame_of_toJson hoptions]

theorem EnumValue.same_of_toJson {v w : EnumValue} (h : v.toJson.same t w.toJson = true) :
    v.spelledOut.same .ignored w.spelledOut = true := by
  have hmembers := Json.forall₂_of_same h rfl (by simp)
  simp only [List.forall₂_cons, Json.same_string_string, Json.same_int_int] at hmembers
  obtain ⟨hname, htag, hdoc, hoptions, -⟩ := hmembers
  simp [EnumValue.same, EnumValue.spelledOut, hname, htag, hdoc, Setting.allSame_of_toJson hoptions]

theorem Enumeration.same_of_toJson {e f : Enumeration} (h : e.toJson.same t f.toJson = true) :
    e.spelledOut.same .ignored f.spelledOut = true := by
  have hmembers := Json.forall₂_of_same h rfl (by simp)
  simp only [List.forall₂_cons, Json.same_string_string] at hmembers
  obtain ⟨hname, hfullName, hdoc, hoptions, hvalues, -⟩ := hmembers
  simp [Enumeration.same, Enumeration.spelledOut, hname, hfullName, hdoc,
    Setting.allSame_of_toJson hoptions,
    Json.sameElements_of_ofList hvalues fun _ _ => EnumValue.same_of_toJson]

theorem ExtensionRange.eq_of_toJson {r q : ExtensionRange}
    (h : r.toJson.same t q.toJson = true) : r = q := by
  have hmembers := Json.forall₂_of_same h rfl (by simp)
  simp only [List.forall₂_cons, Json.same_string_string, Json.same_int_int] at hmembers
  obtain ⟨hdoc, hstart, hstop, -⟩ := hmembers
  cases r
  cases q
  simp_all

theorem Rpc.same_of_toJson {r q : Rpc} (h : r.toJson.same t q.toJson = true) :
    r.spelledOut.same .ignored q.spelledOut = true := by
  have hmembers := Json.forall₂_of_same h rfl (by simp)
  simp only [List.forall₂_cons, Json.same_string_string] at hmembers
  obtain ⟨hname, hrequest, hresponse, hdoc, hoptions, -⟩ := hmembers
  simp [Rpc.same, Rpc.spelledOut, hname, hrequest, hresponse, hdoc,
    Setting.allSame_of_toJson hoptions]

theorem Service.same_of_toJson {s u : Service} (h : s.toJson.same t u.toJson = true) :
    s.spelledOut.same .ignored u.spelledOut = true := by
  have hmembers := Json.forall₂_of_same h rfl (by simp)
  simp only [List.forall₂_cons, Json.same_string_string] at hmembers
  obtain ⟨hname, hfullName, hdoc, hoptions, hrpcs, -⟩ := hmembers
  simp [Service.same, Service.spelledOut, hname, hfullName, hdoc,
    Setting.allSame_of_toJson hoptions,
    Json.sameElements_of_ofList hrpcs fun _ _ => Rpc.same_of_toJson]

theorem Extend.same_of_toJson {e f : Extend} (h : e.toJson.same t f.toJson = true) :
    e.spelledOut.same .ignored f.spelledOut = true := by
  have hmembers := Json.forall₂_of_same h rfl (by simp)
  simp only [List.forall₂_cons, Json.same_string_string] at hmembers
  obtain ⟨hname, hfullName, hdoc, hfields, -⟩ := hmembers
  simp [Extend.same, Extend.spelledOut, hname, hfullName, hdoc,
    Json.sameElements_of_ofList hfields fun _ _ => Field.same_of_toJson]

mutual

theorem Message.same_of_toJson : (m n : Message) → m.toJson.same t n.toJson = true →
    m.spelledOut.same .ignored n.spelledOut = true
  | ⟨_, _, _, _, nestedTypes, _, _⟩, ⟨_, _, _, _, nestedTypes', _, _⟩, h => by
      rw [Message.toJson, Message.toJson] at h
      have hmembers := Json.forall₂_of_same h rfl (by simp)
      simp only [List.forall₂_cons, Json.same_string_string] at hmembers
      obtain ⟨hname, hfullName, hdoc, hfields, htypes, hranges, hoptions, -⟩ := hmembers
      simp [Message.spelledOut, Message.same, hname, hfullName, hdoc,
        Json.sameElements_of_ofList hfields fun _ _ => Field.same_of_toJson,
        TypeDecl.allSame_of_toJson nestedTypes nestedTypes' htypes,
        Json.eq_of_ofList hranges fun _ _ => ExtensionRange.eq_of_toJson,
        Setting.allSame_of_toJson hoptions]

theorem TypeDecl.same_of_toJson : (d d' : TypeDecl) → d.toJson.same t d'.toJson = true →
    d.spelledOut.same .ignored d'.spelledOut = true
  | .message m, .message n, h => by
      rw [TypeDecl.spelledOut, TypeDecl.spelledOut, TypeDecl.same]
      exact Message.same_of_toJson m n h
  | .enumeration e, .enumeration f, h => by
      rw [TypeDecl.spelledOut, TypeDecl.spelledOut, TypeDecl.same]
      exact Enumeration.same_of_toJson h
  | .message ⟨_, _, _, _, _, _, _⟩, .enumeration e, h => by
      rw [TypeDecl.toJson, TypeDecl.toJson, Message.toJson, Enumeration.toJson] at h
      cases (Json.same_object.mp h).1
  | .enumeration e, .message ⟨_, _, _, _, _, _, _⟩, h => by
      rw [TypeDecl.toJson, TypeDecl.toJson, Message.toJson, Enumeration.toJson] at h
      cases (Json.same_object.mp h).1

theorem TypeDecl.allSame_of_toJson : (ds ds' : List TypeDecl) →
    (Json.array (TypeDecl.toJsonItems ds)).same t (.array (TypeDecl.toJsonItems ds')) = true →
    TypeDecl.allSame .ignored (TypeDecl.spelledOutTypes ds) (TypeDecl.spelledOutTypes ds') = true
  | [], [], _ => rfl
  | [], _ :: _, h => by cases Json.same_array.mp h
  | _ :: _, [], h => by cases Json.same_array.mp h
  | d :: ds, d' :: ds', h => by
      rw [TypeDecl.toJsonItems, TypeDecl.toJsonItems, Json.same_array, List.forall₂_cons,
        ← Json.same_array] at h
      rw [TypeDecl.spelledOutTypes, TypeDecl.spelledOutTypes, TypeDecl.allSame, Bool.and_eq_true]
      exact ⟨TypeDecl.same_of_toJson d d' h.1, TypeDecl.allSame_of_toJson ds ds' h.2⟩

end

/-- Files of the same JSON form are the same once they are spelled out. -/
theorem SchemaFile.same_of_toJson {f g : SchemaFile} (h : f.toJson.same t g.toJson = true) :
    f.spelledOut.same .ignored g.spelledOut = true := by
  have hmembers := Json.forall₂_of_same h rfl (by simp)
  simp only [List.forall₂_cons, Json.same_string_string] at hmembers
  obtain ⟨hname, hpackage, himports, hpublic, htypes, hservices, hoptions, hextensions, -⟩ :=
    hmembers
  have hpackage' : f.package = g.package := by
    cases hf : f.package <;> cases hg : g.package <;>
      simp_all [Json.same, Json.sameQuantity, Json.quantity?]
  simp [SchemaFile.same, SchemaFile.spelledOut, hname, hpackage', Json.eq_of_ofList_string himports,
    Json.eq_of_ofList_string hpublic, TypeDecl.allSame_of_toJson _ _ htypes,
    Setting.allSame_of_toJson hoptions,
    Json.sameElements_of_ofList hservices fun _ _ => Service.same_of_toJson,
    Json.sameElements_of_ofList hextensions fun _ _ => Extend.same_of_toJson]

end

/-! ### Telling files apart -/

/-- A file has the JSON form of the file spelled out, and files that differ once they are spelled
out have different JSON forms.  Values of different kinds have different JSON forms, unless one of
them is an aggregate with the keys that the members of the other one have. -/
theorem json_forms_told_apart :
    (∀ f : SchemaFile, f.spelledOut.toJson = f.toJson) ∧
      (∀ (t : TruthValues) (f g : SchemaFile),
        Node.equal (.file f.spelledOut) (.file g.spelledOut) = false →
          f.toJson.same t g.toJson = false) ∧
      ∀ v w : Value, v.kind ≠ w.kind → ¬ v.LooksLike w → ¬ w.LooksLike v →
        v.toJson.same .apart w.toJson = false := by
  refine ⟨SchemaFile.toJson_spelledOut, fun t f g hfiles => ?_, fun v w hkinds hvw hwv => ?_⟩
  · rw [Bool.eq_false_iff]
    intro h
    have hequal : Node.equal (.file f.spelledOut) (.file g.spelledOut) = true :=
      SchemaFile.same_of_toJson h
    rw [hequal] at hfiles
    cases hfiles
  · rw [Bool.eq_false_iff]
    intro h
    rcases Value.kind_eq_or_looksLike h with hkind | hlooks | hlooks
    · exact hkinds hkind
    · exact hvw hlooks
    · exact hwv hlooks

theorem json_forms_told_apart_number_text :
    (∃ f g, SchemaFile.parse "a.proto" "option x = 1;" = .ok f ∧
      SchemaFile.parse "a.proto" "option x = \"1\";" = .ok g ∧
      Node.equal (.file f.spelledOut) (.file g.spelledOut) = false ∧
      f.toJson.same .asNumbers g.toJson = false) ∧
    (Value.constant "FOO").toJson.same .apart
      (Value.aggregate [("name", .string "FOO")]).toJson = false := by
  obtain ⟨hform, hfiles, hkinds⟩ := json_forms_told_apart
  constructor
  · obtain ⟨f, hf, hview⟩ := exists_parse_of_map
      (fun f => (SchemaFile.parse "a.proto" "option x = \"1\";").toOption.map fun g =>
        Node.equal (.file f.spelledOut) (.file g.spelledOut))
      (by decide +kernel : (SchemaFile.parse "a.proto" "option x = 1;").toOption.map _ =
        some (some false))
    obtain ⟨g, hg, hunequal⟩ := exists_parse_of_map _ hview
    exact ⟨f, g, hf, hg, hunequal, hfiles .asNumbers f g hunequal⟩
  · refine hkinds _ _ (by decide) (fun hlooks => by cases hlooks) fun hlooks => ?_
    generalize hv : Value.aggregate [("name", .string "FOO")] = v at hlooks
    cases hlooks with
    | constant => simp at hv

/-- A constant has the JSON form of an aggregate with one entry. -/
theorem constant_not_told_apart :
    ∃ f g, SchemaFile.parse "a.proto" "option x = FOO;" = .ok f ∧
      SchemaFile.parse "a.proto" "option x = \x7benum: \"FOO\"\x7d;" = .ok g ∧
      Node.equal (.file f) (.file g) = false ∧ ∀ t, f.toJson.same t g.toJson = true := by
  obtain ⟨f, hf, hview⟩ := exists_parse_of_map
    (fun f =>
      (SchemaFile.parse "a.proto" "option x = \x7benum: \"FOO\"\x7d;").toOption.map fun g =>
        (Node.equal (.file f) (.file g), f.toJson.same .apart g.toJson,
          f.toJson.same .asNumbers g.toJson))
    (by decide +kernel : (SchemaFile.parse "a.proto" "option x = FOO;").toOption.map _ =
      some (some (false, true, true)))
  obtain ⟨g, hg, hview⟩ := exists_parse_of_map _ hview
  simp only [Prod.mk.injEq] at hview
  refine ⟨f, g, hf, hg, hview.1, fun t => ?_⟩
  cases t with
  | apart => exact hview.2.1
  | asNumbers => exact hview.2.2

end Proto2

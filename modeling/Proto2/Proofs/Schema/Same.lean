import Proto2.Printer.File
import Proto2.Proofs.Setting.Same

/-!
The comparisons of pieces of a schema are equivalences.

They compare a piece part by part, and its parts are texts, numbers, documentation and settings.  So
they are equivalences where the values of the settings are the same as themselves, and one of them
is the finer one.
-/

namespace Proto2

/-- The values of the settings in the piece of a schema are the same as themselves. -/
def Node.Comparable (n : Node) : Prop :=
  ∀ s ∈ n.settings, s.value.Comparable

/-! ### Declarations with settings -/

theorem Setting.finerAt_allSame {settings : List Setting}
    (h : ∀ s ∈ settings, s.value.Comparable) :
    FinerAt (Setting.allSame .kept) (Setting.allSame .ignored) settings :=
  .elements fun s hs => Setting.finerAt (h s hs).finerAt

theorem Field.finerAt {f : Field} (h : ∀ s ∈ f.options, s.value.Comparable) :
    FinerAt (Field.same .kept) (Field.same .ignored) f :=
  (((((FinerAt.eq Field.label f).and (.eq Field.type f)).and (.eq Field.name f)).and
    (.eq Field.tag f)).and (.eq Field.documentation f)).and
    ((Setting.finerAt_allSame h).on Field.options)

theorem EnumValue.finerAt {v : EnumValue} (h : ∀ s ∈ v.options, s.value.Comparable) :
    FinerAt (EnumValue.same .kept) (EnumValue.same .ignored) v :=
  (((FinerAt.eq EnumValue.name v).and (.eq EnumValue.tag v)).and
    (.eq EnumValue.documentation v)).and ((Setting.finerAt_allSame h).on EnumValue.options)

theorem Rpc.finerAt {r : Rpc} (h : ∀ s ∈ r.options, s.value.Comparable) :
    FinerAt (Rpc.same .kept) (Rpc.same .ignored) r :=
  ((((FinerAt.eq Rpc.name r).and (.eq Rpc.requestType r)).and (.eq Rpc.responseType r)).and
    (.eq Rpc.documentation r)).and ((Setting.finerAt_allSame h).on Rpc.options)

/-! ### Declarations with other declarations in them -/

theorem Enumeration.finerAt {e : Enumeration} (h : ∀ s ∈ e.settings, s.value.Comparable) :
    FinerAt (Enumeration.same .kept) (Enumeration.same .ignored) e := by
  obtain ⟨hoptions, hvalues⟩ := List.forall_mem_append.mp h
  have hparts : FinerAt (sameElements (EnumValue.same .kept))
      (sameElements (EnumValue.same .ignored)) e.values :=
    .elements fun v hv => EnumValue.finerAt (List.forall_mem_flatMap.mp hvalues v hv)
  exact ((((FinerAt.eq Enumeration.name e).and (.eq Enumeration.fullName e)).and
    (.eq Enumeration.documentation e)).and
    ((Setting.finerAt_allSame hoptions).on Enumeration.options)).and (hparts.on Enumeration.values)

theorem Extend.finerAt {e : Extend} (h : ∀ s ∈ e.settings, s.value.Comparable) :
    FinerAt (Extend.same .kept) (Extend.same .ignored) e := by
  have hparts : FinerAt (sameElements (Field.same .kept))
      (sameElements (Field.same .ignored)) e.fields :=
    .elements fun f hf => Field.finerAt (List.forall_mem_flatMap.mp h f hf)
  exact (((FinerAt.eq Extend.name e).and (.eq Extend.fullName e)).and
    (.eq Extend.documentation e)).and (hparts.on Extend.fields)

theorem Service.finerAt {s : Service} (h : ∀ o ∈ s.settings, o.value.Comparable) :
    FinerAt (Service.same .kept) (Service.same .ignored) s := by
  obtain ⟨hoptions, hrpcs⟩ := List.forall_mem_append.mp h
  have hparts : FinerAt (sameElements (Rpc.same .kept)) (sameElements (Rpc.same .ignored)) s.rpcs :=
    .elements fun r hr => Rpc.finerAt (List.forall_mem_flatMap.mp hrpcs r hr)
  exact ((((FinerAt.eq Service.name s).and (.eq Service.fullName s)).and
    (.eq Service.documentation s)).and
    ((Setting.finerAt_allSame hoptions).on Service.options)).and (hparts.on Service.rpcs)

/-! ### Declared types -/

section

variable {order : EntryOrder}

theorem Message.same_eq (order : EntryOrder) : Message.same order =
    fun m n => m.name = n.name && m.fullName = n.fullName && m.documentation = n.documentation &&
      sameElements (Field.same order) m.fields n.fields &&
      TypeDecl.allSame order m.nestedTypes n.nestedTypes &&
      m.extensionRanges = n.extensionRanges && Setting.allSame order m.options n.options := by
  funext m n
  cases m
  rw [Message.same]

theorem TypeDecl.same_message (m : Message) (t : TypeDecl) :
    TypeDecl.same order (.message m) t = true ↔ ∃ n, t = .message n ∧ m.same order n = true := by
  cases t <;> simp [TypeDecl.same]

theorem TypeDecl.same_enumeration (e : Enumeration) (t : TypeDecl) :
    TypeDecl.same order (.enumeration e) t = true ↔
      ∃ f, t = .enumeration f ∧ e.same order f = true := by
  cases t <;> simp [TypeDecl.same]

theorem TypeDecl.allSame_eq (order : EntryOrder) :
    TypeDecl.allSame order = sameElements (TypeDecl.same order) := by
  funext ts
  induction ts with
  | nil => funext us; cases us <;> simp [TypeDecl.allSame, sameElements]
  | cons t ts ih => funext us; cases us <;> simp [TypeDecl.allSame, sameElements, ih]

end

theorem TypeDecl.finerAt_allSame {types : List TypeDecl}
    (h : ∀ t ∈ types, FinerAt (TypeDecl.same .kept) (TypeDecl.same .ignored) t) :
    FinerAt (TypeDecl.allSame .kept) (TypeDecl.allSame .ignored) types := by
  rw [TypeDecl.allSame_eq, TypeDecl.allSame_eq]
  exact .elements h

/-- The comparisons of messages, given what holds of the types declared in the message. -/
theorem Message.finerAt_of_types {m : Message} (h : ∀ s ∈ m.settings, s.value.Comparable)
    (types : ∀ t ∈ m.nestedTypes, FinerAt (TypeDecl.same .kept) (TypeDecl.same .ignored) t) :
    FinerAt (Message.same .kept) (Message.same .ignored) m := by
  rw [Message.settings_eq, List.forall_mem_append, List.forall_mem_append] at h
  obtain ⟨⟨hoptions, hfields⟩, -⟩ := h
  have hparts : FinerAt (sameElements (Field.same .kept))
      (sameElements (Field.same .ignored)) m.fields :=
    .elements fun f hf => Field.finerAt (List.forall_mem_flatMap.mp hfields f hf)
  rw [Message.same_eq, Message.same_eq]
  exact ((((((FinerAt.eq Message.name m).and (.eq Message.fullName m)).and
    (.eq Message.documentation m)).and (hparts.on Message.fields)).and
    ((TypeDecl.finerAt_allSame types).on Message.nestedTypes)).and
    (.eq Message.extensionRanges m)).and ((Setting.finerAt_allSame hoptions).on Message.options)

mutual

theorem Message.finerAt : (m : Message) → (∀ s ∈ m.settings, s.value.Comparable) →
    FinerAt (Message.same .kept) (Message.same .ignored) m
  | ⟨name, fullName, doc, fields, nestedTypes, ranges, options⟩, h => by
      refine Message.finerAt_of_types h (TypeDecl.forall_finerAt nestedTypes fun s hs => h s ?_)
      rw [Message.settings]
      exact List.mem_append_right _ hs

theorem TypeDecl.finerAt : (t : TypeDecl) → (∀ s ∈ t.settings, s.value.Comparable) →
    FinerAt (TypeDecl.same .kept) (TypeDecl.same .ignored) t
  | .message m, h => by
      rw [TypeDecl.settings] at h
      exact .of_form TypeDecl.same_message TypeDecl.same_message (Message.finerAt m h)
  | .enumeration e, h => by
      rw [TypeDecl.settings] at h
      exact .of_form TypeDecl.same_enumeration TypeDecl.same_enumeration (Enumeration.finerAt h)

theorem TypeDecl.forall_finerAt : (ts : List TypeDecl) →
    (∀ s ∈ TypeDecl.settingsOf ts, s.value.Comparable) →
    ∀ t ∈ ts, FinerAt (TypeDecl.same .kept) (TypeDecl.same .ignored) t
  | [], _ => fun _ h => nomatch h
  | t :: ts, h => by
      rw [TypeDecl.settingsOf, List.forall_mem_append] at h
      exact List.forall_mem_cons.mpr ⟨TypeDecl.finerAt t h.1, TypeDecl.forall_finerAt ts h.2⟩

end

theorem SchemaFile.finerAt {f : SchemaFile} (h : ∀ s ∈ f.settings, s.value.Comparable) :
    FinerAt (SchemaFile.same .kept) (SchemaFile.same .ignored) f := by
  rw [SchemaFile.settings, List.forall_mem_append, List.forall_mem_append,
    List.forall_mem_append] at h
  obtain ⟨⟨⟨hoptions, htypes⟩, hextensions⟩, hservices⟩ := h
  have hservices' : FinerAt (sameElements (Service.same .kept))
      (sameElements (Service.same .ignored)) f.services :=
    .elements fun s hs => Service.finerAt (List.forall_mem_flatMap.mp hservices s hs)
  have hextensions' : FinerAt (sameElements (Extend.same .kept))
      (sameElements (Extend.same .ignored)) f.extensions :=
    .elements fun e he => Extend.finerAt (List.forall_mem_flatMap.mp hextensions e he)
  exact (((((((FinerAt.eq SchemaFile.fileName f).and (.eq SchemaFile.package f)).and
    (.eq SchemaFile.imports f)).and (.eq SchemaFile.publicImports f)).and
    ((TypeDecl.finerAt_allSame (TypeDecl.forall_finerAt f.types htypes)).on SchemaFile.types)).and
    (hservices'.on SchemaFile.services)).and
    ((Setting.finerAt_allSame hoptions).on SchemaFile.options)).and
    (hextensions'.on SchemaFile.extensions)

/-! ### Pieces of a schema -/

namespace Node

/-- What is the same as a piece of a schema is of its kind. -/
theorem same_iff (order : EntryOrder) (m n : Node) : same order m n = true ↔
    match m with
    | file f => ∃ g, n = file g ∧ f.same order g = true
    | message m => ∃ m', n = message m' ∧ m.same order m' = true
    | enumeration e => ∃ f, n = enumeration f ∧ e.same order f = true
    | enumValue v => ∃ w, n = enumValue w ∧ v.same order w = true
    | field f => ∃ g, n = field g ∧ f.same order g = true
    | extensionRange r => ∃ q, n = extensionRange q ∧ decide (r = q) = true
    | extension e => ∃ f, n = extension f ∧ e.same order f = true
    | service s => ∃ t, n = service t ∧ s.same order t = true
    | rpc r => ∃ q, n = rpc q ∧ r.same order q = true
    | setting s => ∃ t, n = setting t ∧ s.same order t = true := by
  cases m <;> cases n <;> simp [same]

/-- On pieces of a schema whose values are the same as themselves the comparisons are
equivalences, and the one that keeps the order of entries is the finer one. -/
theorem Comparable.finerAt {n : Node} (h : n.Comparable) : FinerAt (same .kept) equal n := by
  show FinerAt (same .kept) (same .ignored) n
  have form (order : EntryOrder) {α : Type} (mk : α → Node) (a : α) := same_iff order (mk a)
  cases n with
  | file f => exact .of_form (form _ file) (form _ file) (SchemaFile.finerAt h)
  | message m => exact .of_form (form _ message) (form _ message) (Message.finerAt m h)
  | enumeration e =>
      exact .of_form (form _ enumeration) (form _ enumeration) (Enumeration.finerAt h)
  | enumValue v => exact .of_form (form _ enumValue) (form _ enumValue) (EnumValue.finerAt h)
  | field f => exact .of_form (form _ field) (form _ field) (Field.finerAt h)
  | extensionRange r =>
      exact .of_form (form _ extensionRange) (form _ extensionRange) (.eq id r)
  | extension e => exact .of_form (form _ extension) (form _ extension) (Extend.finerAt h)
  | service s => exact .of_form (form _ service) (form _ service) (Service.finerAt h)
  | rpc r => exact .of_form (form _ rpc) (form _ rpc) (Rpc.finerAt h)
  | setting s =>
      have hvalue : s.value.Comparable := h s (List.mem_singleton.mpr rfl)
      exact .of_form (form _ setting) (form _ setting) (Setting.finerAt hvalue.finerAt)

end Node

end Proto2

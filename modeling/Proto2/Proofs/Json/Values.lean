import Mathlib.Data.List.Perm.Subperm
import Proto2.Json.Schema
import Proto2.Proofs.Setting.Same

/-!
Values by their JSON form.

A constant and an option within an option are JSON objects with names of their own choosing, and an
aggregate is a JSON object with the names that it was given.  So an aggregate may have the JSON form
of a constant or of an option, and these are the only values of different kinds that one cannot tell
apart by their JSON form.
-/

namespace Proto2

/-! ### Comparing JSON values -/

/-- Whether the truth values count as numbers, true as one and false as zero. -/
inductive TruthValues where
  | apart
  | asNumbers
deriving DecidableEq, Repr

namespace Json

variable {t : TruthValues}

/-- The quantity that a JSON value denotes, if it is a number. -/
def quantity? (t : TruthValues) : Json → Option Quantity
  | .bool b =>
    match t with
    | .apart => none
    | .asNumbers => some (.ofInt (if b then 1 else 0))
  | .int n => some (.ofInt n)
  | .float x => Quantity.ofBinary64? x
  | _ => none

/-- Whether two JSON values are numbers that denote the same quantity. -/
def sameQuantity (t : TruthValues) (j k : Json) : Bool :=
  match j.quantity? t, k.quantity? t with
  | some a, some b => a = b
  | _, _ => false

mutual

/-- Whether two JSON values are the same.  The order of the members of an object is ignored. -/
def same (t : TruthValues) : Json → Json → Bool
  | .null, .null => true
  | .string s, .string s' => s = s'
  | .bool b, .bool c => b = c
  | .array items, .array items' => allSame t items items'
  | .object members, .object members' =>
    members.length = members'.length && sameUnder t members members'
  | j, k => j.sameQuantity t k

/-- Whether two lists have the same JSON values in the same order. -/
def allSame (t : TruthValues) : List Json → List Json → Bool
  | [], [] => true
  | j :: js, k :: ks => j.same t k && allSame t js ks
  | _, _ => false

/-- Whether every member has its name in other members, with the same value there. -/
def sameUnder (t : TruthValues) : List (String × Json) → List (String × Json) → Bool
  | [], _ => true
  | (key, j) :: members, members' =>
    (match Entries.get? key members' with
      | some k => j.same t k
      | none => false) && sameUnder t members members'

end

/-- The comparison of two values, by their forms. -/
theorem same_eq (j k : Json) : same t j k =
    match j, k with
    | .null, .null => true
    | .string s, .string s' => decide (s = s')
    | .bool b, .bool c => decide (b = c)
    | .array items, .array items' => allSame t items items'
    | .object members, .object members' =>
      decide (members.length = members'.length) && sameUnder t members members'
    | j, k => j.sameQuantity t k := by
  cases j <;> cases k <;> rfl

theorem same_string {s : String} {k : Json} : same t (.string s) k = true ↔ k = .string s := by
  cases k <;> simp [same_eq, sameQuantity, quantity?, eq_comm]

theorem same_string_right {j : Json} {s : String} :
    same t j (.string s) = true ↔ j = .string s := by
  cases j <;> simp [same_eq, sameQuantity, quantity?]

theorem same_int (n : Int) (k : Json) : same t (.int n) k = sameQuantity t (.int n) k := by
  cases k <;> simp [same_eq]

theorem same_float (x : Binary64) (k : Json) :
    same t (.float x) k = sameQuantity t (.float x) k := by
  cases k <;> simp [same_eq]

/-- A truth value is the same as itself, and what else is the same is a number. -/
theorem eq_or_sameQuantity_of_same_bool {b : Bool} {k : Json} (h : same t (.bool b) k = true) :
    k = .bool b ∨ sameQuantity t (.bool b) k = true := by
  cases k <;> simp_all [same_eq]

theorem same_array {items items' : List Json} : same t (.array items) (.array items') = true ↔
    List.Forall₂ (fun j k => j.same t k = true) items items' := by
  rw [same_eq]
  induction items generalizing items' with
  | nil => cases items' <;> simp [allSame]
  | cons j items ih => cases items' <;> simp [allSame, ih]

theorem sameUnder_iff {members members' : List (String × Json)} :
    sameUnder t members members' = true ↔
      ∀ m ∈ members, ∃ k, Entries.get? m.1 members' = some k ∧ m.2.same t k = true := by
  induction members with
  | nil => simp [sameUnder]
  | cons m members ih =>
      rw [sameUnder, Bool.and_eq_true, ih, List.forall_mem_cons]
      refine and_congr_left fun _ => ?_
      cases Entries.get? m.1 members' <;> simp

theorem same_object {members members' : List (String × Json)} :
    same t (.object members) (.object members') = true ↔
      members.length = members'.length ∧
        ∀ m ∈ members, ∃ k, Entries.get? m.1 members' = some k ∧ m.2.same t k = true := by
  rw [same_eq, Bool.and_eq_true, decide_eq_true_eq, sameUnder_iff]

theorem same_string_string {s s' : String} :
    same t (.string s) (.string s') = true ↔ s = s' := by
  rw [same_string, string.injEq, eq_comm]

theorem same_int_int {m n : Int} : same t (.int m) (.int n) = true ↔ m = n := by
  have hone : (Magnitude.unitsPerOne : Int) ≠ 0 := by decide +kernel
  rw [same_int, sameQuantity, quantity?, quantity?, decide_eq_true_eq, Quantity.ofInt,
    Quantity.ofInt, Quantity.finite.injEq]
  exact Int.mul_eq_mul_right_iff hone

theorem same_bool_bool {b c : Bool} : same t (.bool b) (.bool c) = true ↔ b = c := by
  simp [same_eq]

/-- Objects with the same names in the same order have the same values under them. -/
theorem forall₂_of_same {members members' : List (String × Json)}
    (h : same t (.object members) (.object members') = true)
    (keys : members.map Prod.fst = members'.map Prod.fst)
    (distinct : (members.map Prod.fst).Nodup) :
    List.Forall₂ (fun m m' => m.2.same t m'.2 = true) members members' := by
  obtain ⟨-, hfound⟩ := same_object.mp h
  have hkeys : List.Forall₂ (fun m m' => m.1 = m'.1) members members' := by
    rwa [← List.forall₂_eq_eq_eq, List.forall₂_map_left_iff, List.forall₂_map_right_iff] at keys
  refine forall₂_of_mem hkeys fun m hm m' hm' hkey => ?_
  obtain ⟨k, hget, hsame⟩ := hfound m hm
  rw [hkey, Entries.get?_of_mem (keys ▸ distinct) hm', Option.some_inj] at hget
  rwa [hget]

end Json

/-! ### Values without constants and options -/

/-- There is no constant and no option in the value. -/
inductive Value.IsSpelledOut : Value → Prop
  | string (text : String) : IsSpelledOut (.string text)
  | bool (b : Bool) : IsSpelledOut (.bool b)
  | int (n : Int) : IsSpelledOut (.int n)
  | float (x : Binary64) : IsSpelledOut (.float x)
  | list {items : List Value} (spelledOut : ∀ v ∈ items, IsSpelledOut v) :
      IsSpelledOut (.list items)
  | aggregate {entries : List (String × Value)} (spelledOut : ∀ e ∈ entries, IsSpelledOut e.2) :
      IsSpelledOut (.aggregate entries)

mutual

/-- The value with every constant and every option in it spelled out as the aggregate that has the
same JSON form. -/
def Value.spelledOut : Value → Value
  | .constant name => .aggregate [("enum", .string name)]
  | .setting ⟨name, value, custom⟩ =>
    .aggregate [("name", .string name), ("value", value.spelledOut), ("custom", .bool custom)]
  | .list items => .list (Value.spelledOutItems items)
  | .aggregate entries => .aggregate (Value.spelledOutEntries entries)
  | .string s => .string s
  | .bool b => .bool b
  | .int n => .int n
  | .float x => .float x

/-- The items, each spelled out. -/
def Value.spelledOutItems : List Value → List Value
  | [] => []
  | value :: rest => value.spelledOut :: Value.spelledOutItems rest

/-- The entries, the value of each spelled out. -/
def Value.spelledOutEntries : List (String × Value) → List (String × Value)
  | [] => []
  | (key, value) :: rest => (key, value.spelledOut) :: Value.spelledOutEntries rest

end

/-- The setting with its value spelled out. -/
def Setting.spelledOut (s : Setting) : Setting :=
  { s with value := s.value.spelledOut }

/-- The entries of the aggregate that has the JSON form of the setting. -/
def Setting.members (s : Setting) : List (String × Value) :=
  [("name", .string s.name), ("value", s.value.spelledOut), ("custom", .bool s.custom)]

theorem Setting.keys_members (s : Setting) :
    s.members.map Prod.fst = ["name", "value", "custom"] := rfl

namespace Value

variable {t : TruthValues} {v w : Value}

theorem itemsToJson_eq (items : List Value) : itemsToJson items = items.map toJson := by
  induction items with
  | nil => rfl
  | cons v items ih => rw [itemsToJson, ih, List.map_cons]

theorem entriesToJson_eq (entries : List (String × Value)) :
    entriesToJson entries = entries.map (Prod.map id toJson) := by
  induction entries with
  | nil => rfl
  | cons e entries ih => rw [entriesToJson, ih, List.map_cons, Prod.map, id]

theorem spelledOut_constant (name : String) :
    (Value.constant name).spelledOut = .aggregate [("enum", .string name)] := by
  rw [spelledOut]

theorem spelledOut_setting (s : Setting) : (Value.setting s).spelledOut = .aggregate s.members := by
  cases s
  rw [spelledOut, Setting.members]

theorem toJson_eq_string {s : String} : v.toJson = .string s ↔ v = .string s := by
  cases v with
  | setting s => cases s; simp [toJson, Setting.toJson]
  | _ => simp [toJson]

theorem get?_entriesToJson (key : String) (entries : List (String × Value)) :
    Entries.get? key (entriesToJson entries) = (Entries.get? key entries).map toJson := by
  induction entries with
  | nil => rfl
  | cons e entries ih =>
      rw [entriesToJson, Entries.get?, Entries.get?]
      split
      · rfl
      · exact ih

/-- Aggregates of the same JSON form have as many entries, and each entry of one has its key in the
other, with a value of the same JSON form there. -/
theorem same_entriesToJson {es fs : List (String × Value)} :
    (Value.aggregate es).toJson.same t (Value.aggregate fs).toJson = true ↔
      es.length = fs.length ∧
        ∀ e ∈ es, ∃ w, Entries.get? e.1 fs = some w ∧ e.2.toJson.same t w.toJson = true := by
  have hlengths : (entriesToJson es).length = (entriesToJson fs).length ↔
      es.length = fs.length := by
    rw [entriesToJson_eq, entriesToJson_eq, List.length_map, List.length_map]
  rw [toJson, toJson, Json.same_object, hlengths, entriesToJson_eq es, List.forall_mem_map]
  simp only [get?_entriesToJson, Option.map_eq_some_iff, Prod.map_fst, Prod.map_snd, id,
    exists_exists_and_eq_and]

mutual

theorem isSpelledOut_spelledOut : (v : Value) → v.spelledOut.IsSpelledOut
  | .string s => .string s
  | .bool b => .bool b
  | .int n => .int n
  | .float x => .float x
  | .constant name => by
      rw [spelledOut]
      exact .aggregate (List.forall_mem_singleton.mpr (.string name))
  | .list items => by
      rw [spelledOut]
      exact .list (isSpelledOut_items items)
  | .aggregate entries => by
      rw [spelledOut]
      exact .aggregate (isSpelledOut_entries entries)
  | .setting ⟨name, value, custom⟩ => by
      rw [spelledOut]
      exact .aggregate (List.forall_mem_cons.mpr ⟨.string name,
        List.forall_mem_cons.mpr ⟨isSpelledOut_spelledOut value,
          List.forall_mem_singleton.mpr (.bool custom)⟩⟩)

theorem isSpelledOut_items : (items : List Value) → ∀ v ∈ spelledOutItems items, v.IsSpelledOut
  | [] => List.forall_mem_nil _
  | v :: items => by
      rw [spelledOutItems]
      exact List.forall_mem_cons.mpr ⟨isSpelledOut_spelledOut v, isSpelledOut_items items⟩

theorem isSpelledOut_entries :
    (entries : List (String × Value)) → ∀ e ∈ spelledOutEntries entries, e.2.IsSpelledOut
  | [] => List.forall_mem_nil _
  | (key, v) :: entries => by
      rw [spelledOutEntries]
      exact List.forall_mem_cons.mpr ⟨isSpelledOut_spelledOut v, isSpelledOut_entries entries⟩

end

mutual

/-- A value has the JSON form of the value spelled out. -/
theorem toJson_spelledOut : (v : Value) → v.spelledOut.toJson = v.toJson
  | .string _ | .bool _ | .int _ | .float _ => rfl
  | .constant name => by simp [spelledOut, toJson, entriesToJson]
  | .list items => by rw [spelledOut, toJson, toJson, itemsToJson_spelledOut items]
  | .aggregate entries => by rw [spelledOut, toJson, toJson, entriesToJson_spelledOut entries]
  | .setting ⟨name, value, custom⟩ => by
      simp [spelledOut, toJson, entriesToJson, Setting.toJson, toJson_spelledOut value]

theorem itemsToJson_spelledOut : (items : List Value) →
    itemsToJson (spelledOutItems items) = itemsToJson items
  | [] => rfl
  | v :: items => by
      rw [spelledOutItems, itemsToJson, itemsToJson, toJson_spelledOut v,
        itemsToJson_spelledOut items]

theorem entriesToJson_spelledOut : (entries : List (String × Value)) →
    entriesToJson (spelledOutEntries entries) = entriesToJson entries
  | [] => rfl
  | (key, v) :: entries => by
      rw [spelledOutEntries, entriesToJson, entriesToJson, toJson_spelledOut v,
        entriesToJson_spelledOut entries]

end

theorem quantity?_of_toJson {q : Quantity} (h : v.toJson.quantity? t = some q) :
    v.quantity? = some q := by
  cases v with
  | bool b => cases t <;> simp_all [toJson, Json.quantity?, quantity?]
  | int n => exact h
  | float x => exact h
  | setting s =>
      cases s
      simp [toJson, Setting.toJson, Json.quantity?] at h
  | _ => simp [toJson, Json.quantity?] at h

theorem same_of_sameQuantity_toJson {order : EntryOrder}
    (h : v.toJson.sameQuantity t w.toJson = true) : v.same order w = true := by
  unfold Json.sameQuantity at h
  split at h
  · rename_i a b ha hb
    rw [same_of_quantity? (quantity?_of_toJson ha), quantity?_of_toJson hb, of_decide_eq_true h]
  · cases h

/-- Values that are spelled out and have the same JSON form are the same. -/
theorem IsSpelledOut.same_of_toJson (hv : v.IsSpelledOut) (hw : w.IsSpelledOut)
    (h : v.toJson.same t w.toJson = true) : v.same .ignored w = true := by
  induction hv generalizing w with
  | string s =>
      rw [toJson_eq_string.mp (Json.same_string.mp h)]
      exact (same_string s _).mpr ⟨s, rfl, decide_eq_true rfl⟩
  | bool b =>
      rcases Json.eq_or_sameQuantity_of_same_bool h with hjson | hquantity
      · have hbool : w = .bool b := by
          cases hw <;> simp_all [toJson]
        rw [hbool]
        exact (same_of_quantity? rfl _).mpr rfl
      · exact same_of_sameQuantity_toJson (v := .bool b) hquantity
  | int n =>
      rw [toJson, Json.same_int] at h
      exact same_of_sameQuantity_toJson (v := .int n) h
  | float x =>
      rw [toJson, Json.same_float] at h
      exact same_of_sameQuantity_toJson (v := .float x) h
  | @list vs _ ih =>
      cases hw with
      | @list ws spelledOut =>
          rw [toJson, toJson, itemsToJson_eq, itemsToJson_eq, Json.same_array,
            List.forall₂_map_left_iff, List.forall₂_map_right_iff] at h
          rw [same_list]
          refine ⟨ws, rfl, sameElements_iff.mpr (forall₂_of_mem h fun v hv w hw => ?_)⟩
          exact ih v hv (spelledOut w hw)
      | _ => simp [toJson, Json.same_eq, Json.sameQuantity, Json.quantity?] at h
  | @aggregate es _ ih =>
      cases hw with
      | @aggregate fs spelledOut =>
          obtain ⟨hlength, hmembers⟩ := same_entriesToJson.mp h
          rw [same_aggregate_ignored]
          refine ⟨fs, rfl, ?_⟩
          rw [sameEntries, Bool.and_eq_true, decide_eq_true_eq, sameUnder_iff]
          refine ⟨hlength, fun e he => ?_⟩
          obtain ⟨w, hget, hsame⟩ := hmembers e he
          exact ⟨w, hget, ih e he (spelledOut _ (Entries.mem_of_get? hget)) hsame⟩
      | _ => simp [toJson, Json.same_eq, Json.sameQuantity, Json.quantity?] at h

/-- Values of the same JSON form are the same once they are spelled out. -/
theorem same_spelledOut_of_toJson (h : v.toJson.same t w.toJson = true) :
    v.spelledOut.same .ignored w.spelledOut = true := by
  rw [← toJson_spelledOut v, ← toJson_spelledOut w] at h
  exact (isSpelledOut_spelledOut v).same_of_toJson (isSpelledOut_spelledOut w) h

end Value

/-! ### Kinds of values -/

/-- The kinds of option values. -/
inductive ValueKind where
  | string
  | bool
  | number
  | constant
  | list
  | aggregate
  | setting
deriving DecidableEq, Repr

namespace Value

/-- The kind of a value. -/
def kind : Value → ValueKind
  | .string _ => .string
  | .bool _ => .bool
  | .int _ => .number
  | .float _ => .number
  | .constant _ => .constant
  | .list _ => .list
  | .aggregate _ => .aggregate
  | .setting _ => .setting

/-- The value is an aggregate with the keys that the members of a constant have, or those of an
option. -/
inductive LooksLike : Value → Value → Prop
  | constant (name : String) : LooksLike (.aggregate [("enum", .string name)]) (.constant name)
  | setting (s : Setting) {entries : List (String × Value)} (three : entries.length = 3)
      (keys : ∀ e ∈ entries, e.1 ∈ ["name", "value", "custom"]) :
      LooksLike (.aggregate entries) (.setting s)

variable {t : TruthValues} {v w : Value} {name : String} {s : Setting}
  {es fs : List (String × Value)}

/-- Values that are spelled out and have the same JSON form are of the same kind. -/
theorem IsSpelledOut.kind_eq (hv : v.IsSpelledOut) (hw : w.IsSpelledOut)
    (h : v.toJson.same .apart w.toJson = true) : v.kind = w.kind := by
  cases hv <;> cases hw <;>
    first
    | rfl
    | simp [toJson, Json.same_eq, Json.sameQuantity, Json.quantity?] at h

theorem looksLike_constant
    (h : (Value.aggregate es).toJson.same t (Value.constant name).toJson = true) :
    LooksLike (.aggregate es) (.constant name) := by
  rw [← toJson_spelledOut (.constant name), spelledOut_constant, same_entriesToJson] at h
  obtain ⟨hlength, hentries⟩ := h
  obtain ⟨⟨key, v⟩, rfl⟩ := List.length_eq_one_iff.mp hlength
  obtain ⟨w, hget, hsame⟩ := hentries (key, v) List.mem_cons_self
  obtain ⟨rfl, rfl⟩ : key = "enum" ∧ w = .string name := by
    simpa using Entries.mem_of_get? hget
  have hv : v = .string name := toJson_eq_string.mp (Json.same_string_right.mp hsame)
  rw [hv]
  exact .constant name

theorem looksLike_constant_of_symm
    (h : (Value.constant name).toJson.same t (Value.aggregate es).toJson = true) :
    LooksLike (.aggregate es) (.constant name) := by
  rw [← toJson_spelledOut (.constant name), spelledOut_constant, same_entriesToJson] at h
  obtain ⟨hlength, hentries⟩ := h
  obtain ⟨⟨key, v⟩, rfl⟩ := List.length_eq_one_iff.mp hlength.symm
  obtain ⟨w, hget, hsame⟩ := hentries ("enum", .string name) List.mem_cons_self
  obtain ⟨rfl, rfl⟩ : "enum" = key ∧ w = v := by
    simpa using Entries.mem_of_get? hget
  rw [toJson_eq_string.mp (Json.same_string.mp hsame)]
  exact .constant name

theorem looksLike_setting
    (h : (Value.aggregate es).toJson.same t (Value.setting s).toJson = true) :
    LooksLike (.aggregate es) (.setting s) := by
  rw [← toJson_spelledOut (.setting s), spelledOut_setting, same_entriesToJson] at h
  obtain ⟨hlength, hentries⟩ := h
  refine .setting s hlength fun e he => ?_
  obtain ⟨w, hget, -⟩ := hentries e he
  have hmem : (e.1, w) ∈ s.members := Entries.mem_of_get? hget
  rw [← Setting.keys_members s]
  exact List.mem_map.mpr ⟨(e.1, w), hmem, rfl⟩

theorem looksLike_setting_of_symm
    (h : (Value.setting s).toJson.same t (Value.aggregate es).toJson = true) :
    LooksLike (.aggregate es) (.setting s) := by
  rw [← toJson_spelledOut (.setting s), spelledOut_setting, same_entriesToJson] at h
  obtain ⟨hlength, hentries⟩ := h
  have hperm : (s.members.map Prod.fst).Perm (es.map Prod.fst) := by
    refine Entries.perm_keys ?_ hlength fun e he => ?_
    · rw [Setting.keys_members]
      decide
    · obtain ⟨w, hget, -⟩ := hentries e he
      exact ⟨w, hget⟩
  refine .setting s hlength.symm fun e he => ?_
  rw [← Setting.keys_members s]
  exact hperm.mem_iff.mpr (List.mem_map_of_mem he)

theorem length_eq_of_toJson (hv : v.spelledOut = .aggregate es) (hw : w.spelledOut = .aggregate fs)
    (h : v.toJson.same t w.toJson = true) : es.length = fs.length := by
  rw [← toJson_spelledOut v, ← toJson_spelledOut w, hv, hw, same_entriesToJson] at h
  exact h.1

/-- Values of different kinds have different JSON forms, unless one looks like the other. -/
theorem kind_eq_or_looksLike (h : v.toJson.same .apart w.toJson = true) :
    v.kind = w.kind ∨ v.LooksLike w ∨ w.LooksLike v := by
  have hkind : v.spelledOut.kind = w.spelledOut.kind :=
    (isSpelledOut_spelledOut v).kind_eq (isSpelledOut_spelledOut w)
      (by rwa [toJson_spelledOut, toJson_spelledOut])
  cases v with
  | constant n =>
      cases w with
      | aggregate es => exact .inr (.inr (looksLike_constant_of_symm h))
      | setting s =>
          have hlength := length_eq_of_toJson (spelledOut_constant n) (spelledOut_setting s) h
          exact absurd hlength (by simp [Setting.members])
      | _ => first | exact .inl rfl | simp [spelledOut, kind] at hkind
  | aggregate es =>
      cases w with
      | constant n => exact .inr (.inl (looksLike_constant h))
      | setting s => exact .inr (.inl (looksLike_setting h))
      | _ => first | exact .inl rfl | simp [spelledOut, kind] at hkind
  | setting s =>
      cases w with
      | constant n =>
          have hlength := length_eq_of_toJson (spelledOut_setting s) (spelledOut_constant n) h
          exact absurd hlength (by simp [Setting.members])
      | aggregate es => exact .inr (.inr (looksLike_setting_of_symm h))
      | _ => first | exact .inl rfl | simp [spelledOut_setting, spelledOut, kind] at hkind
  | _ =>
      cases w <;> first | exact .inl rfl | simp [spelledOut_setting, spelledOut, kind] at hkind

end Value

end Proto2

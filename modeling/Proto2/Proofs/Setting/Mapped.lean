import Mathlib.Data.List.Induction
import Proto2.Model.Options

/-!
Settings as a map from names to values.

A setting within settings has the names along it as its path, and the value that it comes to at
last as its leaf.  The map brings settings of one outer name together, one level deep: what stands
under the outer name is an aggregate with the inner names as keys, and the value under an inner name
is the one that was set last.  So settings that agree in their first two names and differ behind
them come to one entry of the map, where all but the last of them are lost; every other setting is
found by its path.
-/

namespace Proto2

/-! ### Paths and leaves -/

mutual

/-- The names along a setting, from the outermost one in. -/
def Setting.path : Setting → List String
  | ⟨name, value, _⟩ => name :: value.path

/-- The names along the settings that a value consists of; none if it is no setting. -/
def Value.path : Value → List String
  | .setting s => s.path
  | _ => []

end

mutual

/-- The value at the end of the path of a setting. -/
def Setting.leaf : Setting → Value
  | ⟨_, value, _⟩ => value.leaf

/-- The first value along a value that is no setting. -/
def Value.leaf : Value → Value
  | .setting s => s.leaf
  | value => value

end

/-- What names lead to within a value: through the keys of aggregates and the names of settings. -/
def Value.follow? : List String → Value → Option Value
  | [], v => some v
  | key :: path, .aggregate es => (Entries.get? key es).bind (follow? path)
  | key :: path, .setting s => if s.name = key then follow? path s.value else none
  | _ :: _, _ => none

namespace Setting

variable {s t u : Setting}

/-- The paths differ, and neither goes on where the other one ends. -/
def Apart (s t : Setting) : Prop :=
  ¬s.path <+: t.path ∧ ¬t.path <+: s.path

instance (s t : Setting) : Decidable (s.Apart t) :=
  inferInstanceAs (Decidable (_ ∧ _))

/-- The settings come to the same entry of a map: their first two names are the same. -/
def SharesEntry (s t : Setting) : Prop :=
  s.path.take 2 = t.path.take 2

instance (s t : Setting) : Decidable (s.SharesEntry t) :=
  inferInstanceAs (Decidable (_ = _))

theorem path_eq (s : Setting) : s.path = s.name :: s.value.path := by
  cases s
  rfl

theorem leaf_eq (s : Setting) : s.leaf = s.value.leaf := by
  cases s
  rfl

end Setting

namespace Value

theorem exists_setting_of_path_ne_nil {v : Value} (h : v.path ≠ []) : ∃ s, v = .setting s := by
  cases v with
  | setting s => exact ⟨s, rfl⟩
  | _ => exact absurd rfl h

theorem leaf_of_path_eq_nil {v : Value} (h : v.path = []) : v.leaf = v := by
  cases v with
  | setting s =>
      rw [path, Setting.path_eq] at h
      cases h
  | _ => rfl

/-- The path of a value leads to its leaf. -/
theorem follow?_path (names : List String) {v : Value} (h : v.path = names) :
    v.follow? names = some v.leaf := by
  induction names generalizing v with
  | nil => rw [follow?, leaf_of_path_eq_nil h]
  | cons name names ih =>
      obtain ⟨s, rfl⟩ := exists_setting_of_path_ne_nil (v := v) (by simp [h])
      rw [path, Setting.path_eq] at h
      obtain ⟨hname, hpath⟩ := List.cons.inj h
      rw [follow?, if_pos hname, leaf, Setting.leaf_eq, ih hpath]

/-- Names that leave the path of a value before its end lead nowhere. -/
theorem follow?_of_apart {names : List String} {v : Value} (h : ¬names <+: v.path)
    (h' : ¬v.path <+: names) : v.follow? names = none := by
  induction names generalizing v with
  | nil => exact absurd (List.nil_prefix) h
  | cons name names ih =>
      have hpath : v.path ≠ [] := by
        intro heq
        rw [heq] at h'
        exact h' List.nil_prefix
      obtain ⟨s, rfl⟩ := exists_setting_of_path_ne_nil hpath
      rw [path, Setting.path_eq, List.cons_prefix_cons] at h h'
      rw [follow?]
      split
      · rename_i hname
        exact ih (fun hp => h ⟨hname.symm, hp⟩) fun hp => h' ⟨hname, hp⟩
      · rfl

end Value

namespace Options

variable {map : List (String × Value)} {s t : Setting}

/-! ### One more setting -/

theorem mapStep_of_setting (map : List (String × Value)) {inner : Setting}
    (h : s.value = .setting inner) :
    ∃ merged, mapStep map s =
        Entries.put s.name (.aggregate (Entries.put inner.name inner.value merged)) map ∧
      ∀ es, Entries.get? s.name map = some (.aggregate es) → merged = es := by
  unfold mapStep
  rw [h]
  refine ⟨_, rfl, fun es hes => ?_⟩
  rw [hes]

theorem mapStep_of_path_eq_nil (h : s.value.path = []) :
    mapStep map s = Entries.put s.name s.value map := by
  unfold mapStep
  split
  · rename_i inner hinner
    rw [hinner, Value.path, Setting.path_eq] at h
    cases h
  · rfl

theorem get?_mapStep_of_ne (map : List (String × Value)) {key : String} (h : key ≠ s.name) :
    Entries.get? key (mapStep map s) = Entries.get? key map := by
  by_cases hpath : s.value.path = []
  · rw [mapStep_of_path_eq_nil hpath, Entries.get?_put_ne h]
  · obtain ⟨inner, hinner⟩ := Value.exists_setting_of_path_ne_nil hpath
    obtain ⟨merged, hstep, -⟩ := mapStep_of_setting map hinner
    rw [hstep, Entries.get?_put_ne h]

/-- The entry of the map that a setting comes to is the setting's. -/
inductive Holds (map : List (String × Value)) (s : Setting) : Prop
  | single (plain : s.value.path = []) (found : Entries.get? s.name map = some s.value)
  | nested {inner : Setting} {es : List (String × Value)} (value : s.value = .setting inner)
      (found : Entries.get? s.name map = some (.aggregate es))
      (foundInner : Entries.get? inner.name es = some inner.value)

theorem holds_mapStep (map : List (String × Value)) (s : Setting) : Holds (mapStep map s) s := by
  by_cases hpath : s.value.path = []
  · refine .single hpath ?_
    rw [mapStep_of_path_eq_nil hpath, Entries.get?_put_self]
  · obtain ⟨inner, hinner⟩ := Value.exists_setting_of_path_ne_nil hpath
    obtain ⟨merged, hstep, -⟩ := mapStep_of_setting map hinner
    refine .nested hinner ?_ (Entries.get?_put_self _ _ merged)
    rw [hstep, Entries.get?_put_self]

/-- Another setting leaves the entry alone, unless it comes to the same one. -/
theorem Holds.mapStep (h : Holds map s) (apart : s.Apart t) (entry : ¬s.SharesEntry t) :
    Holds (mapStep map t) s := by
  by_cases hname : s.name = t.name
  · rw [Setting.Apart, s.path_eq, t.path_eq, List.cons_prefix_cons, List.cons_prefix_cons] at apart
    cases h with
    | single plain found =>
        rw [plain] at apart
        exact absurd ⟨hname, List.nil_prefix⟩ apart.1
    | @nested inner es value found foundInner =>
        have hpath : t.value.path ≠ [] := by
          intro heq
          rw [heq] at apart
          exact apart.2 ⟨hname.symm, List.nil_prefix⟩
        obtain ⟨inner', value'⟩ := Value.exists_setting_of_path_ne_nil hpath
        have hinner : inner.name ≠ inner'.name := by
          intro heq
          apply entry
          simp [Setting.SharesEntry, s.path_eq, t.path_eq, value, value', Value.path,
            inner.path_eq, inner'.path_eq, hname, heq]
        obtain ⟨merged, hstep, hmerged⟩ := mapStep_of_setting map value'
        obtain rfl := hmerged es (hname ▸ found)
        have hkept := Entries.get?_put_ne hinner inner'.value merged
        refine .nested value ?_ (hkept.trans foundInner)
        rw [hstep, hname, Entries.get?_put_self]
  · have hget := get?_mapStep_of_ne map hname
    cases h with
    | single plain found => exact .single plain (hget.trans found)
    | nested value found foundInner => exact .nested value (hget.trans found) foundInner

/-! ### What paths lead to -/

theorem Holds.follow? (h : Holds map s) :
    (Value.aggregate map).follow? s.path = some s.leaf := by
  rw [s.path_eq, s.leaf_eq, Value.follow?]
  cases h with
  | single plain found =>
      rw [found, plain, Value.leaf_of_path_eq_nil plain]
      rfl
  | nested value found foundInner =>
      rw [found, value, Value.path, Setting.path_eq, Value.leaf, Setting.leaf_eq, Option.bind_some,
        Value.follow?, foundInner]
      exact Value.follow?_path _ rfl

/-- Where another setting has taken the entry, a path that is apart from its path leads nowhere. -/
theorem Holds.follow?_eq_none (h : Holds map t) (apart : s.Apart t) (entry : s.SharesEntry t) :
    (Value.aggregate map).follow? s.path = none := by
  have hsplit : s.path = t.path.take 2 ++ s.path.drop 2 := by
    rw [← entry, List.take_append_drop]
  cases h with
  | single plain found =>
      have htake : t.path.take 2 = t.path := by simp [t.path_eq, plain]
      rw [htake] at hsplit
      exact absurd ⟨_, hsplit.symm⟩ apart.2
  | @nested inner es value found foundInner =>
      have hpath : t.path = t.name :: inner.name :: inner.value.path := by
        rw [t.path_eq, value, Value.path, inner.path_eq]
      rw [hpath, List.take_succ_cons, List.take_succ_cons, List.take_zero] at hsplit
      rw [Setting.Apart, hsplit, hpath] at apart
      simp only [List.cons_append, List.nil_append, List.cons_prefix_cons, true_and] at apart
      rw [hsplit, List.cons_append, List.cons_append, List.nil_append, Value.follow?, found,
        Option.bind_some, Value.follow?, foundInner]
      exact Value.follow?_of_apart apart.1 apart.2

/-- The entry that a setting comes to is its own, or that of a later setting. -/
theorem holds_asMap (before : List Setting) {after : List Setting}
    (apart : (s :: after).Pairwise Setting.Apart) :
    ((∀ t ∈ after, ¬s.SharesEntry t) ∧ Holds (asMap (before ++ s :: after)) s) ∨
      ∃ t ∈ after, s.SharesEntry t ∧ Holds (asMap (before ++ s :: after)) t := by
  -- Setting by setting behind the one at hand: the entry is kept, or the next setting takes it.
  induction after using List.reverseRecOn with
  | nil =>
      rw [asMap, List.foldl_append]
      exact .inl ⟨nofun, holds_mapStep _ s⟩
  | append_singleton after u ih =>
      have hstep : asMap (before ++ s :: (after ++ [u])) =
          mapStep (asMap (before ++ s :: after)) u := by
        rw [← List.cons_append, ← List.append_assoc, asMap, List.foldl_append]
        rfl
      rw [← List.cons_append, List.pairwise_append] at apart
      obtain ⟨hearlier, -, hlast⟩ := apart
      rw [hstep]
      by_cases hu : s.SharesEntry u
      · exact .inr ⟨u, by simp, hu, holds_mapStep _ u⟩
      · rcases ih hearlier with ⟨hkept, hs⟩ | ⟨t, ht, hst, hholds⟩
        · refine .inl ⟨?_, hs.mapStep (hlast s (by simp) u (by simp)) hu⟩
          intro t ht
          rcases List.mem_append.mp ht with ht | ht
          · exact hkept t ht
          · rwa [List.mem_singleton.mp ht]
        · have htu : ¬t.SharesEntry u := fun heq => hu (Eq.trans hst heq)
          exact .inr ⟨t, by simp [ht], hst,
            hholds.mapStep (hlast t (by simp [ht]) u (by simp)) htu⟩

/-- If no path is another one or the start of it, a path leads from the map of the settings to the
leaf of its setting, unless a later setting comes to the same entry: then it leads nowhere. -/
theorem paths_followed {settings before after : List Setting} {s : Setting}
    (apart : settings.Pairwise Setting.Apart) (place : settings = before ++ s :: after) :
    (Value.aggregate (asMap settings)).follow? s.path =
      if ∀ t ∈ after, ¬s.SharesEntry t then some s.leaf else none := by
  subst place
  have hbehind := (List.pairwise_append.mp apart).2.1
  rcases holds_asMap before hbehind with ⟨hkept, hholds⟩ | ⟨t, ht, hst, hholds⟩
  · rw [if_pos hkept, hholds.follow?]
  · rw [if_neg fun hkept => hkept t ht hst]
    exact hholds.follow?_eq_none (List.rel_of_pairwise_cons hbehind ht) hst

/-- A path of one name, one of two, and two of three names that come to one entry. -/
theorem paths_followed_of_four :
    let first : Setting := ⟨"a", .setting ⟨"b", .setting ⟨"c", .int 1, false⟩, false⟩, true⟩
    let second : Setting := ⟨"a", .setting ⟨"b", .setting ⟨"d", .int 2, false⟩, false⟩, true⟩
    let third : Setting := ⟨"a", .setting ⟨"e", .int 3, false⟩, true⟩
    let fourth : Setting := ⟨"f", .int 4, false⟩
    let map := Value.aggregate (asMap [first, second, third, fourth])
    [first, second, third, fourth].Pairwise Setting.Apart ∧
      map.follow? ["a", "b", "c"] = none ∧ map.follow? ["a", "b", "d"] = some (.int 2) := by
  intro first second third fourth map
  have hapart : [first, second, third, fourth].Pairwise Setting.Apart := by decide
  have hfirst := @paths_followed _ [] _ first hapart rfl
  have hsecond := @paths_followed _ [first] _ second hapart rfl
  exact ⟨hapart, hfirst, hsecond⟩

/-- Of two settings that differ in the last of their three names, the first is not found. -/
theorem not_all_paths_followed :
    ¬∀ settings : List Setting, settings.Pairwise Setting.Apart → ∀ s ∈ settings,
      (Value.aggregate (asMap settings)).follow? s.path = some s.leaf := by
  intro h
  let first : Setting := ⟨"a", .setting ⟨"b", .setting ⟨"c", .int 1, false⟩, false⟩, true⟩
  let second : Setting := ⟨"a", .setting ⟨"b", .setting ⟨"d", .int 2, false⟩, false⟩, true⟩
  have hfound := h [first, second] (by decide) first (by simp)
  cases hfound

end Options

end Proto2

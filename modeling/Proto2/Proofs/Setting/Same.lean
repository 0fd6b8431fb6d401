import Mathlib.Data.List.Forall2
import Mathlib.Data.List.Nodup
import Mathlib.Data.List.Perm.Subperm
import Proto2.Model.Comparison

/-!
The comparisons of values are equivalences.

There are two of them: one ignores the order of the entries of an aggregate and one does not.  Each
is an equivalence on the values without a NaN in them, and the one that keeps the order is the finer
of the two.  A comparison is looked at around one element at a time, so that what holds of the parts
of a piece of a schema is put together to what holds of the piece.
-/

namespace Proto2

/-! ### Comparisons around an element -/

section

variable {α β γ : Type}

/-- Around the element, the comparison is an equivalence. -/
structure EquivalentAt (r : α → α → Bool) (a : α) : Prop where
  refl : r a a = true
  symm : ∀ b, r a b = true → r b a = true
  trans : ∀ b c, r a b = true → r b c = true → r a c = true

namespace EquivalentAt

variable {r : α → α → Bool} {s : β → β → Bool} {a : α} {b : β}

theorem eq [DecidableEq β] (f : α → β) (a : α) :
    EquivalentAt (fun x y => decide (f x = f y)) a where
  refl := by simp
  symm _ h := by simpa using (of_decide_eq_true h).symm
  trans _ _ h h' := by simpa using (of_decide_eq_true h).trans (of_decide_eq_true h')

theorem and {r' : α → α → Bool} (h : EquivalentAt r a) (h' : EquivalentAt r' a) :
    EquivalentAt (fun x y => r x y && r' x y) a where
  refl := by rw [h.refl, h'.refl, Bool.and_self]
  symm c hc := by
    rw [Bool.and_eq_true] at hc ⊢
    exact ⟨h.symm c hc.1, h'.symm c hc.2⟩
  trans c d hc hd := by
    rw [Bool.and_eq_true] at hc hd ⊢
    exact ⟨h.trans c d hc.1 hd.1, h'.trans c d hc.2 hd.2⟩

/-- A comparison of parts. -/
theorem on (f : α → β) (h : EquivalentAt s (f a)) : EquivalentAt (fun x y => s (f x) (f y)) a where
  refl := h.refl
  symm c := h.symm (f c)
  trans c d := h.trans (f c) (f d)

/-- Elements of one form, compared by what they are made of. -/
theorem of_form {mk : β → α}
    (form : ∀ x c, r (mk x) c = true ↔ ∃ y, c = mk y ∧ s x y = true) (h : EquivalentAt s b) :
    EquivalentAt r (mk b) where
  refl := (form b _).mpr ⟨b, rfl, h.refl⟩
  symm c hc := by
    obtain ⟨y, rfl, hy⟩ := (form b c).mp hc
    exact (form y _).mpr ⟨b, rfl, h.symm y hy⟩
  trans c d hc hd := by
    obtain ⟨y, rfl, hy⟩ := (form b c).mp hc
    obtain ⟨z, rfl, hz⟩ := (form y d).mp hd
    exact (form b _).mpr ⟨z, rfl, h.trans y z hy hz⟩

end EquivalentAt

theorem sameElements_iff {r : α → α → Bool} {as bs : List α} :
    sameElements r as bs = true ↔ List.Forall₂ (fun a b => r a b = true) as bs := by
  induction as generalizing bs with
  | nil => cases bs <;> simp [sameElements]
  | cons a as ih => cases bs <;> simp [sameElements, ih]

theorem exists_of_forall₂ {R : α → β → Prop} {as : List α} {bs : List β}
    (h : List.Forall₂ R as bs) {a : α} (ha : a ∈ as) : ∃ b ∈ bs, R a b := by
  induction h with
  | nil => cases ha
  | cons head tail ih =>
      rcases List.mem_cons.mp ha with rfl | ha
      · exact ⟨_, List.mem_cons_self, head⟩
      · obtain ⟨b, hb, hab⟩ := ih ha
        exact ⟨b, List.mem_cons_of_mem _ hb, hab⟩

theorem forall₂_of_mem {R S : α → β → Prop} {as : List α} {bs : List β}
    (h : List.Forall₂ R as bs) (imp : ∀ a ∈ as, ∀ b ∈ bs, R a b → S a b) :
    List.Forall₂ S as bs := by
  induction h with
  | nil => exact .nil
  | cons head tail ih =>
      exact .cons (imp _ (by simp) _ (by simp) head)
        (ih fun a ha b hb => imp a (by simp [ha]) b (by simp [hb]))

theorem EquivalentAt.elements {r : α → α → Bool} {as : List α}
    (h : ∀ a ∈ as, EquivalentAt r a) : EquivalentAt (sameElements r) as where
  refl := sameElements_iff.mpr (List.forall₂_same.mpr fun a ha => (h a ha).refl)
  symm bs hbs := by
    rw [sameElements_iff] at hbs ⊢
    exact (forall₂_of_mem hbs fun a ha b _ => (h a ha).symm b).flip
  trans bs cs hbs hcs := by
    rw [sameElements_iff] at hbs hcs ⊢
    induction hbs generalizing cs with
    | nil => exact hcs
    | cons head tail ih =>
        cases hcs with
        | cons head' tail' =>
            exact .cons ((h _ (by simp)).trans _ _ head head')
              (ih (fun a ha => h a (by simp [ha])) _ tail')

/-- Around the element, both comparisons are equivalences, and what is the same by the first one is
the same by the second one. -/
structure FinerAt (r s : α → α → Bool) (a : α) : Prop where
  fine : EquivalentAt r a
  coarse : EquivalentAt s a
  imp : ∀ b, r a b = true → s a b = true

namespace FinerAt

variable {r s : α → α → Bool} {r' s' : β → β → Bool} {a : α} {b : β}

theorem of_equivalentAt (h : EquivalentAt r a) : FinerAt r r a :=
  ⟨h, h, fun _ => id⟩

theorem eq [DecidableEq β] (f : α → β) (a : α) :
    FinerAt (fun x y => decide (f x = f y)) (fun x y => decide (f x = f y)) a :=
  of_equivalentAt (.eq f a)

theorem and {r' s' : α → α → Bool} (h : FinerAt r s a) (h' : FinerAt r' s' a) :
    FinerAt (fun x y => r x y && r' x y) (fun x y => s x y && s' x y) a where
  fine := h.fine.and h'.fine
  coarse := h.coarse.and h'.coarse
  imp c hc := by
    rw [Bool.and_eq_true] at hc ⊢
    exact ⟨h.imp c hc.1, h'.imp c hc.2⟩

theorem on (f : α → β) (h : FinerAt r' s' (f a)) :
    FinerAt (fun x y => r' (f x) (f y)) (fun x y => s' (f x) (f y)) a :=
  ⟨h.fine.on f, h.coarse.on f, fun c => h.imp (f c)⟩

theorem elements {as : List α} (h : ∀ a ∈ as, FinerAt r s a) :
    FinerAt (sameElements r) (sameElements s) as where
  fine := .elements fun a ha => (h a ha).fine
  coarse := .elements fun a ha => (h a ha).coarse
  imp bs hbs := by
    rw [sameElements_iff] at hbs ⊢
    exact forall₂_of_mem hbs fun a ha b _ => (h a ha).imp b

theorem of_form {mk : β → α}
    (form : ∀ x c, r (mk x) c = true ↔ ∃ y, c = mk y ∧ r' x y = true)
    (form' : ∀ x c, s (mk x) c = true ↔ ∃ y, c = mk y ∧ s' x y = true)
    (h : FinerAt r' s' b) : FinerAt r s (mk b) where
  fine := .of_form form h.fine
  coarse := .of_form form' h.coarse
  imp c hc := by
    obtain ⟨y, rfl, hy⟩ := (form b c).mp hc
    exact (form' b _).mpr ⟨y, rfl, h.imp y hy⟩

end FinerAt

end

/-! ### What is the same as a value of each form -/

/-- Whether the values of two entries are the same, and their keys are. -/
def Value.sameEntry (order : EntryOrder) (e f : String × Value) : Bool :=
  e.1 = f.1 && e.2.same order f.2

/-- Whether two aggregates have the same entries in any order, by their number and their keys. -/
def Value.sameEntries (es fs : List (String × Value)) : Bool :=
  es.length = fs.length && Value.sameUnder .ignored es fs

theorem Setting.same_eq (order : EntryOrder) : Setting.same order =
    fun s t => s.name = t.name && s.value.same order t.value && s.custom = t.custom := by
  funext ⟨name, value, custom⟩ t
  rw [Setting.same]

namespace Value

variable {order : EntryOrder}

theorem allSame_eq (order : EntryOrder) : allSame order = sameElements (same order) := by
  funext vs
  induction vs with
  | nil => funext ws; cases ws <;> simp [allSame, sameElements]
  | cons v vs ih => funext ws; cases ws <;> simp [allSame, sameElements, ih]

theorem sameEntry_iff {e f : String × Value} :
    sameEntry order e f = true ↔ e.1 = f.1 ∧ e.2.same order f.2 = true := by
  rw [sameEntry, Bool.and_eq_true, decide_eq_true_eq]

theorem sameSequence_eq (order : EntryOrder) :
    sameSequence order = sameElements (sameEntry order) := by
  funext es
  induction es with
  | nil => funext fs; cases fs <;> simp [sameSequence, sameElements]
  | cons e es ih =>
      funext fs
      rcases e with ⟨key, v⟩
      rcases fs with _ | ⟨⟨_, _⟩, _⟩ <;> simp [sameSequence, sameElements, sameEntry, ih]

theorem sameUnder_iff {es fs : List (String × Value)} :
    sameUnder order es fs = true ↔
      ∀ e ∈ es, ∃ w, Entries.get? e.1 fs = some w ∧ e.2.same order w = true := by
  induction es with
  | nil => simp [sameUnder]
  | cons e es ih =>
      rw [sameUnder, Bool.and_eq_true, ih, List.forall_mem_cons]
      refine and_congr_left fun _ => ?_
      cases Entries.get? e.1 fs <;> simp

section

attribute [local simp] same sameQuantity quantity?

theorem same_string (s : String) (w : Value) :
    same order (.string s) w = true ↔ ∃ t, w = .string t ∧ decide (s = t) = true := by
  cases w <;> simp

theorem same_constant (s : String) (w : Value) :
    same order (.constant s) w = true ↔ ∃ t, w = .constant t ∧ decide (s = t) = true := by
  cases w <;> simp

theorem same_list (vs : List Value) (w : Value) :
    same order (.list vs) w = true ↔
      ∃ ws, w = .list ws ∧ sameElements (same order) vs ws = true := by
  cases w <;> simp [allSame_eq]

theorem same_aggregate_kept (es : List (String × Value)) (w : Value) :
    same .kept (.aggregate es) w = true ↔
      ∃ fs, w = .aggregate fs ∧ sameElements (sameEntry .kept) es fs = true := by
  cases w <;> simp [sameSequence_eq]

theorem same_aggregate_ignored (es : List (String × Value)) (w : Value) :
    same .ignored (.aggregate es) w = true ↔
      ∃ fs, w = .aggregate fs ∧ sameEntries es fs = true := by
  cases w <;> simp [sameEntries]

theorem same_setting (s : Setting) (w : Value) :
    same order (.setting s) w = true ↔ ∃ t, w = .setting t ∧ s.same order t = true := by
  cases w <;> simp

end

/-- A value that denotes a number is the same as those that denote the same number. -/
theorem same_of_quantity? {v : Value} {q : Quantity} (h : v.quantity? = some q) (w : Value) :
    same order v w = true ↔ w.quantity? = some q := by
  have hsame : same order v w = v.sameQuantity w := by
    cases v with
    | bool | int | float => cases w <;> simp [same]
    | _ => cases h
  rw [hsame, sameQuantity, h]
  cases w.quantity? <;> simp [eq_comm]

theorem equivalentAt_of_quantity? {v : Value} {q : Quantity} (h : v.quantity? = some q) :
    EquivalentAt (same order) v where
  refl := (same_of_quantity? h v).mpr h
  symm w hw := (same_of_quantity? ((same_of_quantity? h w).mp hw) v).mpr h
  trans w u hw hu :=
    (same_of_quantity? h u).mpr ((same_of_quantity? ((same_of_quantity? h w).mp hw) u).mp hu)

theorem finerAt_of_quantity? {v : Value} {q : Quantity} (h : v.quantity? = some q) :
    FinerAt (same .kept) (same .ignored) v where
  fine := equivalentAt_of_quantity? h
  coarse := equivalentAt_of_quantity? h
  imp w hw := (same_of_quantity? h w).mpr ((same_of_quantity? h w).mp hw)

end Value

/-! ### Entries in any order -/

/-- If as many entries have the same keys, the keys are the same ones. -/
theorem Entries.perm_keys {α β : Type} {es : List (String × α)} {fs : List (String × β)}
    (distinct : (es.map Prod.fst).Nodup) (lengths : es.length = fs.length)
    (found : ∀ e ∈ es, ∃ w, Entries.get? e.1 fs = some w) :
    (es.map Prod.fst).Perm (fs.map Prod.fst) := by
  have hsubset : es.map Prod.fst ⊆ fs.map Prod.fst := by
    intro key hkey
    obtain ⟨e, he, rfl⟩ := List.mem_map.mp hkey
    obtain ⟨w, hget⟩ := found e he
    have hmem : (e.1, w) ∈ fs := Entries.mem_of_get? hget
    exact List.mem_map.mpr ⟨(e.1, w), hmem, rfl⟩
  refine (distinct.subperm hsubset).perm_of_length_le ?_
  simpa using Nat.le_of_eq lengths.symm

namespace Value

variable {es : List (String × Value)} (distinct : (es.map Prod.fst).Nodup)

include distinct

theorem perm_keys_of_sameEntries {fs : List (String × Value)} (h : sameEntries es fs = true) :
    (es.map Prod.fst).Perm (fs.map Prod.fst) := by
  rw [sameEntries, Bool.and_eq_true, decide_eq_true_eq, sameUnder_iff] at h
  refine Entries.perm_keys distinct h.1 fun e he => ?_
  obtain ⟨w, hget, -⟩ := h.2 e he
  exact ⟨w, hget⟩

theorem equivalentAt_sameEntries (values : ∀ e ∈ es, EquivalentAt (same .ignored) e.2) :
    EquivalentAt sameEntries es where
  refl := by
    rw [sameEntries, Bool.and_eq_true, decide_eq_true_eq, sameUnder_iff]
    exact ⟨rfl, fun e he => ⟨e.2, Entries.get?_of_mem distinct he, (values e he).refl⟩⟩
  symm fs h := by
    have hperm := perm_keys_of_sameEntries distinct h
    have hdistinct := hperm.nodup_iff.mp distinct
    rw [sameEntries, Bool.and_eq_true, decide_eq_true_eq, sameUnder_iff] at h ⊢
    refine ⟨h.1.symm, fun f hf => ?_⟩
    obtain ⟨e, he, hkey⟩ := List.mem_map.mp (hperm.mem_iff.mpr (List.mem_map_of_mem hf))
    obtain ⟨w, hget, hw⟩ := h.2 e he
    rw [hkey, Entries.get?_of_mem hdistinct hf, Option.some_inj] at hget
    exact ⟨e.2, hkey ▸ Entries.get?_of_mem distinct he, hget ▸ (values e he).symm w hw⟩
  trans fs gs h h' := by
    rw [sameEntries, Bool.and_eq_true, decide_eq_true_eq, sameUnder_iff] at h h' ⊢
    refine ⟨h.1.trans h'.1, fun e he => ?_⟩
    obtain ⟨w, hget, hw⟩ := h.2 e he
    obtain ⟨u, hget', hu⟩ := h'.2 _ (Entries.mem_of_get? hget)
    exact ⟨u, hget', (values e he).trans w u hw hu⟩

/-- Entries that are the same in their order are the same in any order. -/
theorem finerAt_sameEntries (values : ∀ e ∈ es, FinerAt (same .kept) (same .ignored) e.2) :
    FinerAt (sameElements (sameEntry .kept)) sameEntries es where
  fine := .elements fun e he => (EquivalentAt.eq Prod.fst e).and ((values e he).fine.on Prod.snd)
  coarse := equivalentAt_sameEntries distinct fun e he => (values e he).coarse
  imp fs h := by
    rw [sameElements_iff] at h
    have hkeys : es.map Prod.fst = fs.map Prod.fst := by
      rw [← List.forall₂_eq_eq_eq, List.forall₂_map_left_iff, List.forall₂_map_right_iff]
      exact h.imp fun e f hef => (sameEntry_iff.mp hef).1
    rw [sameEntries, Bool.and_eq_true, decide_eq_true_eq, sameUnder_iff]
    refine ⟨h.length_eq, fun e he => ?_⟩
    obtain ⟨f, hf, hef⟩ := exists_of_forall₂ h he
    obtain ⟨hkey, hvalue⟩ := sameEntry_iff.mp hef
    exact ⟨f.2, hkey ▸ Entries.get?_of_mem (hkeys ▸ distinct) hf, (values e he).imp f.2 hvalue⟩

end Value

/-! ### Values that are the same as themselves -/

/-- There is no NaN in the value, and no key is twice in an aggregate in it. -/
inductive Value.Comparable : Value → Prop
  | string (text : String) : Comparable (.string text)
  | bool (b : Bool) : Comparable (.bool b)
  | int (n : Int) : Comparable (.int n)
  | float {x : Binary64} (number : x ≠ .nan) : Comparable (.float x)
  | constant (name : String) : Comparable (.constant name)
  | list {items : List Value} (comparable : ∀ v ∈ items, Comparable v) : Comparable (.list items)
  | aggregate {entries : List (String × Value)} (distinct : (entries.map Prod.fst).Nodup)
      (comparable : ∀ e ∈ entries, Comparable e.2) : Comparable (.aggregate entries)
  | setting {s : Setting} (comparable : Comparable s.value) : Comparable (.setting s)

theorem Setting.finerAt {s : Setting}
    (h : FinerAt (Value.same .kept) (Value.same .ignored) s.value) :
    FinerAt (Setting.same .kept) (Setting.same .ignored) s := by
  rw [Setting.same_eq, Setting.same_eq]
  exact ((FinerAt.eq Setting.name s).and (h.on Setting.value)).and (.eq Setting.custom s)

/-- On values that are the same as themselves the comparisons are equivalences, and the one that
keeps the order of entries is the finer one. -/
theorem Value.Comparable.finerAt {v : Value} (h : v.Comparable) :
    FinerAt (Value.same .kept) (Value.same .ignored) v := by
  induction h with
  | string text => exact .of_form same_string same_string (.eq id text)
  | bool b => exact finerAt_of_quantity? rfl
  | int n => exact finerAt_of_quantity? rfl
  | @float x number =>
      cases x with
      | finite => exact finerAt_of_quantity? rfl
      | infinite => exact finerAt_of_quantity? rfl
      | nan => exact absurd rfl number
  | constant name => exact .of_form same_constant same_constant (.eq id name)
  | list _ ih => exact .of_form same_list same_list (.elements ih)
  | aggregate distinct _ ih =>
      exact .of_form same_aggregate_kept same_aggregate_ignored (finerAt_sameEntries distinct ih)
  | setting _ ih => exact .of_form same_setting same_setting (Setting.finerAt ih)

end Proto2

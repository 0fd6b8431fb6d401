import Mathlib.Data.Nat.Find
import Proto2.Proofs.Schema.Same

/-!
What a collection keeps that takes only one of each.

`distinct` goes through a list and keeps a node if none that was kept so far is the same, with the
order of the entries of aggregates.  As the comparison is an equivalence, the nodes that were kept
stand for all those that were seen, and so the first node of every class is kept and no other.

Equality ignores the order of the entries.  One node of each class of equal nodes is kept exactly
if equal nodes have the entries of their aggregates in one order.
-/

namespace Proto2

/-! ### The first ones of their classes -/

section

variable {α : Type} {r s : α → α → Bool} {as : List α}

/-- The element at the place is the same as none before it, and as none that was seen earlier. -/
def IsFirst (r : α → α → Bool) (seen as : List α) (i : Nat) : Prop :=
  ∃ a, as[i]? = some a ∧ ∀ b ∈ seen ++ as.take i, r b a = false

theorem isFirst_congr {seen : List α} {i : Nat}
    (congr : ∀ b ∈ seen ++ as, ∀ a ∈ as, r b a = s b a) :
    IsFirst r seen as i ↔ IsFirst s seen as i := by
  refine exists_congr fun a => and_congr_right fun ha => forall₂_congr fun b hb => ?_
  have hmem : b ∈ seen ++ as := by
    rcases List.mem_append.mp hb with hb | hb
    · exact List.mem_append_left _ hb
    · exact List.mem_append_right _ (List.mem_of_mem_take hb)
  rw [congr b hmem a (List.mem_of_getElem? ha)]

theorem isFirst_zero {seen : List α} {a : α} :
    IsFirst r seen (a :: as) 0 ↔ ∀ b ∈ seen, r b a = false := by
  simp [IsFirst]

theorem isFirst_succ {seen : List α} {a : α} {i : Nat} :
    IsFirst r seen (a :: as) (i + 1) ↔ IsFirst r (seen ++ [a]) as i := by
  simp [IsFirst]

/-- The places are those of the first elements of their classes: the elements there differ, and
every element is the same as one of them. -/
structure KeepsFirsts (r : α → α → Bool) (as : List α) (places : List Nat) : Prop where
  increasing : places.Pairwise (· < ·)
  firsts : ∀ i, i ∈ places ↔ IsFirst r [] as i
  differ : ∀ i ∈ places, ∀ j ∈ places, i ≠ j →
    ∀ a b, as[i]? = some a → as[j]? = some b → r a b = false
  covers : ∀ a ∈ as, ∃ i ∈ places, ∃ b, as[i]? = some b ∧ r a b = true

/-- Of what is before the first element of a class, nothing is the same. -/
theorem IsFirst.eq_false_of_lt {i j : Nat} {a b : α} (h : IsFirst r [] as j) (hij : i < j)
    (ha : as[i]? = some a) (hb : as[j]? = some b) : r a b = false := by
  obtain ⟨b', hb', hbefore⟩ := h
  obtain rfl : b = b' := Option.some_inj.mp (hb.symm.trans hb')
  apply hbefore a
  rw [List.nil_append]
  have hget : (as.take j)[i]? = some a := (List.getElem?_take_of_lt hij).trans ha
  exact List.mem_of_getElem? hget

/-- Every element is the same as the first one of its class. -/
theorem exists_isFirst (equivalence : ∀ a ∈ as, EquivalentAt r a) {a : α} (ha : a ∈ as) :
    ∃ i, IsFirst r [] as i ∧ ∃ b, as[i]? = some b ∧ r a b = true := by
  classical
  have hsame : ∃ i : Nat, ∃ b, as[i]? = some b ∧ r a b = true := by
    obtain ⟨i, hi⟩ := List.mem_iff_getElem?.mp ha
    exact ⟨i, a, hi, (equivalence a ha).refl⟩
  obtain ⟨b, hb, hab⟩ := Nat.find_spec hsame
  refine ⟨Nat.find hsame, ⟨b, hb, fun c hc => ?_⟩, b, hb, hab⟩
  rw [List.nil_append] at hc
  obtain ⟨j, hj, hget⟩ := List.mem_take_iff_getElem.mp hc
  have hnot := Nat.find_min hsame (Nat.lt_of_lt_of_le hj (Nat.min_le_left _ _))
  replace hget : as[j]? = some c := List.getElem?_eq_some_iff.mpr ⟨_, hget⟩
  rw [Bool.eq_false_iff]
  intro hcb
  have hcmem : c ∈ as := List.mem_of_getElem? hget
  have hbc : r b c = true := (equivalence c hcmem).symm b hcb
  exact hnot ⟨c, hget, (equivalence a ha).trans b c hab hbc⟩

theorem keepsFirsts_of_firsts (equivalence : ∀ a ∈ as, EquivalentAt r a) {places : List Nat}
    (increasing : places.Pairwise (· < ·)) (firsts : ∀ i, i ∈ places ↔ IsFirst r [] as i) :
    KeepsFirsts r as places where
  increasing := increasing
  firsts := firsts
  differ i hi j hj hne a b ha hb := by
    rcases Nat.lt_or_gt_of_ne hne with hlt | hgt
    · exact ((firsts j).mp hj).eq_false_of_lt hlt ha hb
    · have hba : r b a = false := ((firsts i).mp hi).eq_false_of_lt hgt hb ha
      rw [Bool.eq_false_iff] at hba ⊢
      exact fun hab => hba ((equivalence a (List.mem_of_getElem? ha)).symm b hab)
  covers a ha := by
    obtain ⟨i, hfirst, b, hb, hab⟩ := exists_isFirst equivalence ha
    exact ⟨i, (firsts i).mpr hfirst, b, hb, hab⟩

/-- If one comparison keeps the firsts, another that is coarser keeps the same ones exactly if it
is as fine on the elements. -/
theorem keepsFirsts_iff_of_finer (finer : ∀ a ∈ as, FinerAt r s a) {places : List Nat}
    (h : KeepsFirsts r as places) :
    KeepsFirsts s as places ↔ ∀ a ∈ as, ∀ b ∈ as, s a b = true → r a b = true := by
  constructor
  · intro h' a ha b hb hab
    obtain ⟨i, hi, a', ha', haa'⟩ := h.covers a ha
    obtain ⟨j, hj, b', hb', hbb'⟩ := h.covers b hb
    have ha'mem := List.mem_of_getElem? ha'
    have hs : s a' b' = true :=
      (finer a' ha'mem).coarse.trans a b' ((finer a ha).coarse.symm a' ((finer a ha).imp a' haa'))
        ((finer a ha).coarse.trans b b' hab ((finer b hb).imp b' hbb'))
    obtain rfl : i = j := by
      by_contra hne
      rw [h'.differ i hi j hj hne a' b' ha' hb'] at hs
      cases hs
    obtain rfl : a' = b' := Option.some_inj.mp (ha'.symm.trans hb')
    exact (finer a ha).fine.trans a' b haa' ((finer b hb).fine.symm a' hbb')
  · intro hfine
    refine keepsFirsts_of_firsts (fun a ha => (finer a ha).coarse) h.increasing fun i => ?_
    rw [h.firsts]
    refine isFirst_congr fun b hb a ha => Bool.eq_iff_iff.mpr ⟨(finer b hb).imp a, hfine b hb a ha⟩

end

/-! ### Going through the nodes -/

namespace Node

variable {place : Nat} {kept seen ns : List Node}

/-- The nodes that were kept stand for those that were seen. -/
structure StandFor (kept seen : List Node) : Prop where
  comparable : ∀ n ∈ kept, n.Comparable
  subset : kept ⊆ seen
  covers : ∀ m ∈ seen, ∃ k ∈ kept, k.same .kept m = true

/-- A node is new to the nodes that were kept if it is new to those that were seen. -/
theorem StandFor.any_eq_false_iff (h : StandFor kept seen) (n : Node) :
    kept.any (same .kept · n) = false ↔ ∀ m ∈ seen, m.same .kept n = false := by
  rw [List.any_eq_false]
  constructor
  · intro hnew m hm
    obtain ⟨k, hk, hkm⟩ := h.covers m hm
    rw [Bool.eq_false_iff]
    intro hmn
    exact hnew k hk ((h.comparable k hk).finerAt.fine.trans m n hkm hmn)
  · intro hnew k hk
    rw [hnew k (h.subset hk)]
    exact Bool.false_ne_true

theorem StandFor.keep (h : StandFor kept seen) {n : Node} (hn : n.Comparable) :
    StandFor (n :: kept) (seen ++ [n]) where
  comparable := List.forall_mem_cons.mpr ⟨hn, h.comparable⟩
  subset := by
    intro m hm
    rcases List.mem_cons.mp hm with rfl | hm
    · simp
    · exact List.mem_append_left _ (h.subset hm)
  covers m hm := by
    rcases List.mem_append.mp hm with hm | hm
    · obtain ⟨k, hk, hkm⟩ := h.covers m hm
      exact ⟨k, List.mem_cons_of_mem _ hk, hkm⟩
    · obtain rfl := List.mem_singleton.mp hm
      exact ⟨m, List.mem_cons_self, hn.finerAt.fine.refl⟩

theorem StandFor.skip (h : StandFor kept seen) {n : Node}
    (known : kept.any (same .kept · n) = true) : StandFor kept (seen ++ [n]) where
  comparable := h.comparable
  subset := fun _ hm => List.mem_append_left _ (h.subset hm)
  covers m hm := by
    rcases List.mem_append.mp hm with hm | hm
    · exact h.covers m hm
    · obtain rfl := List.mem_singleton.mp hm
      exact List.any_eq_true.mp known

theorem le_of_mem_go {i : Nat} (h : i ∈ distinct.go place kept ns) : place ≤ i := by
  induction ns generalizing place kept with
  | nil => cases h
  | cons n ns ih =>
      unfold distinct.go at h
      split at h
      · exact Nat.le_of_succ_le (ih h)
      · rcases List.mem_cons.mp h with rfl | h
        · exact Nat.le_refl _
        · exact Nat.le_of_succ_le (ih h)

theorem pairwise_go : (distinct.go place kept ns).Pairwise (· < ·) := by
  induction ns generalizing place kept with
  | nil => exact List.Pairwise.nil
  | cons n ns ih =>
      unfold distinct.go
      split
      · exact ih
      · exact List.pairwise_cons.mpr ⟨fun i hi => le_of_mem_go hi, ih⟩

theorem place_mem_go_cons {n : Node} :
    place ∈ distinct.go place kept (n :: ns) ↔ kept.any (same .kept · n) = false := by
  have hlater {kept' : List Node} : place ∉ distinct.go (place + 1) kept' ns := fun h =>
    absurd (le_of_mem_go h) (Nat.not_succ_le_self place)
  unfold distinct.go
  split
  · rename_i known
    simp [known, hlater]
  · rename_i new
    simp [Bool.eq_false_iff.mpr new]

/-- From a place on, the places are kept whose nodes are new. -/
theorem mem_go (standFor : StandFor kept seen) (comparable : ∀ n ∈ ns, n.Comparable) (i : Nat) :
    place + i ∈ distinct.go place kept ns ↔ IsFirst (same .kept) seen ns i := by
  induction ns generalizing place kept seen i with
  | nil => simp [distinct.go, IsFirst]
  | cons n ns ih =>
      obtain ⟨hn, hns⟩ := List.forall_mem_cons.mp comparable
      cases i with
      | zero => rw [Nat.add_zero, place_mem_go_cons, isFirst_zero, standFor.any_eq_false_iff]
      | succ i =>
          have hplace : place + (i + 1) = place + 1 + i := by omega
          rw [isFirst_succ, hplace]
          unfold distinct.go
          split
          · rename_i known
            exact ih (standFor.skip known) hns i
          · have hne : place + 1 + i ≠ place := by omega
            rw [List.mem_cons, or_iff_right hne]
            exact ih (standFor.keep hn) hns i

/-- A collection that takes only one of each keeps the first node of every class, with the order of
the entries of aggregates.  They are one of each class of equal nodes exactly if equal nodes have
the entries in the same order. -/
theorem distinct_keepsFirsts {nodes : List Node} (comparable : ∀ n ∈ nodes, n.Comparable) :
    KeepsFirsts (same .kept) nodes (distinct nodes) ∧
      (KeepsFirsts equal nodes (distinct nodes) ↔
        ∀ m ∈ nodes, ∀ n ∈ nodes, m.equal n = true → m.same .kept n = true) := by
  have hfirsts : ∀ i, i ∈ distinct nodes ↔ IsFirst (same .kept) [] nodes i := by
    intro i
    have hnone : StandFor [] [] := ⟨by simp, by simp, by simp⟩
    have hgo : 0 + i ∈ distinct nodes ↔ IsFirst (same .kept) [] nodes i :=
      mem_go hnone comparable i
    rwa [Nat.zero_add] at hgo
  have hkeeps : KeepsFirsts (same .kept) nodes (distinct nodes) :=
    keepsFirsts_of_firsts (fun n hn => (comparable n hn).finerAt.fine) pairwise_go hfirsts
  exact ⟨hkeeps, keepsFirsts_iff_of_finer (fun n hn => (comparable n hn).finerAt) hkeeps⟩

/-- Options whose aggregates have the same numbers, written as numbers of other kinds, count as
one. -/
theorem distinct_keepsFirsts_of_options :
    let first : Setting :=
      ⟨"o", .aggregate [("a", .bool true), ("b", .float (.finite true .zero))], false⟩
    let second : Setting := ⟨"o", .aggregate [("a", .int 1), ("b", .bool false)], false⟩
    let third : Setting := ⟨"o", .aggregate [("a", .int 1), ("b", .int 1)], false⟩
    let nodes : List Node := [.setting first, .setting second, .setting third]
    (∀ n ∈ nodes, n.Comparable) ∧ KeepsFirsts equal nodes [0, 2] := by
  intro first second third nodes
  have hcomparable : ∀ n ∈ nodes, n.Comparable := by
    have hentries {v w : Value} (hv : v.Comparable) (hw : w.Comparable) :
        (Value.aggregate [("a", v), ("b", w)]).Comparable :=
      .aggregate (by simp) (by simp [hv, hw])
    have hfirst : first.value.Comparable := hentries (.bool true) (.float (by simp))
    have hsecond : second.value.Comparable := hentries (.int 1) (.bool false)
    have hthird : third.value.Comparable := hentries (.int 1) (.int 1)
    simp [nodes, Node.Comparable, Node.settings, hfirst, hsecond, hthird]
  have hdistinct : distinct nodes = [0, 2] := by decide +kernel
  have hsame : ∀ m ∈ nodes, ∀ n ∈ nodes, m.equal n = true → m.same .kept n = true := by
    decide +kernel
  have hkeeps := (distinct_keepsFirsts hcomparable).2.mpr hsame
  exact ⟨hcomparable, hdistinct ▸ hkeeps⟩

/-- Of two equal options both are kept if the entries of their aggregates differ in their order. -/
theorem not_distinct_keepsFirsts :
    ¬∀ nodes : List Node, (∀ n ∈ nodes, n.Comparable) →
      KeepsFirsts equal nodes (distinct nodes) := by
  intro h
  let first : Setting := ⟨"o", .aggregate [("a", .int 1), ("b", .int 2)], false⟩
  let second : Setting := ⟨"o", .aggregate [("b", .int 2), ("a", .int 1)], false⟩
  have hfirst : first.value.Comparable :=
    .aggregate (by decide) (by simp [Value.Comparable.int])
  have hsecond : second.value.Comparable :=
    .aggregate (by decide) (by simp [Value.Comparable.int])
  have hkeeps := h [.setting first, .setting second]
    (by simp [Node.Comparable, Node.settings, hfirst, hsecond])
  have hdistinct : distinct [.setting first, .setting second] = [0, 1] := by decide +kernel
  rw [hdistinct] at hkeeps
  have hdiffer := hkeeps.differ 0 (by simp) 1 (by simp) (by decide) _ _ rfl rfl
  have hequal : equal (.setting first) (.setting second) = true := by decide +kernel
  rw [hequal] at hdiffer
  cases hdiffer

end Node

end Proto2

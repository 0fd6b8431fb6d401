import Mathlib.Data.List.Forall2
import Proto2.Corpus.Draw

/-!
What generators yield.

`Yields d g P` says that what the generator makes has the property, whatever the source `d` draws
on the way.  There is a rule for each way in which generators are put together, so that a
generator is gone through in the order of its draws.
-/

namespace Proto2.Generator

variable {σ α β : Type} {d : DrawSource σ}

/-- From every state of the source, the generator makes something with the property. -/
def Yields (d : DrawSource σ) (g : Generator σ α) (P : α → Prop) : Prop :=
  ∀ s, P (g.run d s).1

namespace Yields

variable {g : Generator σ α} {P Q : α → Prop}

theorem any (g : Generator σ α) : Yields d g fun _ => True :=
  fun _ => trivial

theorem pure {a : α} (h : P a) : Yields d (pure a) P :=
  fun _ => h

theorem mono (h : Yields d g P) (imp : ∀ a, P a → Q a) : Yields d g Q :=
  fun s => imp _ (h s)

theorem bind {f : α → Generator σ β} {R : β → Prop} (h : Yields d g P)
    (rest : ∀ a, P a → Yields d (f a) R) : Yields d (g >>= f) R :=
  fun s => rest _ (h s) _

/-! ### Draws -/

theorem below (inRange : d.InRange) {bound : Nat} (positive : 0 < bound) :
    Yields d (below bound) (· < bound) :=
  fun s => inRange bound s positive

/-- Nothing is drawn below a range. -/
theorem between_least (low high : Nat) : Yields d (Generator.between low high) (low ≤ ·) :=
  .bind (any _) fun n _ => .pure (Nat.le_add_right low n)

theorem between (inRange : d.InRange) {low high : Nat} (ordered : low ≤ high) :
    Yields d (between low high) fun n => low ≤ n ∧ n ≤ high := by
  refine .bind (below inRange (Nat.succ_pos _)) fun n hn => .pure ?_
  omega

theorem oneOf {first : α} {rest : List α} (h : ∀ a ∈ first :: rest, P a) :
    Yields d (oneOf first rest) P := by
  refine .bind (any _) fun i _ => .pure (h _ ?_)
  cases hi : (first :: rest)[i]? with
  | none => exact List.mem_cons_self
  | some a => exact List.mem_of_getElem? hi

/-! ### Many values -/

/-- Each value has the property of its place. -/
theorem placesFrom {make : Nat → Generator σ α} {R : Nat → α → Prop}
    (h : ∀ i, Yields d (make i) (R i)) (place count : Nat) :
    Yields d (placesFrom make place count) fun as =>
      List.Forall₂ R (List.range' place count) as := by
  induction count generalizing place with
  | zero => exact .pure .nil
  | succ count ih =>
      rw [Generator.placesFrom]
      refine .bind (h place) fun first hfirst => .bind (ih (place + 1)) fun rest hrest => .pure ?_
      exact .cons hfirst hrest

theorem places {make : Nat → Generator σ α} {R : Nat → α → Prop}
    (h : ∀ i, Yields d (make i) (R i)) (count : Nat) :
    Yields d (places count make) fun as => List.Forall₂ R (List.range' 0 count) as :=
  placesFrom h 0 count

theorem forall_mem_of_forall₂ {is : List Nat} {as : List α} (h : List.Forall₂ (fun _ => P) is as) :
    ∀ a ∈ as, P a := by
  induction h with
  | nil => simp
  | cons head tail ih => simpa using ⟨head, ih⟩

/-- A property that does not depend on the place. -/
theorem times (h : Yields d g P) (count : Nat) :
    Yields d (times count g) fun as => as.length = count ∧ ∀ a ∈ as, P a := by
  refine (places (fun _ => h) count).mono fun as has => ⟨?_, ?_⟩
  · rw [← has.length_eq, List.length_range']
  · exact forall_mem_of_forall₂ has

/-! ### Samples -/

theorem mem_of_mem_takeOut {xs : List α} {i : Nat} {a : α} (h : a ∈ takeOut xs i) : a ∈ xs := by
  unfold takeOut at h
  split at h
  · rename_i last hlast
    rcases List.mem_or_eq_of_mem_set (List.dropLast_subset _ h) with h | rfl
    · exact h
    · exact List.mem_of_getLast? hlast
  · cases h

/-- Values that are taken out of a list are among those it had. -/
theorem samplePool (xs : List α) (count : Nat) :
    Yields d (samplePool xs count) fun as => ∀ a ∈ as, a ∈ xs := by
  induction count generalizing xs with
  | zero => exact .pure (by simp)
  | succ count ih =>
      rw [Generator.samplePool]
      refine .bind (any _) fun i _ => .bind (ih (takeOut xs i)) fun rest hrest => .pure ?_
      intro a ha
      rcases List.mem_append.mp ha with ha | ha
      · exact List.mem_of_getElem? (Option.mem_toList.mp ha)
      · exact mem_of_mem_takeOut (hrest a ha)

theorem sampleAnew (xs : List α) (taken : List Nat) (count : Nat) :
    Yields d (sampleAnew xs taken count) fun as => ∀ a ∈ as, a ∈ xs := by
  induction count generalizing taken with
  | zero => exact .pure (by simp)
  | succ count ih =>
      rw [Generator.sampleAnew]
      refine .bind (any _) fun i _ => .bind (ih (i :: taken)) fun rest hrest => .pure ?_
      intro a ha
      rcases List.mem_append.mp ha with ha | ha
      · exact List.mem_of_getElem? (Option.mem_toList.mp ha)
      · exact hrest a ha

/-- A sample of a list has only values of the list. -/
theorem sample (xs : List α) (count : Nat) :
    Yields d (sample xs count) fun as => ∀ a ∈ as, a ∈ xs := by
  unfold Generator.sample
  split
  · exact samplePool xs count
  · exact sampleAnew xs [] count

end Yields

end Proto2.Generator

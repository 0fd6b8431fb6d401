/-!
Entries under keys, in order.

A key has its place from its first entry on: a later entry under the same key replaces or
extends the value there and leaves the order as it is.
-/

namespace Proto2.Entries

variable {α : Type}

/-- The entries with a value under a key: in place if the key is there, else at the end. -/
def put (key : String) (value : α) : List (String × α) → List (String × α)
  | [] => [(key, value)]
  | (k, v) :: es => if k = key then (k, value) :: es else (k, v) :: put key value es

/-- The value under a key. -/
def get? (key : String) : List (String × α) → Option α
  | [] => none
  | (k, v) :: es => if k = key then some v else get? key es

/-- Entries put one after the other; the last one under a key counts. -/
def ofList (entries : List (String × α)) : List (String × α) :=
  entries.foldl (fun dict e => put e.1 e.2 dict) []

@[simp] theorem get?_nil (key : String) : get? key ([] : List (String × α)) = none := rfl

theorem get?_put_self (key : String) (value : α) (es : List (String × α)) :
    get? key (put key value es) = some value := by
  induction es with
  | nil => simp [put, get?]
  | cons e es ih =>
    unfold put
    split
    · simp [get?, *]
    · simp [get?, *]

theorem get?_put_ne {key other : String} (h : other ≠ key) (value : α)
    (es : List (String × α)) : get? other (put key value es) = get? other es := by
  induction es with
  | nil => simp [put, get?, Ne.symm h]
  | cons e es ih =>
    unfold put
    split
    · rename_i same
      simp [get?, same, Ne.symm h]
    · simp [get?, ih]

theorem mem_of_get? {key : String} {value : α} {es : List (String × α)}
    (h : get? key es = some value) : (key, value) ∈ es := by
  induction es with
  | nil => cases h
  | cons f es ih =>
      unfold get? at h
      split at h
      · rename_i hkey
        cases h
        rw [← hkey]
        exact List.mem_cons_self
      · exact List.mem_cons_of_mem _ (ih h)

/-- If no key is there twice, every entry is the one under its key. -/
theorem get?_of_mem {e : String × α} {es : List (String × α)} (distinct : (es.map Prod.fst).Nodup)
    (h : e ∈ es) : get? e.1 es = some e.2 := by
  induction es with
  | nil => cases h
  | cons f es ih =>
      rw [List.map_cons, List.nodup_cons] at distinct
      unfold get?
      rcases List.mem_cons.mp h with rfl | h
      · rw [if_pos rfl]
      · have hkey : f.1 ≠ e.1 := by
          intro heq
          exact distinct.1 (heq ▸ List.mem_map_of_mem h)
        rw [if_neg hkey, ih distinct.2 h]

/-- The keys after an entry is put: the old ones in their order, and a new one last. -/
theorem keys_put (key : String) (value : α) (es : List (String × α)) :
    (put key value es).map Prod.fst =
      if key ∈ es.map Prod.fst then es.map Prod.fst else es.map Prod.fst ++ [key] := by
  induction es with
  | nil => simp [put]
  | cons e es ih =>
    unfold put
    split
    · simp [*]
    · rename_i differs
      have : key ≠ e.1 := Ne.symm differs
      by_cases h : key ∈ es.map Prod.fst <;> simp_all

end Proto2.Entries

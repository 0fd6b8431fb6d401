import Mathlib.Data.List.Induction
import Proto2.Proofs.Setting.Values

/-!
Keys that are repeated in an aggregate.

An aggregate has each key once, at the place of its first entry.  A single value is kept as it is;
several values under one key become a list of what each of them contributes, which are the items of
a list and any other value itself.  Entries are collected one by one, and what is there already may
be a list because a value was one or because values were joined: it contributes the same to the
next join either way.
-/

namespace Proto2

/-- The values that entries have under a key. -/
def Entries.all {α : Type} (key : String) (es : List (String × α)) : List α :=
  es.filterMap fun e => if e.1 = key then some e.2 else none

namespace Value

/-- What an aggregate has for the values under one key: a single value as it is, and for several a
list of what they contribute. -/
def joined? : List Value → Option Value
  | [] => none
  | [v] => some v
  | vs => some (.list (vs.flatMap items))

/-- The aggregate has the keys of the entries, each once and in the order in which they come first,
and for each key the values under it. -/
structure Collects (es dict : List (String × Value)) : Prop where
  keys : dict.map Prod.fst = (es.map Prod.fst).eraseDups
  values : ∀ key, Entries.get? key dict = joined? (Entries.all key es)

theorem joined?_concat (vs : List Value) (v : Value) :
    joined? (vs ++ [v]) =
      some (match joined? vs with
        | none => v
        | some earlier => .list (earlier.items ++ v.items)) := by
  cases vs with
  | nil => rfl
  | cons w ws =>
      cases ws with
      | nil => simp [joined?]
      | cons x xs => simp [joined?, items]

/-- One more entry. -/
theorem collect_eq (dict : List (String × Value)) (key : String) (v : Value) :
    collect dict key v =
      Entries.put key (match Entries.get? key dict with
        | none => v
        | some earlier => .list (earlier.items ++ v.items)) dict := by
  unfold collect
  cases Entries.get? key dict <;> rfl

theorem Collects.concat {es dict : List (String × Value)} (h : Collects es dict) (key : String)
    (v : Value) : Collects (es ++ [(key, v)]) (collect dict key v) where
  keys := by
    rw [collect_eq, Entries.keys_put, h.keys, List.map_append, List.eraseDups_append]
    simp only [List.mem_eraseDups]
    by_cases hkey : key ∈ es.map Prod.fst
    · have hnone : [key].removeAll (es.map Prod.fst) = [] := by simp [List.removeAll, hkey]
      rw [if_pos hkey, List.map_singleton, hnone, List.eraseDups_nil, List.append_nil]
    · have hone : [key].removeAll (es.map Prod.fst) = [key] := by simp [List.removeAll, hkey]
      rw [if_neg hkey, List.map_singleton, hone]
      rfl
  values := by
    intro other
    rw [collect_eq]
    rcases eq_or_ne other key with rfl | hne
    · rw [Entries.get?_put_self, h.values, ← joined?_concat]
      simp [Entries.all]
    · rw [Entries.get?_put_ne hne, h.values]
      simp [Entries.all, hne.symm]

/-- Entries are collected without loss. -/
theorem collects_foldl (es : List (String × Value)) :
    Collects es (es.foldl (fun dict e => collect dict e.1 e.2) []) := by
  -- The invariant of the loop over the entries: what is collected so far is right for them.
  induction es using List.reverseRecOn with
  | nil => exact ⟨rfl, fun _ => rfl⟩
  | append_singleton es e ih =>
      rw [List.foldl_append]
      exact ih.concat e.1 e.2

end Value

/-- Tokens hold one value only. -/
theorem Stands.value_unique {v w : Value} {ts us : List Token} (h : Stands (.value v) ts us)
    (h' : Stands (.value w) ts us) : v = w := by
  have hread : Parser.Complete ts.length (.value v) ts us :=
    Parser.complete_of_stands h _ (by omega)
  have hread' : Parser.Complete ts.length (.value w) ts us :=
    Parser.complete_of_stands h' _ (by omega)
  exact (hread.unique hread').1

namespace Parser

/-- Between the braces of an aggregate that is read stand entries, and the aggregate has of them
each key once, and all the values under it. -/
theorem aggregate_collects {depth : Nat} {s s' : TokenStream} {dict : List (String × Value)}
    (h : valueWithin depth s = .ok (.aggregate dict) s') :
    ∃ opening closing ts, s.tokens = opening :: ts ∧ opening.kind = .openBrace ∧
      closing.kind = .closeBrace ∧ (∃ es, Stands (.entries es) ts (closing :: s'.tokens)) ∧
      ∀ es, Stands (.entries es) ts (closing :: s'.tokens) → Value.Collects es dict := by
  have hstands : Stands (.value (.aggregate dict)) s.tokens s'.tokens :=
    sound_valueWithin depth _ _ _ (TokenDriven.reads h)
  generalize s.tokens = before at hstands
  generalize hv : Value.aggregate dict = v at hstands
  cases hstands with
  | @aggregate opening closing ts _ es openKind entries closeKind =>
      refine ⟨opening, closing, ts, rfl, openKind, closeKind, ⟨es, entries⟩, fun es' entries' => ?_⟩
      have heq := (Stands.aggregate openKind entries' closeKind).value_unique
        (.aggregate openKind entries closeKind)
      cases hv.trans heq.symm
      exact Value.collects_foldl es'
  | _ => cases hv

/-- What is to be seen of an aggregate that is read. -/
theorem exists_aggregate_of_keys (p : Parser Value) (s : TokenStream) {keys : List String}
    (h : (match p s with
      | .ok (.aggregate dict) _ => some (dict.map Prod.fst)
      | _ => none) = some keys) :
    ∃ dict s', p s = .ok (.aggregate dict) s' ∧ dict.map Prod.fst = keys := by
  split at h
  · rename_i dict s' hrun
    exact ⟨dict, s', hrun, Option.some.inj h⟩
  · cases h

/-- The second of the three values under the key `a` is a list, and the only one under `b` too. -/
theorem aggregate_collects_mixed :
    ∃ dict s', valueWithin 9 (.ofText "f.proto" "\x7ba: 1, b: [5] a [3, 3]; a: 4\x7d".toList) =
        .ok (.aggregate dict) s' ∧ dict.map Prod.fst = ["a", "b"] ∧
      ∃ ts es closing, Stands (.entries es) ts (closing :: s'.tokens) ∧
        Value.Collects es dict := by
  obtain ⟨dict, s', hrun, hkeys⟩ := exists_aggregate_of_keys (valueWithin 9)
    (.ofText "f.proto" "\x7ba: 1, b: [5] a [3, 3]; a: 4\x7d".toList)
    (by decide +kernel : _ = some ["a", "b"])
  obtain ⟨opening, closing, ts, -, -, -, ⟨es, hes⟩, hall⟩ := aggregate_collects hrun
  exact ⟨dict, s', hrun, hkeys, ts, es, closing, hes, hall es hes⟩

end Parser

end Proto2

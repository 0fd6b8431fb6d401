import Proto2.Proofs.Schema.Ends

/-!
The numbers in declarations.

An error about a declaration shows tags or the ends of a range.  They are integers of the text,
or the greatest tag, so they can be written if the integers of the text can.
-/

namespace Proto2

open Proto2.Parser

/-- The numbers that an error about the declaration may show. -/
def Node.numbers : Node → List Int
  | .field f => [f.tag]
  | .enumValue v => [v.tag]
  | .extensionRange r => [r.start, r.stop]
  | .enumeration e => e.values.map (·.tag)
  | .message m => m.fields.map (·.tag)
  | .extension e => e.fields.map (·.tag)
  | _ => []

/-- The numbers that an error about the declaration may show can be written. -/
def Node.IsWritable (n : Node) : Prop :=
  ∀ k ∈ n.numbers, Numeral.isWritable k = true

theorem Node.Violates.numbers_subset {n : Node} {e : ModelError} (h : n.Violates e) :
    e.numbers ⊆ n.numbers := by
  cases h with
  | fieldTag | valueTag | range => exact List.Subset.refl _
  | aliasTwice | valueNames => exact List.nil_subset _
  | valueTags _ _ h | messageTags h | extensionTags h =>
      intro k hk
      rw [List.mem_singleton.mp hk]
      exact h.mem

/-- An error about a declaration whose numbers can be written is shown as such. -/
theorem Node.Violates.ofModelError_eq {n : Node} {e : ModelError} (h : n.Violates e)
    (writable : n.IsWritable) : BuildError.ofModelError e = .invalid e := by
  rw [BuildError.ofModelError, if_pos (List.all_eq_true.mpr fun k hk =>
    writable k (h.numbers_subset hk))]

/-! ### Integers of the text -/

/-- The number that the token denotes, if it denotes one, can be written. -/
def Token.IsWritable (t : Token) : Prop :=
  t.kind = .integer → ∀ n, t.integerValue = .ok n → Numeral.isWritable n = true

/-- The integers among the tokens can be written. -/
def AllWritable (ts : List Token) : Prop :=
  ∀ t ∈ ts, t.IsWritable

section Writable

variable {ts us : List Token}

theorem AllWritable.tail {t : Token} (h : AllWritable (t :: ts)) : AllWritable ts :=
  fun u hu => h u (List.mem_cons_of_mem _ hu)

theorem AllWritable.head {t : Token} {n : Int} (h : AllWritable (t :: ts))
    (kind : t.kind = .integer) (value : t.integerValue = .ok n) : Numeral.isWritable n = true :=
  h t List.mem_cons_self kind n value

theorem Tag.isWritable_of_le {n : Int} (lower : least ≤ n) (upper : n ≤ greatest) :
    Numeral.isWritable n = true := by
  have hsmall : n.natAbs < 10 ^ 9 := by
    rw [least] at lower
    rw [greatest] at upper
    omega
  exact decide_eq_true (Nat.lt_of_lt_of_le hsmall
    (Nat.pow_le_pow_right (by decide) (by decide : 9 ≤ Numeral.digitLimit)))

theorem Tag.isWritable_greatest : Numeral.isWritable greatest = true :=
  isWritable_of_le (by decide) (Int.le_refl _)

theorem FieldAt.isWritable {f : Field} (h : FieldAt ts f us) (writable : AllWritable ts) :
    (Node.field f).IsWritable := by
  cases h with
  | mk kind known typeName nameKind equalsKind numberKind value =>
      have hname := (typeName.begins : Begins Token.HasValue _ _ _).forall_mem writable.tail
      simpa [Node.IsWritable, Node.numbers] using
        (AllWritable.tail (AllWritable.tail hname)).head numberKind value

theorem RangeAt.isWritable {doc : String} {r : ExtensionRange} (h : RangeAt doc ts r us)
    (writable : AllWritable ts) : (Node.extensionRange r).IsWritable := by
  simp only [Node.IsWritable, Node.numbers, List.mem_cons, List.not_mem_nil, or_false,
    forall_eq_or_imp, forall_eq]
  cases h with
  | single kind value => exact ⟨writable.head kind value, writable.head kind value⟩
  | between kind value isWord lastKind lastValue =>
      exact ⟨writable.head kind value, writable.tail.tail.head lastKind lastValue⟩
  | onwards kind value =>
      exact ⟨writable.head kind value, Tag.isWritable_greatest⟩

theorem EnumValueAt.isWritable {v : EnumValue} (h : EnumValueAt ts v us)
    (writable : AllWritable ts) : (Node.enumValue v).IsWritable := by
  cases h with
  | mk kind equalsKind numberKind value =>
      simpa [Node.IsWritable, Node.numbers] using writable.tail.tail.head numberKind value

/-- Declarations, and one behind them that shows no numbers but theirs. -/
theorem forall_isWritable_of_shown {ns : List Node} {n : Node} (each : ∀ m ∈ ns, m.IsWritable)
    (shown : ∀ k ∈ n.numbers, ∃ m ∈ ns, k ∈ m.numbers) : ∀ m ∈ ns ++ [n], m.IsWritable := by
  refine List.forall_mem_append.mpr ⟨each, List.forall_mem_singleton.mpr fun k hk => ?_⟩
  obtain ⟨m, hm, hk⟩ := shown k hk
  exact each m hm k hk

/-- An enum shows the tags of its values. -/
theorem Enumeration.forall_nodes_isWritable {e : Enumeration}
    (values : ∀ v ∈ e.values, (Node.enumValue v).IsWritable) : ∀ n ∈ e.nodes, n.IsWritable := by
  refine forall_isWritable_of_shown (List.forall_mem_map.mpr values) fun k hk => ?_
  obtain ⟨v, hv, rfl⟩ := List.mem_map.mp hk
  exact ⟨_, List.mem_map_of_mem hv, List.mem_cons_self⟩

/-- An extension shows the tags of its fields. -/
theorem Extend.forall_nodes_isWritable {e : Extend}
    (fields : ∀ f ∈ e.fields, (Node.field f).IsWritable) : ∀ n ∈ e.nodes, n.IsWritable := by
  refine forall_isWritable_of_shown (List.forall_mem_map.mpr fields) fun k hk => ?_
  obtain ⟨f, hf, rfl⟩ := List.mem_map.mp hk
  exact ⟨_, List.mem_map_of_mem hf, List.mem_cons_self⟩

theorem EnumerationAt.isWritable {scope : Scope} {e : Enumeration}
    (h : EnumerationAt scope ts e us) (writable : AllWritable ts) :
    ∀ n ∈ e.nodes, n.IsWritable := by
  cases h with
  | mk isWord kind openKind body closeKind =>
      refine Enumeration.forall_nodes_isWritable (List.forall_mem_filterMap.mpr ?_)
      refine body.forall_of_tokens EnumItemAt.begins (fun h writable v hv => ?_)
        writable.tail.tail.tail
      cases h with
      | value h =>
          cases hv
          exact h.isWritable writable
      | _ => cases hv

theorem ExtendAt.isWritable {scope : Scope} {e : Extend} (h : ExtendAt scope ts e us)
    (writable : AllWritable ts) : ∀ n ∈ e.nodes, n.IsWritable := by
  cases h with
  | mk isWord extended openKind body closeKind =>
      have hopening := (extended.begins : Begins Token.HasValue _ _ _).forall_mem writable.tail
      refine Extend.forall_nodes_isWritable (List.forall_mem_filterMap.mpr ?_)
      refine body.forall_of_tokens ExtendItemAt.begins (fun h writable f hf => ?_)
        (AllWritable.tail hopening)
      cases h with
      | field h =>
          cases hf
          exact h.isWritable writable
      | empty => cases hf

theorem PlainItemAt.isWritable {scope : Scope} {item : MessageItem}
    (h : PlainItemAt scope ts item us) (writable : AllWritable ts) :
    ∀ n ∈ item.nodes, n.IsWritable := by
  cases h with
  | empty | option => exact List.forall_mem_nil _
  | field h => simpa [MessageItem.nodes] using h.isWritable writable
  | enumeration h => exact h.isWritable writable
  | ranges h =>
      cases h with
      | mk isWord ranges semiKind =>
          exact List.forall_mem_map.mpr (ranges.forall_of_tokens (fun h => h.begins)
            (fun h writable => h.isWritable writable) writable.tail)
  | extension h => exact h.isWritable writable

/-- A message shows the tags of its fields, which end before it. -/
theorem MessageEnds.isWritable {scope : Scope} {part : MessagePart} {ns : List Node}
    (h : MessageEnds scope part ns ts us) (writable : AllWritable ts) :
    ∀ n ∈ ns, n.IsWritable := by
  induction h with
  | message isWord kind openKind body closeKind ih =>
      refine forall_isWritable_of_shown (ih writable.tail.tail.tail) fun k hk => ?_
      obtain ⟨f, hf, rfl⟩ := List.mem_map.mp hk
      obtain ⟨i, hi, hf⟩ := List.mem_filterMap.mp hf
      exact ⟨_, body.mem_iff.mpr ⟨i, hi, .field hf rfl⟩, List.mem_cons_self⟩
  | noItems => exact List.forall_mem_nil _
  | plain head tail ih =>
      exact List.forall_mem_append.mpr
        ⟨head.isWritable writable, ih (head.begins.forall_mem writable)⟩
  | nested head tail ih₁ ih₂ =>
      exact List.forall_mem_append.mpr
        ⟨ih₁ writable, ih₂ (head.at.begins.forall_mem writable)⟩

theorem FileItemAt.allWritable {package : Option String} {item : FileItem}
    (h : FileItemAt package ts item us) (writable : AllWritable ts) : AllWritable us := by
  rcases h.begins with ⟨-, hbegins⟩ | ⟨-, -, hbegins⟩ <;> exact hbegins.forall_mem writable

theorem FileItemEnds.isWritable {package : Option String} {item : FileItem} {ns : List Node}
    (h : FileItemEnds package ts item ns us) (writable : AllWritable ts) :
    ∀ n ∈ ns, n.IsWritable := by
  cases h with
  | message h => exact h.isWritable writable
  | enumeration h => exact h.isWritable writable
  | extension h => exact h.isWritable writable
  | other => exact List.forall_mem_nil _

/-- The numbers of the declarations in a file can be written if the integers in its text can. -/
theorem FileItemsEnd.isWritable {package : Option String} {items : List FileItem} {ns : List Node}
    (h : FileItemsEnd package ts items ns us) (writable : AllWritable ts) :
    ∀ n ∈ ns, n.IsWritable := by
  induction h with
  | nil => exact List.forall_mem_nil _
  | cons head tail ih =>
      exact List.forall_mem_append.mpr
        ⟨head.isWritable writable, ih (head.at.allWritable writable)⟩

end Writable

end Proto2

import Proto2.Proofs.Schema.Grammar
import Proto2.Proofs.Schema.Messages
import Proto2.Proofs.Schema.Rules

/-!
The order in which declarations end.

What is declared in a declaration ends before it, and in its order.  A message is read as its
items, of each kind apart, so the order of what is in it is only to be seen in the tokens:
`MessageEnds` is `MessageAt` with the declarations as they end.
-/

namespace Proto2

open Proto2.Parser

variable {ts us : List Token}

/-! ### Declarations in order -/

/-- The declarations in an item of an enum. -/
def Parser.EnumItem.nodes : EnumItem → List Node
  | .value v => [.enumValue v]
  | _ => []

/-- The values of an enum, and the enum behind them. -/
def Enumeration.nodes (e : Enumeration) : List Node :=
  e.values.map .enumValue ++ [.enumeration e]

/-- The fields of an extension, and the extension behind them. -/
def Extend.nodes (e : Extend) : List Node :=
  e.fields.map .field ++ [.extension e]

/-- The declarations in an item of a message that is not a message itself. -/
def Parser.MessageItem.nodes : MessageItem → List Node
  | .field f => [.field f]
  | .enumeration e => e.nodes
  | .extensionRanges rs => rs.map .extensionRange
  | .extension e => e.nodes
  | _ => []

/-- The tokens start with a message, or with items of one, and go on with the given ones; the
declarations end in the given order. -/
inductive MessageEnds : Scope → MessagePart → List Node → List Token → List Token → Prop
  | message {scope : Scope} {word name opening closing : Token} {ts us : List Token}
      {items : List MessageItem} {ns : List Node} (isWord : word.isWord "message")
      (kind : name.kind = .identifier) (openKind : opening.kind = .openBrace)
      (body : MessageEnds (scope.nested name.lexeme) (.items items) ns ts (closing :: us))
      (closeKind : closing.kind = .closeBrace) :
      MessageEnds scope (.message (messageOfItems scope name.lexeme word.documentation items))
        (ns ++ [.message (messageOfItems scope name.lexeme word.documentation items).message])
        (word :: name :: opening :: ts) us
  | noItems {scope : Scope} {ts : List Token} : MessageEnds scope (.items []) [] ts ts
  | plain {scope : Scope} {ts ms us : List Token} {item : MessageItem}
      {items : List MessageItem} {ns : List Node} (head : PlainItemAt scope ts item ms)
      (tail : MessageEnds scope (.items items) ns ms us) :
      MessageEnds scope (.items (item :: items)) (item.nodes ++ ns) ts us
  | nested {scope : Scope} {ts ms us : List Token} {m : MessageWithExtensions}
      {items : List MessageItem} {ns ns' : List Node}
      (head : MessageEnds scope (.message m) ns ts ms)
      (tail : MessageEnds scope (.items items) ns' ms us) :
      MessageEnds scope (.items (.message m :: items)) (ns ++ ns') ts us

/-- The tokens start with an item of a file and go on with the given ones; the declarations in
it end in the given order. -/
inductive FileItemEnds (package : Option String) :
    List Token → FileItem → List Node → List Token → Prop
  | message {ts us : List Token} {m : MessageWithExtensions} {ns : List Node}
      (h : MessageEnds (.top package) (.message m) ns ts us) :
      FileItemEnds package ts (.message m) ns us
  | enumeration {ts us : List Token} {e : Enumeration}
      (h : EnumerationAt (.top package) ts e us) :
      FileItemEnds package ts (.enumeration e) e.nodes us
  | extension {ts us : List Token} {e : Extend} (h : ExtendAt (.top package) ts e us) :
      FileItemEnds package ts (.extension e) e.nodes us
  | other {ts us : List Token} {item : FileItem} (h : FileItemAt package ts item us)
      (noType : item.type? = none) (noExtension : item.extensions = []) :
      FileItemEnds package ts item [] us

/-- The items of a file up to the end of the input, and the order in which the declarations in
them end. -/
inductive FileItemsEnd : Option String → List Token → List FileItem → List Node → List Token → Prop
  | nil {package : Option String} {ts : List Token} (atEnd : AtKind .endOfInput ts) :
      FileItemsEnd package ts [] [] ts
  | cons {package : Option String} {ts ms us : List Token} {item : FileItem}
      {items : List FileItem} {ns ns' : List Node} (head : FileItemEnds package ts item ns ms)
      (tail : FileItemsEnd (item.package?.or package) ms items ns' us) :
      FileItemsEnd package ts (item :: items) (ns ++ ns') us

/-! ### There is an order, and it is one of what stands in the tokens -/

theorem MessageAt.exists_ends {scope : Scope} {part : MessagePart}
    (h : MessageAt scope part ts us) : ∃ ns, MessageEnds scope part ns ts us := by
  induction h with
  | message isWord kind openKind body closeKind ih =>
      obtain ⟨ns, h⟩ := ih
      exact ⟨_, .message isWord kind openKind h closeKind⟩
  | noItems => exact ⟨_, .noItems⟩
  | plain head tail ih =>
      obtain ⟨ns, h⟩ := ih
      exact ⟨_, .plain head h⟩
  | nested head tail ih₁ ih₂ =>
      obtain ⟨ns, h⟩ := ih₁
      obtain ⟨ns', h'⟩ := ih₂
      exact ⟨_, .nested h h'⟩

theorem MessageEnds.at {scope : Scope} {part : MessagePart} {ns : List Node}
    (h : MessageEnds scope part ns ts us) : MessageAt scope part ts us := by
  induction h with
  | message isWord kind openKind body closeKind ih =>
      exact .message isWord kind openKind ih closeKind
  | noItems => exact .noItems
  | plain head tail ih => exact .plain head ih
  | nested head tail ih₁ ih₂ => exact .nested ih₁ ih₂

theorem FileItemAt.exists_ends {package : Option String} {item : FileItem}
    (h : FileItemAt package ts item us) : ∃ ns, FileItemEnds package ts item ns us := by
  have hat := h
  cases h with
  | message h =>
      obtain ⟨ns, h⟩ := h.exists_ends
      exact ⟨ns, .message h⟩
  | enumeration h => exact ⟨_, .enumeration h⟩
  | extension h => exact ⟨_, .extension h⟩
  | _ => exact ⟨[], .other hat rfl rfl⟩

theorem FileItemsAt.exists_end {package : Option String} {items : List FileItem}
    (h : FileItemsAt package ts items us) : ∃ ns, FileItemsEnd package ts items ns us := by
  induction h with
  | nil atEnd => exact ⟨[], .nil atEnd⟩
  | cons head tail ih =>
      obtain ⟨ns, hhead⟩ := head.exists_ends
      obtain ⟨ns', htail⟩ := ih
      exact ⟨ns ++ ns', .cons hhead htail⟩

theorem FileItemEnds.at {package : Option String} {item : FileItem} {ns : List Node}
    (h : FileItemEnds package ts item ns us) : FileItemAt package ts item us := by
  cases h with
  | message h => exact .message h.at
  | enumeration h => exact .enumeration h
  | extension h => exact .extension h
  | other h => exact h

theorem FileItemsEnd.at {package : Option String} {items : List FileItem} {ns : List Node}
    (h : FileItemsEnd package ts items ns us) : FileItemsAt package ts items us := by
  induction h with
  | nil atEnd => exact .nil atEnd
  | cons head tail ih => exact .cons head.at ih

/-! ### What ends is what is declared -/

theorem Enumeration.mem_nodes {e : Enumeration} {n : Node} :
    n ∈ e.nodes ↔ (TypeDecl.enumeration e).Declares n := by
  simp only [nodes, List.mem_append, List.mem_map, List.mem_singleton]
  constructor
  · rintro (⟨v, hv, rfl⟩ | rfl)
    · exact .value hv
    · exact .enumeration
  · intro h
    cases h with
    | enumeration => exact .inr rfl
    | value hv => exact .inl ⟨_, hv, rfl⟩

theorem Extend.mem_nodes {e : Extend} {n : Node} : n ∈ e.nodes ↔ e.Declares n := by
  simp only [nodes, List.mem_append, List.mem_map, List.mem_singleton]
  constructor
  · rintro (⟨f, hf, rfl⟩ | rfl)
    · exact .field hf
    · exact .extension
  · intro h
    cases h with
    | extension => exact .inr rfl
    | field hf => exact .inl ⟨_, hf, rfl⟩

/-- The declaration is in the item, at any depth. -/
inductive Parser.MessageItem.Declares (i : MessageItem) (n : Node) : Prop
  | field {f : Field} (h : i.field? = some f) (eq : n = .field f)
  | range {r : ExtensionRange} (h : r ∈ i.ranges) (eq : n = .extensionRange r)
  | type {t : TypeDecl} (h : i.type? = some t) (inner : t.Declares n)
  | extension {e : Extend} (h : e ∈ i.extensions) (inner : e.Declares n)

theorem PlainItemAt.mem_nodes {scope : Scope} {item : MessageItem}
    (h : PlainItemAt scope ts item us) {n : Node} : n ∈ item.nodes ↔ item.Declares n := by
  cases h with
  | empty semi =>
      refine iff_of_false List.not_mem_nil ?_
      rintro (⟨⟨⟩, -⟩ | ⟨⟨⟩, -⟩ | ⟨⟨⟩, -⟩ | ⟨⟨⟩, -⟩)
  | option h =>
      refine iff_of_false List.not_mem_nil ?_
      rintro (⟨⟨⟩, -⟩ | ⟨⟨⟩, -⟩ | ⟨⟨⟩, -⟩ | ⟨⟨⟩, -⟩)
  | field h =>
      rw [MessageItem.nodes, List.mem_singleton]
      constructor
      · exact .field rfl
      · rintro (⟨⟨⟩, rfl⟩ | ⟨⟨⟩, -⟩ | ⟨⟨⟩, -⟩ | ⟨⟨⟩, -⟩)
        rfl
  | enumeration h =>
      rw [MessageItem.nodes, Enumeration.mem_nodes]
      constructor
      · exact .type rfl
      · rintro (⟨⟨⟩, -⟩ | ⟨⟨⟩, -⟩ | ⟨⟨⟩, inner⟩ | ⟨⟨⟩, -⟩)
        exact inner
  | ranges h =>
      simp only [MessageItem.nodes, List.mem_map]
      constructor
      · rintro ⟨r, hr, rfl⟩
        exact .range hr rfl
      · rintro (⟨⟨⟩, -⟩ | ⟨hr, rfl⟩ | ⟨⟨⟩, -⟩ | ⟨⟨⟩, -⟩)
        exact ⟨_, hr, rfl⟩
  | extension h =>
      rw [MessageItem.nodes, Extend.mem_nodes]
      constructor
      · exact .extension List.mem_cons_self
      · rintro (⟨⟨⟩, -⟩ | ⟨⟨⟩, -⟩ | ⟨⟨⟩, -⟩ | ⟨he, inner⟩)
        cases List.mem_singleton.mp he
        exact inner

/-- The declaration is the message, or in it, or in an extension declared there. -/
def Parser.MessageWithExtensions.Declares (m : MessageWithExtensions) (n : Node) : Prop :=
  (TypeDecl.message m.message).Declares n ∨ ∃ e ∈ m.extensions, e.Declares n

theorem Parser.MessageItem.declares_message {m : MessageWithExtensions} {n : Node} :
    (MessageItem.message m).Declares n ↔ m.Declares n := by
  constructor
  · rintro (⟨⟨⟩, -⟩ | ⟨⟨⟩, -⟩ | ⟨⟨⟩, inner⟩ | ⟨he, inner⟩)
    · exact .inl inner
    · exact .inr ⟨_, he, inner⟩
  · rintro (inner | ⟨e, he, inner⟩)
    · exact .type rfl inner
    · exact .extension he inner

/-- In a message of the items is declared the message itself and what is declared in them. -/
theorem declares_messageOfItems {scope : Scope} {name doc : String} {items : List MessageItem}
    {n : Node} :
    (messageOfItems scope name doc items).Declares n ↔
      (∃ i ∈ items, i.Declares n) ∨ n = .message (messageOfItems scope name doc items).message := by
  constructor
  · rintro (h | ⟨e, he, inner⟩)
    · cases h with
      | message => exact .inr rfl
      | field hf =>
          obtain ⟨i, hi, hf⟩ := List.mem_filterMap.mp hf
          exact .inl ⟨i, hi, .field hf rfl⟩
      | range hr =>
          obtain ⟨i, hi, hr⟩ := List.mem_flatMap.mp hr
          exact .inl ⟨i, hi, .range hr rfl⟩
      | nested ht inner =>
          obtain ⟨i, hi, ht⟩ := List.mem_filterMap.mp ht
          exact .inl ⟨i, hi, .type ht inner⟩
    · obtain ⟨i, hi, he⟩ := List.mem_flatMap.mp he
      exact .inl ⟨i, hi, .extension he inner⟩
  · rintro (⟨i, hi, h⟩ | rfl)
    · cases h with
      | field hf heq =>
          subst heq
          exact .inl (.field (List.mem_filterMap.mpr ⟨i, hi, hf⟩))
      | range hr heq =>
          subst heq
          exact .inl (.range (List.mem_flatMap.mpr ⟨i, hi, hr⟩))
      | type ht inner => exact .inl (.nested (List.mem_filterMap.mpr ⟨i, hi, ht⟩) inner)
      | extension he inner => exact .inr ⟨_, List.mem_flatMap.mpr ⟨i, hi, he⟩, inner⟩
    · exact .inl .message

/-- The declaration is in the part of a message, at any depth. -/
def MessagePart.Declares : MessagePart → Node → Prop
  | .message m, n => m.Declares n
  | .items is, n => ∃ i ∈ is, i.Declares n

theorem MessageEnds.mem_iff {scope : Scope} {part : MessagePart} {ns : List Node}
    (h : MessageEnds scope part ns ts us) {n : Node} : n ∈ ns ↔ part.Declares n := by
  induction h with
  | message isWord kind openKind body closeKind ih =>
      rw [List.mem_append, ih, List.mem_singleton]
      exact declares_messageOfItems.symm
  | noItems => simp [MessagePart.Declares]
  | plain head tail ih =>
      rw [List.mem_append, ih, head.mem_nodes]
      simp [MessagePart.Declares]
  | nested head tail ih₁ ih₂ =>
      rw [List.mem_append, ih₁, ih₂]
      simp [MessagePart.Declares, MessageItem.declares_message]

/-- The declaration is in the item of a file, at any depth. -/
inductive Parser.FileItem.Declares (i : FileItem) (n : Node) : Prop
  | type {t : TypeDecl} (h : i.type? = some t) (inner : t.Declares n)
  | extension {e : Extend} (h : e ∈ i.extensions) (inner : e.Declares n)

theorem FileItemEnds.mem_iff {package : Option String} {item : FileItem} {ns : List Node}
    (h : FileItemEnds package ts item ns us) {n : Node} : n ∈ ns ↔ item.Declares n := by
  cases h with
  | message h =>
      rw [h.mem_iff, MessagePart.Declares]
      constructor
      · rintro (inner | ⟨e, he, inner⟩)
        · exact .type rfl inner
        · exact .extension he inner
      · rintro (⟨⟨⟩, inner⟩ | ⟨he, inner⟩)
        · exact .inl inner
        · exact .inr ⟨_, he, inner⟩
  | enumeration h =>
      rw [Enumeration.mem_nodes]
      constructor
      · exact .type rfl
      · rintro (⟨⟨⟩, inner⟩ | ⟨⟨⟩, -⟩)
        exact inner
  | extension h =>
      rw [Extend.mem_nodes]
      constructor
      · exact .extension List.mem_cons_self
      · rintro (⟨⟨⟩, -⟩ | ⟨he, inner⟩)
        cases List.mem_singleton.mp he
        exact inner
  | other h noType noExtension =>
      refine iff_of_false List.not_mem_nil ?_
      rintro (⟨ht, -⟩ | ⟨he, -⟩)
      · rw [noType] at ht
        cases ht
      · rw [noExtension] at he
        cases he

/-- The declarations that end in the items of a file are those in the file. -/
theorem FileItemsEnd.mem_iff {package : Option String} {items : List FileItem} {ns : List Node}
    (h : FileItemsEnd package ts items ns us) (fileName : String) {n : Node} :
    n ∈ ns ↔ (fileOfItems fileName items).Declares n := by
  have hitems : n ∈ ns ↔ ∃ i ∈ items, i.Declares n := by
    induction h with
    | nil => simp
    | cons head tail ih => simp [ih, head.mem_iff]
  rw [hitems]
  constructor
  · rintro ⟨i, hi, h⟩
    cases h with
    | type ht inner => exact .type (List.mem_filterMap.mpr ⟨i, hi, ht⟩) inner
    | extension he inner => exact .extension (List.mem_flatMap.mpr ⟨i, hi, he⟩) inner
  · rintro (⟨ht, inner⟩ | ⟨he, inner⟩)
    · obtain ⟨i, hi, ht⟩ := List.mem_filterMap.mp ht
      exact ⟨i, hi, .type ht inner⟩
    · obtain ⟨i, hi, he⟩ := List.mem_flatMap.mp he
      exact ⟨i, hi, .extension he inner⟩

end Proto2

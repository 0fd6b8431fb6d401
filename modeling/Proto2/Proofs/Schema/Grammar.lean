import Proto2.Proofs.Schema.Stands
import Proto2.Proofs.Setting.Complete

/-!
Declarations that stand in the tokens are derived by the grammar.
-/

namespace Proto2

open Proto2.Parser

namespace Phrase

/-- A word, a name, and items between braces. -/
def braced (w : String) (item : Phrase) : Phrase :=
  word w ++ token .identifier ++ token .openBrace ++ many item ++ token .closeBrace

/-- An item of an enum. -/
def enumItem : Phrase :=
  token .semicolon ||| category .optionStatement ||| category .enumValue

/-- An item in the body of a procedure. -/
def rpcItem : Phrase :=
  token .semicolon ||| category .optionStatement

/-- An item of a service. -/
def serviceItem : Phrase :=
  token .semicolon ||| category .optionStatement ||| category .rpc

/-- An item of an extension. -/
def extendItem : Phrase :=
  token .semicolon ||| category .field

/-- An item of a message. -/
def messageItem : Phrase :=
  token .semicolon ||| category .field ||| category .message ||| category .enumeration |||
    category .extensionRanges ||| category .optionStatement ||| category .extension

end Phrase

open Phrase in
theorem Category.rule_enumeration : Category.rule .enumeration = braced "enum" enumItem := rfl

open Phrase in
theorem Category.rule_service : Category.rule .service = braced "service" serviceItem := rfl

open Phrase in
theorem Category.rule_message : Category.rule .message = braced "message" messageItem := rfl

section Sound

variable {readable : Token → Prop} {ts ms us : List Token}

theorem Begins.braced {w : String} {p : Phrase} {word name opening closing : Token}
    (isWord : word.isWord w = true) (kind : name.kind = .identifier)
    (openKind : opening.kind = .openBrace)
    (items : Begins readable (.many p) ts (closing :: us))
    (closeKind : closing.kind = .closeBrace) :
    Begins readable (.braced w p) (word :: name :: opening :: ts) us :=
  .append (.append (.append (.append (.word isWord) (.token kind)) (.token openKind)) items)
    (.token closeKind)

theorem Sequence.begins {α : Type} {step : List Token → α → List Token → Prop} {p : Phrase}
    (begins : ∀ {ts a us}, step ts a us → Begins readable p ts us) {as : List α}
    (h : Sequence step ts as us) : Begins readable (.many p) ts us := by
  induction h with
  | nil => exact .none
  | cons head tail ih => exact .more (begins head) ih

/-- What is so of every step because all tokens before it are of a kind. -/
theorem Sequence.forall_of_tokens {α : Type} {step : List Token → α → List Token → Prop}
    {p : Phrase} {Q : Token → Prop} {P : α → Prop}
    (begins : ∀ {ts a us}, step ts a us → Begins readable p ts us)
    (each : ∀ {ts a us}, step ts a us → (∀ t ∈ ts, Q t) → P a) {as : List α}
    (h : Sequence step ts as us) (all : ∀ t ∈ ts, Q t) : ∀ a ∈ as, P a := by
  induction h with
  | nil => exact List.forall_mem_nil _
  | cons head tail ih =>
      exact List.forall_mem_cons.mpr ⟨each head all, ih ((begins head).forall_mem all)⟩

theorem TokenAt.begins {kind : TokenKind} (h : TokenAt kind ts us) :
    Begins readable (.token kind) ts us := by
  obtain ⟨t, rfl, hk⟩ := h
  exact .token hk

theorem Token.hasValue_of_integer {t : Token} {n : Int} (kind : t.kind = .integer)
    (value : t.integerValue = .ok n) : t.HasValue :=
  ⟨fun h => by simp [kind] at h, fun _ => ⟨n, value⟩⟩

theorem Token.hasValue_of_string {t : Token} {s : String} (kind : t.kind = .string)
    (value : t.stringValue = .ok s) : t.HasValue :=
  ⟨fun _ => ⟨s, value⟩, fun h => by simp [kind] at h⟩

theorem TrailingAt.begins {ss : List Setting} (h : TrailingAt ts ss us) :
    Begins Token.HasValue (.optional (.category .bracketedSettings)) ts us := by
  cases h with
  | none => exact .skip
  | some settings => exact .some settings.begins

theorem OptionAt.begins {s : Setting} (h : OptionAt ts s us) :
    Begins Token.HasValue (.category .optionStatement) ts us := by
  cases h with
  | mk isWord setting semiKind =>
      exact .category (.append (.append (.word isWord) setting.begins) (.token semiKind))

theorem Label.mem_of_ofText? {s : String} {l : Label} (h : Label.ofText? s = some l) :
    s ∈ ["required", "optional", "repeated"] := by
  have := List.find?_some h
  cases l <;> simp_all [Label.text]

theorem FieldAt.begins {f : Field} (h : FieldAt ts f us) :
    Begins Token.HasValue (.category .field) ts us := by
  cases h with
  | mk kind known typeName nameKind equalsKind numberKind value settings semiKind =>
      exact .category (.append (.append (.append (.append (.append (.append
        (.terminal ⟨kind, Label.mem_of_ofText? known⟩) typeName.begins) (.token nameKind))
        (.token equalsKind)) (.literal numberKind (Token.hasValue_of_integer numberKind value)))
        settings.begins) (.token semiKind))

theorem RangeAt.begins {doc : String} {r : ExtensionRange} (h : RangeAt doc ts r us) :
    Begins Token.HasValue (.category .range) ts us := by
  cases h with
  | single kind value stop =>
      exact .category (.append (.literal kind (Token.hasValue_of_integer kind value)) .skip)
  | between kind value isWord lastKind lastValue =>
      exact .category (.append (.literal kind (Token.hasValue_of_integer kind value))
        (.some (.append (.word isWord)
          (.left (.literal lastKind (Token.hasValue_of_integer lastKind lastValue))))))
  | onwards kind value isWord isGreatest =>
      exact .category (.append (.literal kind (Token.hasValue_of_integer kind value))
        (.some (.append (.word isWord) (.right (.word isGreatest)))))

theorem Separated.begins {α : Type} {step : List Token → α → List Token → Prop} {p : Phrase}
    (begins : ∀ {ts a us}, step ts a us → Begins readable p ts us) {as : List α}
    (h : Separated step ts as us) : Begins readable (p ++ .many (.token .comma ++ p)) ts us := by
  induction h with
  | last head stop => exact .append (begins head) .none
  | cons head kind tail ih =>
      obtain ⟨d, heq, derived⟩ := ih
      obtain ⟨d, e, rfl, hd, he⟩ := Derives.append_iff.mp derived
      refine .append (begins head) (.more (.append (.token kind) ⟨d, ?_, hd⟩) ⟨e, rfl, he⟩)
      simpa using heq

theorem Separated.forall_of_tokens {α : Type} {step : List Token → α → List Token → Prop}
    {p : Phrase} {Q : Token → Prop} {P : α → Prop}
    (begins : ∀ {ts a us}, step ts a us → Begins readable p ts us)
    (each : ∀ {ts a us}, step ts a us → (∀ t ∈ ts, Q t) → P a) {as : List α}
    (h : Separated step ts as us) (all : ∀ t ∈ ts, Q t) : ∀ a ∈ as, P a := by
  induction h with
  | last head stop => simpa using each head all
  | cons head kind tail ih =>
      have hrest := (begins head).forall_mem all
      exact List.forall_mem_cons.mpr
        ⟨each head all, ih fun t ht => hrest t (List.mem_cons_of_mem _ ht)⟩

theorem RangesAt.begins {rs : List ExtensionRange} (h : RangesAt ts rs us) :
    Begins Token.HasValue (.category .extensionRanges) ts us := by
  cases h with
  | mk isWord ranges semiKind =>
      obtain ⟨d, heq, derived⟩ := Separated.begins RangeAt.begins ranges
      obtain ⟨d, e, rfl, hd, he⟩ := Derives.append_iff.mp derived
      refine .category (.append (.append (.append (.word isWord) ⟨d, ?_, hd⟩) ⟨e, rfl, he⟩)
        (.token semiKind))
      simpa using heq

theorem EnumValueAt.begins {v : EnumValue} (h : EnumValueAt ts v us) :
    Begins Token.HasValue (.category .enumValue) ts us := by
  cases h with
  | mk kind equalsKind numberKind value settings semiKind =>
      exact .category (.append (.append (.append (.append (.token kind) (.token equalsKind))
        (.literal numberKind (Token.hasValue_of_integer numberKind value))) settings.begins)
        (.token semiKind))

theorem EnumItemAt.begins {item : EnumItem} (h : EnumItemAt ts item us) :
    Begins Token.HasValue .enumItem ts us := by
  cases h with
  | empty semi => exact .left (.left semi.begins)
  | option h => exact .left (.right h.begins)
  | value h => exact .right h.begins

theorem EnumerationAt.begins {scope : Scope} {e : Enumeration}
    (h : EnumerationAt scope ts e us) : Begins Token.HasValue (.category .enumeration) ts us := by
  cases h with
  | mk isWord kind openKind body closeKind =>
      exact .category (.braced isWord kind openKind (body.begins EnumItemAt.begins) closeKind)

theorem RpcTypeAt.begins {name : String} (h : RpcTypeAt ts name us) :
    Begins readable (.category .rpcType) ts us := by
  cases h with
  | mk openKind inner closeKind =>
      exact .category (.append (.append (.token openKind) inner.begins) (.token closeKind))

theorem RpcItemAt.begins {item : Option Setting} (h : RpcItemAt ts item us) :
    Begins Token.HasValue .rpcItem ts us := by
  cases h with
  | empty semi => exact .left semi.begins
  | option h => exact .right h.begins

theorem RpcAt.begins {r : Rpc} (h : RpcAt ts r us) :
    Begins Token.HasValue (.category .rpc) ts us := by
  cases h with
  | mk isWord kind requestType isReturns responseType body =>
      refine .category (.append (.append (.append (.append (.append (.word isWord) (.token kind))
        requestType.begins) (.word isReturns)) responseType.begins) ?_)
      cases body with
      | none semi => exact .left semi.begins
      | some openKind body closeKind semi =>
          exact .right (.append (.append (.append (.token openKind)
            (body.begins RpcItemAt.begins)) (.token closeKind)) semi.begins)

theorem ServiceItemAt.begins {item : ServiceItem} (h : ServiceItemAt ts item us) :
    Begins Token.HasValue .serviceItem ts us := by
  cases h with
  | empty semi => exact .left (.left semi.begins)
  | option h => exact .left (.right h.begins)
  | rpc h => exact .right h.begins

theorem ServiceAt.begins {scope : Scope} {s : Service} (h : ServiceAt scope ts s us) :
    Begins Token.HasValue (.category .service) ts us := by
  cases h with
  | mk isWord kind openKind body closeKind =>
      exact .category (.braced isWord kind openKind (body.begins ServiceItemAt.begins) closeKind)

theorem ExtendItemAt.begins {item : Option Field} (h : ExtendItemAt ts item us) :
    Begins Token.HasValue .extendItem ts us := by
  cases h with
  | empty semi => exact .left semi.begins
  | field h => exact .right h.begins

theorem ExtendAt.begins {scope : Scope} {e : Extend} (h : ExtendAt scope ts e us) :
    Begins Token.HasValue (.category .extension) ts us := by
  cases h with
  | mk isWord extended openKind body closeKind =>
      exact .category (.append (.append (.append (.append (.word isWord) extended.begins)
        (.token openKind)) (body.begins ExtendItemAt.begins)) (.token closeKind))

theorem PlainItemAt.begins {scope : Scope} {item : MessageItem}
    (h : PlainItemAt scope ts item us) : Begins Token.HasValue .messageItem ts us := by
  cases h with
  | empty semi => exact .left (.left (.left (.left (.left (.left semi.begins)))))
  | field h => exact .left (.left (.left (.left (.left (.right h.begins)))))
  | enumeration h => exact .left (.left (.left (.right h.begins)))
  | ranges h => exact .left (.left (.right h.begins))
  | option h => exact .left (.right h.begins)
  | extension h => exact .right h.begins

/-- The phrase that describes a message or its items. -/
def MessagePart.phrase : MessagePart → Phrase
  | .message _ => .category .message
  | .items _ => .many .messageItem

theorem MessageAt.begins {scope : Scope} {part : MessagePart} (h : MessageAt scope part ts us) :
    Begins Token.HasValue part.phrase ts us := by
  induction h with
  | message isWord kind openKind body closeKind ih =>
      exact .category (.braced isWord kind openKind ih closeKind)
  | noItems => exact .none
  | plain head tail ih => exact .more head.begins ih
  | nested head tail ih₁ ih₂ =>
      exact .more (.left (.left (.left (.left (.right ih₁))))) ih₂

/-- An item of a file is a statement, or it is the package statement and none precedes it. -/
theorem FileItemAt.begins {package : Option String} {item : FileItem}
    (h : FileItemAt package ts item us) :
    (item.package? = none ∧ Begins Token.HasValue (.category .statement) ts us) ∨
      (package = none ∧ item.package?.isSome ∧
        Begins Token.HasValue (.category .package) ts us) := by
  cases h with
  | package undeclared isWord inner semiKind =>
      exact .inr ⟨undeclared, rfl,
        .category (.append (.append (.word isWord) inner.begins) (.token semiKind))⟩
  | empty semi =>
      exact .inl ⟨rfl, .category (.left (.left (.left (.left (.left (.left (.left
        semi.begins)))))))⟩
  | dialect isWord equalsKind nameKind semiKind =>
      exact .inl ⟨rfl, .category (.left (.left (.left (.left (.left (.left (.right
        (.append (.append (.append (.word isWord) (.token equalsKind)) (.token nameKind))
          (.token semiKind)))))))))⟩
  | imported isWord pathKind value semiKind =>
      exact .inl ⟨rfl, .category (.left (.left (.left (.left (.left (.right
        (.append (.append (.append (.word isWord) .skip)
          (.literal pathKind (Token.hasValue_of_string pathKind value))) (.token semiKind))))))))⟩
  | publiclyImported isWord isPublic pathKind value semiKind =>
      exact .inl ⟨rfl, .category (.left (.left (.left (.left (.left (.right
        (.append (.append (.append (.word isWord) (.some (.word isPublic)))
          (.literal pathKind (Token.hasValue_of_string pathKind value))) (.token semiKind))))))))⟩
  | option h => exact .inl ⟨rfl, .category (.left (.left (.left (.left (.right h.begins)))))⟩
  | message h => exact .inl ⟨rfl, .category (.left (.left (.left (.right h.begins))))⟩
  | enumeration h => exact .inl ⟨rfl, .category (.left (.left (.right h.begins)))⟩
  | service h => exact .inl ⟨rfl, .category (.left (.right h.begins))⟩
  | extension h => exact .inl ⟨rfl, .category (.right h.begins)⟩

theorem FileItemsAt.begins_statements {package : Option String} {items : List FileItem}
    (h : FileItemsAt package ts items us) (declared : package.isSome) :
    Begins Token.HasValue (.many (.category .statement)) ts us := by
  induction h with
  | nil => exact .none
  | cons head tail ih =>
      rcases head.begins with ⟨hnone, hstatement⟩ | ⟨hnone, -⟩
      · exact .more hstatement (ih (by simpa [hnone] using declared))
      · simp [hnone] at declared

theorem Begins.more_append {p q : Phrase} (first : Begins readable p ts ms)
    (others : Begins readable (.many p ++ q) ms us) : Begins readable (.many p ++ q) ts us := by
  obtain ⟨d, rfl, hd⟩ := first
  obtain ⟨_, rfl, hothers⟩ := others
  obtain ⟨e, f, rfl, he, hf⟩ := Derives.append_iff.mp hothers
  exact ⟨d ++ e ++ f, by simp, .both (.more hd he) hf⟩

/-- The items of a file are derived by the grammar. -/
theorem FileItemsAt.begins {items : List FileItem} (h : FileItemsAt none ts items us) :
    Begins Token.HasValue (.category .file) ts us := by
  generalize hp : none = package at h
  induction h with
  | nil => exact .category (.append .none .skip)
  | cons head tail ih =>
      subst hp
      rcases head.begins with ⟨hnone, hstatement⟩ | ⟨-, hsome, hpackage⟩
      · obtain ⟨d, heq, hd⟩ := ih (by simp [hnone])
        exact .category (.more_append hstatement ⟨d, heq, Derives.category_iff.mp hd⟩)
      · exact .category (.append .none
          (.some (.append hpackage (tail.begins_statements (by simp [hsome])))))

end Sound

end Proto2

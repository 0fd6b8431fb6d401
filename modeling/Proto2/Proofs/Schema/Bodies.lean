import Proto2.Proofs.Schema.Pieces

/-!
Reading bodies: the items between two braces, and the declarations that consist of them.

What starts at a token is decided by that token, in an enum by the next one as well.  The
grammar agrees with the decision, so that the parser of an item reads what stands there,
whichever item it is.
-/

namespace Proto2

namespace Parser

variable {α : Type} {ts us : List Token} {t : Token}

/-! ### Bodies in general -/

/-- An item is read at the first token. -/
def StepAt (item : Token → Parser α) (before : List Token) (a : α) (after : List Token) : Prop :=
  ∃ t rest, before = t :: rest ∧ Reads (item t) before a after

instance tokenDriven_bodyItems (opened : Token) (item : Token → Parser α)
    [∀ t, TokenDriven (item t)] : TokenDriven (bodyItems opened item) := by
  unfold bodyItems
  infer_instance

theorem reads_bodyItems_of_isItem {opened : Token} {item : Token → Parser α}
    [∀ t, TokenDriven (item t)] (isItem : IsItem (StepAt item)) {as : List α} :
    Reads (bodyItems opened item) ts as us ↔
      ∃ c, c.kind = .closeBrace ∧ Sequence (StepAt item) ts as (c :: us) := by
  have hstep : ∀ ts a us, Reads (do
      let t ← peek 0
      if t.isEnd then
        fail .schema t (.unclosedBody opened.span)
      else
        item t) ts a us ↔ StepAt item ts a us := by
    intro ts a us
    simp only [reads_bind_peek, reads_ite, not_reads_fail, and_false, false_or, StepAt]
    constructor
    · rintro ⟨t, ht, hend, h⟩
      cases ts with
      | nil => simp at ht
      | cons u rest =>
          cases ht
          exact ⟨t, rest, rfl, h⟩
    · rintro ⟨t, rest, rfl, h⟩
      have hend : NotAtKind .endOfInput (t :: rest) :=
        isItem.notAtKind ⟨t, rest, rfl, h⟩ (by decide)
      exact ⟨t, rfl, by simpa [Token.isEnd] using hend, h⟩
  have hitem : itemStep .closeBrace (do
      let t ← peek 0
      if t.isEnd then
        fail .schema t (.unclosedBody opened.span)
      else
        item t) = StepAt item := by
    funext ts a us
    simp only [itemStep, hstep, eq_iff_iff, and_iff_right_iff_imp]
    exact fun h => isItem.notAtKind h (by decide)
  rw [bodyItems, reads_itemsUntil (by decide : TokenKind.closeBrace ≠ _)
    fun ts a us h => isItem.progress ((hstep ts a us).mp h), hitem]

/-- A body whose items are read as they stand, if they satisfy a condition, is read as the
sequence of its items, if all of them do. -/
theorem reads_bodyItems {opened : Token} {item : Token → Parser α} [∀ t, TokenDriven (item t)]
    {At : List Token → α → List Token → Prop} {P : α → Prop} (isItem : IsItem At)
    (reads : ∀ {t ts a us}, Reads (item t) (t :: ts) a us ↔ At (t :: ts) a us ∧ P a)
    {as : List α} :
    Reads (bodyItems opened item) ts as us ↔
      ∃ c, c.kind = .closeBrace ∧ Sequence At ts as (c :: us) ∧ ∀ a ∈ as, P a := by
  have hstep : StepAt item = fun ts a us => At ts a us ∧ P a := by
    funext ts a us
    refine propext ⟨?_, ?_⟩
    · rintro ⟨t, rest, rfl, h⟩
      exact reads.mp h
    · rintro ⟨hat, hP⟩
      obtain ⟨t, rest, rfl, -⟩ := isItem.start hat
      exact ⟨t, rest, rfl, reads.mpr ⟨hat, hP⟩⟩
  have hisItem : IsItem (StepAt item) := by
    rw [hstep]
    exact ⟨fun h => isItem.start h.1, fun h => isItem.progress h.1⟩
  rw [reads_bodyItems_of_isItem hisItem, hstep]
  simp only [Sequence.and_iff]

/-! ### Enums -/

instance tokenDriven_startsEnumOption (t : Token) : TokenDriven (startsEnumOption t) := by
  unfold startsEnumOption
  infer_instance

instance tokenDriven_enumItem (name : String) (t : Token) : TokenDriven (enumItem name t) := by
  unfold enumItem
  infer_instance

instance tokenDriven_enumeration (scope : Scope) : TokenDriven (enumeration scope) := by
  unfold enumeration
  infer_instance

theorem reads_startsEnumOption {b : Bool} :
    Reads (startsEnumOption t) (t :: ts) b us ↔
      b = (t.isWord "option" && !ts.head?.any (·.kind = .equals)) ∧ us = t :: ts := by
  by_cases hw : t.isWord "option" = true
  · have hk := Token.kind_of_isWord hw
    simp only [startsEnumOption, hw, if_true, reads_bind_peek, reads_pure]
    cases ts with
    | nil => simp [hk]
    | cons u ts => simp
  · simp [startsEnumOption, hw]

/-- The value is legal if the item is one. -/
def EnumItem.IsValid (i : EnumItem) : Prop :=
  ∀ v ∈ i.value?, v.IsValid

theorem reads_enumItem {name : String} {item : EnumItem} :
    Reads (enumItem name t) (t :: ts) item us ↔ EnumItemAt (t :: ts) item us ∧ item.IsValid := by
  simp only [enumItem, reads_ite, reads_bind, reads_startsEnumOption, reads_optionStatement,
    reads_enumValue, not_reads_fail, reads_pure]
  constructor
  · rintro (⟨hk, _, _, hnext, rfl, rfl⟩ | ⟨-, b, _, ⟨rfl, rfl⟩, ⟨-, s, _, hs, rfl, rfl⟩ |
      ⟨-, ⟨-, v, _, ⟨hv, hvalid⟩, rfl, rfl⟩ | ⟨-, ⟨⟩⟩⟩⟩)
    · obtain ⟨-, rfl⟩ := (reads_next_of_kind (by decide) hk).mp hnext
      exact ⟨.empty ⟨t, rfl, hk⟩, by simp [EnumItem.IsValid, EnumItem.value?]⟩
    · exact ⟨.option hs, by simp [EnumItem.IsValid, EnumItem.value?]⟩
    · exact ⟨.value hv, by simpa [EnumItem.IsValid, EnumItem.value?] using hvalid⟩
  · rintro ⟨h, hvalid⟩
    cases h with
    | empty semi =>
        obtain ⟨_, ⟨⟩, hk⟩ := semi
        exact .inl ⟨hk, t, ts, (reads_next_of_kind (by decide) hk).mpr ⟨rfl, rfl⟩, rfl, rfl⟩
    | option h =>
        have hat := h
        cases h with
        | mk isWord setting semiKind =>
            refine .inr ⟨by simp [Token.kind_of_isWord isWord], _, _, ⟨rfl, rfl⟩, .inl ⟨?_, _, us, hat,
              rfl, rfl⟩⟩
            have hequals : NotAtKind .equals _ :=
              setting.setting_notAtKind (by decide) (by decide)
            obtain ⟨u, rest, rfl, hu⟩ := hequals
            simp [isWord, hu]
    | value h =>
        have hat := h
        cases h with
        | mk kind equalsKind =>
            exact .inr ⟨by simp [kind], _, _, ⟨rfl, rfl⟩, .inr ⟨by simp [equalsKind], .inl ⟨kind, _, us,
              ⟨hat, hvalid _ rfl⟩, rfl, rfl⟩⟩⟩

/-- The parser reads exactly the legal enum that stands in the tokens. -/
theorem reads_enumeration {scope : Scope} {e : Enumeration} :
    Reads (enumeration scope) ts e us ↔ EnumerationAt scope ts e us ∧ e.IsValid := by
  rw [enumeration, reads_bind_documentation]
  simp only [reads_bind, reads_expectWord, reads_identifier,
    reads_expect (by decide : TokenKind.openBrace ≠ _),
    reads_bodyItems EnumItemAt.isItem reads_enumItem, reads_ofBuild]
  constructor
  · rintro ⟨_, _, rfl, word, _, ⟨⟨⟩, hw⟩, _, _, ⟨name, rfl, hname, rfl⟩, opening, _, ⟨rfl, ho⟩, items, _,
      ⟨closing, hc, hitems, hvalid⟩, hbuild, rfl⟩
    have hvalues := List.forall_mem_filterMap.mpr hvalid
    obtain ⟨rfl, hvalid⟩ := (Enumeration.build_eq_ok hvalues).mp hbuild
    exact ⟨.mk hw hname ho hitems hc, hvalid⟩
  · rintro ⟨h, hvalid⟩
    cases h with
    | @mk word name opening closing ts _ items isWord kind openKind body closeKind =>
        exact ⟨_, _, rfl, _, _, ⟨rfl, isWord⟩, _, _, ⟨_, rfl, kind, rfl⟩, _, _, ⟨rfl, openKind⟩,
          items, us, ⟨closing, closeKind, body, List.forall_mem_filterMap.mp hvalid.values⟩,
          (Enumeration.build_eq_ok hvalid.values).mpr ⟨rfl, hvalid⟩, rfl⟩

/-! ### Services -/

instance tokenDriven_rpcType : TokenDriven rpcType := by
  unfold rpcType
  infer_instance

instance tokenDriven_rpcItem (name : String) (t : Token) : TokenDriven (rpcItem name t) := by
  unfold rpcItem
  infer_instance

/-- What follows the types of a procedure, by the brace that opens a body if there is one. -/
def rpcBodyFrom (name : String) : Option Token → Parser (List Setting)
  | none => do
    semicolon
    return []
  | some opened => do
    let items ← bodyItems opened (rpcItem name)
    let _ ← accept? .semicolon
    return items.filterMap id

theorem rpcBody_eq (name : String) :
    rpcBody name = accept? .openBrace >>= rpcBodyFrom name := rfl

instance tokenDriven_rpcBodyFrom (name : String) (o : Option Token) :
    TokenDriven (rpcBodyFrom name o) := by
  unfold rpcBodyFrom
  split <;> infer_instance

instance tokenDriven_rpcBody (name : String) : TokenDriven (rpcBody name) := by
  rw [rpcBody_eq]
  infer_instance

instance tokenDriven_rpc : TokenDriven rpc := by
  unfold rpc
  infer_instance

instance tokenDriven_serviceItem (name : String) (t : Token) :
    TokenDriven (serviceItem name t) := by
  unfold serviceItem
  infer_instance

instance tokenDriven_service (scope : Scope) : TokenDriven (service scope) := by
  unfold service
  infer_instance

theorem reads_rpcType {name : String} : Reads rpcType ts name us ↔ RpcTypeAt ts name us := by
  simp only [rpcType, reads_bind, reads_expect (by decide : TokenKind.openParen ≠ _),
    reads_qualifiedName, reads_expect (by decide : TokenKind.closeParen ≠ _), reads_pure]
  constructor
  · rintro ⟨opening, _, ⟨rfl, ho⟩, name, _, hname, closing, _, ⟨rfl, hc⟩, rfl, rfl⟩
    exact .mk ho hname hc
  · intro h
    cases h with
    | mk openKind inner closeKind =>
        exact ⟨_, _, ⟨rfl, openKind⟩, name, _, inner, _, us, ⟨rfl, closeKind⟩, rfl, rfl⟩

theorem reads_rpcItem {name : String} {item : Option Setting} :
    Reads (rpcItem name t) (t :: ts) item us ↔ RpcItemAt (t :: ts) item us ∧ True := by
  simp only [rpcItem, reads_ite, reads_bind, reads_optionStatement, not_reads_fail, reads_pure,
    and_false, or_false, and_true]
  constructor
  · rintro (⟨hk, _, _, hnext, rfl, rfl⟩ | ⟨-, hw, s, _, hs, rfl, rfl⟩)
    · obtain ⟨-, rfl⟩ := (reads_next_of_kind (by decide) hk).mp hnext
      exact .empty ⟨t, rfl, hk⟩
    · exact .option hs
  · intro h
    cases h with
    | empty semi =>
        obtain ⟨_, ⟨⟩, hk⟩ := semi
        exact .inl ⟨hk, t, ts, (reads_next_of_kind (by decide) hk).mpr ⟨rfl, rfl⟩, rfl, rfl⟩
    | option h =>
        have hat := h
        cases h with
        | mk isWord =>
            exact .inr ⟨by simp [Token.kind_of_isWord isWord], isWord, _, us, hat, rfl, rfl⟩

theorem reads_rpcBodyFrom_none {name : String} {ss : List Setting} :
    Reads (rpcBodyFrom name none) ts ss us ↔ ss = [] ∧ TokenAt .semicolon ts us := by
  simp only [rpcBodyFrom, reads_bind, reads_semicolon, reads_pure]
  constructor
  · rintro ⟨_, _, h, rfl, rfl⟩
    exact ⟨rfl, h⟩
  · rintro ⟨rfl, h⟩
    exact ⟨.unit, us, h, rfl, rfl⟩

theorem reads_rpcBodyFrom_some {name : String} {opened : Token} {ss : List Setting} :
    Reads (rpcBodyFrom name (some opened)) ts ss us ↔
      ∃ items c ms, c.kind = .closeBrace ∧ Sequence RpcItemAt ts items (c :: ms) ∧
        SkipKind .semicolon ms us ∧ ss = items.filterMap id := by
  simp only [rpcBodyFrom, reads_bind, reads_bodyItems RpcItemAt.isItem reads_rpcItem,
    implies_true, and_true, reads_pure, ← reads_skip (by decide : TokenKind.semicolon ≠ _)]
  constructor
  · rintro ⟨items, ms, ⟨c, hc, hitems⟩, o, _, ho, rfl, rfl⟩
    exact ⟨items, c, ms, hc, hitems, ⟨o, ho⟩, rfl⟩
  · rintro ⟨items, c, ms, hc, hitems, ⟨o, ho⟩, rfl⟩
    exact ⟨items, ms, ⟨c, hc, hitems⟩, o, us, ho, rfl, rfl⟩

theorem reads_rpcBody {name : String} {ss : List Setting} :
    Reads (rpcBody name) ts ss us ↔ RpcBodyAt ts ss us := by
  rw [rpcBody_eq]
  simp only [reads_bind, reads_accept? (by decide : TokenKind.openBrace ≠ _)]
  constructor
  · rintro ⟨o, ms, ⟨opening, rfl, rfl, ho⟩ | ⟨rfl, rfl, -⟩, h⟩
    · obtain ⟨items, c, ns, hc, hitems, hsemi, rfl⟩ := reads_rpcBodyFrom_some.mp h
      exact .some ho hitems hc hsemi
    · obtain ⟨rfl, hsemi⟩ := reads_rpcBodyFrom_none.mp h
      exact .none hsemi
  · intro h
    cases h with
    | none semi =>
        refine ⟨none, ts, .inr ⟨rfl, rfl, ?_⟩, reads_rpcBodyFrom_none.mpr ⟨rfl, semi⟩⟩
        obtain ⟨t, rfl, hk⟩ := semi
        simp [hk]
    | some openKind body closeKind semi =>
        exact ⟨some _, _, .inl ⟨_, rfl, rfl, openKind⟩,
          reads_rpcBodyFrom_some.mpr ⟨_, _, _, closeKind, body, semi, rfl⟩⟩

theorem reads_rpc {r : Rpc} : Reads rpc ts r us ↔ RpcAt ts r us := by
  rw [rpc, reads_bind_documentation]
  simp only [reads_bind, reads_expectWord, reads_identifier, reads_rpcType, reads_rpcBody,
    reads_pure]
  constructor
  · rintro ⟨_, _, rfl, word, _, ⟨⟨⟩, hw⟩, _, _, ⟨name, rfl, hname, rfl⟩, request, _, hrequest,
      returns, _, ⟨rfl, hr⟩, response, _, hresponse, options, _, hbody, rfl, rfl⟩
    exact .mk hw hname hrequest hr hresponse hbody
  · intro h
    cases h with
    | mk isWord kind requestType isReturns responseType body =>
        exact ⟨_, _, rfl, _, _, ⟨rfl, isWord⟩, _, _, ⟨_, rfl, kind, rfl⟩, _, _, requestType, _, _,
          ⟨rfl, isReturns⟩, _, _, responseType, _, us, body, rfl, rfl⟩

theorem reads_serviceItem {name : String} {item : ServiceItem} :
    Reads (serviceItem name t) (t :: ts) item us ↔ ServiceItemAt (t :: ts) item us ∧ True := by
  simp only [serviceItem, reads_ite, reads_map, reads_optionStatement, reads_rpc, not_reads_fail,
    and_false, or_false, and_true]
  constructor
  · rintro (⟨hk, _, hnext, rfl⟩ | ⟨-, ⟨-, s, hs, rfl⟩ | ⟨-, -, r, hr, rfl⟩⟩)
    · obtain ⟨-, rfl⟩ := (reads_next_of_kind (by decide) hk).mp hnext
      exact .empty ⟨t, rfl, hk⟩
    · exact .option hs
    · exact .rpc hr
  · intro h
    cases h with
    | empty semi =>
        obtain ⟨_, ⟨⟩, hk⟩ := semi
        exact .inl ⟨hk, t, (reads_next_of_kind (by decide) hk).mpr ⟨rfl, rfl⟩, rfl⟩
    | option h =>
        have hat := h
        cases h with
        | mk isWord =>
            exact .inr ⟨by simp [Token.kind_of_isWord isWord], .inl ⟨isWord, _, hat, rfl⟩⟩
    | rpc h =>
        have hat := h
        cases h with
        | mk isWord =>
            refine .inr ⟨by simp [Token.kind_of_isWord isWord], .inr ⟨?_, isWord, _, hat, rfl⟩⟩
            simp only [Token.isWord, Bool.and_eq_true, decide_eq_true_eq] at isWord
            simp [Token.isWord, isWord]

theorem reads_service {scope : Scope} {s : Service} :
    Reads (service scope) ts s us ↔ ServiceAt scope ts s us := by
  rw [service, reads_bind_documentation]
  simp only [reads_bind, reads_expectWord, reads_identifier,
    reads_expect (by decide : TokenKind.openBrace ≠ _),
    reads_bodyItems ServiceItemAt.isItem reads_serviceItem, implies_true, and_true, reads_pure]
  constructor
  · rintro ⟨_, _, rfl, word, _, ⟨⟨⟩, hw⟩, _, _, ⟨name, rfl, hname, rfl⟩, opening, _, ⟨rfl, ho⟩, items,
      _, ⟨closing, hc, hitems⟩, rfl, rfl⟩
    exact .mk hw hname ho hitems hc
  · intro h
    cases h with
    | mk isWord kind openKind body closeKind =>
        exact ⟨_, _, rfl, _, _, ⟨rfl, isWord⟩, _, _, ⟨_, rfl, kind, rfl⟩, _, _, ⟨rfl, openKind⟩, _, us,
          ⟨_, closeKind, body⟩, rfl, rfl⟩

/-! ### Extensions -/

instance tokenDriven_extendItem (name : String) (t : Token) : TokenDriven (extendItem name t) := by
  unfold extendItem
  infer_instance

instance tokenDriven_extension (scope : Scope) : TokenDriven (extension scope) := by
  unfold extension
  infer_instance

theorem startsField_of_fieldAt {f : Field} (h : FieldAt (t :: ts) f us) :
    startsField t = true := by
  cases h with
  | mk kind known => simp [startsField, kind, known]

theorem kind_of_startsField (h : startsField t = true) : t.kind = .identifier := by
  simp only [startsField, Bool.and_eq_true, decide_eq_true_eq] at h
  exact h.1

theorem reads_extendItem {name : String} {item : Option Field} :
    Reads (extendItem name t) (t :: ts) item us ↔
      ExtendItemAt (t :: ts) item us ∧ ∀ f ∈ item, f.IsValid := by
  simp only [extendItem, reads_ite, reads_map, not_reads_fail, and_false, or_false]
  constructor
  · rintro (⟨hk, _, hnext, rfl⟩ | ⟨-, hs, f, hf, rfl⟩)
    · obtain ⟨-, rfl⟩ := (reads_next_of_kind (by decide) hk).mp hnext
      exact ⟨.empty ⟨t, rfl, hk⟩, by simp⟩
    · obtain ⟨hf, hvalid⟩ := (reads_field (kind_of_startsField hs)).mp hf
      exact ⟨.field hf, by simpa using hvalid⟩
  · rintro ⟨h, hvalid⟩
    cases h with
    | empty semi =>
        obtain ⟨_, ⟨⟩, hk⟩ := semi
        exact .inl ⟨hk, t, (reads_next_of_kind (by decide) hk).mpr ⟨rfl, rfl⟩, rfl⟩
    | field h =>
        have hs := startsField_of_fieldAt h
        have hk := kind_of_startsField hs
        exact .inr ⟨by simp [hk], hs, _, (reads_field hk).mpr ⟨h, hvalid _ rfl⟩, rfl⟩

/-- The parser reads exactly the legal extension that stands in the tokens. -/
theorem reads_extension {scope : Scope} {e : Extend} :
    Reads (extension scope) ts e us ↔ ExtendAt scope ts e us ∧ e.IsValid := by
  rw [extension, reads_bind_documentation]
  simp only [reads_bind, reads_expectWord, reads_qualifiedName,
    reads_expect (by decide : TokenKind.openBrace ≠ _),
    reads_bodyItems ExtendItemAt.isItem reads_extendItem, reads_ofBuild]
  constructor
  · rintro ⟨_, _, rfl, word, _, ⟨⟨⟩, hw⟩, name, _, hname, opening, _, ⟨rfl, ho⟩, items, _,
      ⟨closing, hc, hitems, hvalid⟩, hbuild, rfl⟩
    obtain ⟨rfl, hvalid⟩ := (Extend.build_eq_ok (List.forall_mem_filterMap.mpr hvalid)).mp hbuild
    exact ⟨.mk hw hname ho hitems hc, hvalid⟩
  · rintro ⟨h, hvalid⟩
    cases h with
    | mk isWord extended openKind body closeKind =>
        exact ⟨_, _, rfl, _, _, ⟨rfl, isWord⟩, _, _, extended, _, _, ⟨rfl, openKind⟩, _, us,
          ⟨_, closeKind, body, List.forall_mem_filterMap.mp hvalid.fields⟩,
          (Extend.build_eq_ok hvalid.fields).mpr ⟨rfl, hvalid⟩, rfl⟩

end Parser

end Proto2

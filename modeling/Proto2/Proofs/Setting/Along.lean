import Proto2.Proofs.Parser.Along
import Proto2.Proofs.Setting.Values

/-!
Where settings cannot be read on.
-/

namespace Proto2

namespace Parser

variable {l : Lexed}

/-! ### Names of options -/

/-- An identifier, or a name between brackets. -/
theorem Along.bracketed {α : Type} {p : Parser α} {Q : α → Prop} {opening closing : TokenKind}
    (along : Along (.token opening ++ (.category .name ++ .token closing) ||| .token .identifier)
      p l Q) :
    Along (.token .identifier ||| .token opening ++ .category .name ++ .token closing) p l Q := by
  refine along.weaken fun hderives => ?_
  rcases Derives.or_iff.mp hderives with h | h
  · exact .right (Derives.append_assoc.mpr h)
  · exact .left h

theorem along_namePart : Along (.category .namePart) namePart l fun _ => True := by
  unfold namePart
  refine .category (.bracketed ?_)
  refine .accepts_bind (by decide) rfl (fun _ _ _ _ => ?_) fun _ _ _ _ => ?_
  · refine along_name.bind rfl fun _ _ _ => ?_
    exact (along_expect (by decide)).last fun _ _ _ => .pure trivial
  · exact along_identifier.last fun _ _ _ => .pure trivial

theorem along_moreNameParts {n : Nat} :
    Along (.many (.token .dot ++ .category .namePart)) (moreNameParts n) l fun _ => True := by
  induction n generalizing l with
  | zero => exact along_outOfBudget
  | succ n ih =>
      rw [moreNameParts]
      refine .more_or_none (.accepts_bind (by decide) rfl (fun _ _ _ _ => ?_) fun _ _ _ _ => ?_)
      · refine along_namePart.bind rfl fun _ _ _ => ?_
        exact ih.last fun _ _ _ => .pure trivial
      · exact .pure .empty trivial

theorem along_settingWith {value : Parser Value} [TokenDriven value]
    (inner : ∀ l, Along (.category .value) value l fun _ => True) :
    Along (.category .setting) (settingWith value) l fun _ => True := by
  unfold settingWith
  refine .category (.assoc (.assoc ?_))
  refine along_namePart.bind rfl fun _ l₁ _ => looks_budget.bind fun _ _ => ?_
  refine along_moreNameParts.bind rfl fun _ l₂ _ => ?_
  refine (along_expect (by decide)).bind rfl fun _ l₃ _ => ?_
  exact (inner l₃).last fun _ _ _ => .pure trivial

/-! ### Looking for a setting -/

theorem looks_checkOpen {g : Phrase} {opened : Token} (productive : g.IsProductive) :
    Looks g (checkOpen opened) l fun _ => True := by
  unfold checkOpen
  refine (looks_peek_zero productive).bind_looks ?_
  rintro t ⟨rest, hcons⟩
  exact .ite (fun _ => .fail hcons productive) fun _ => .pure trivial

/-- An identifier and a dot stand before a setting as well. -/
theorem viable_setting_cons {first dot : Token} {ts : List Token} (kind : first.kind = .identifier)
    (dotKind : dot.kind = .dot) (h : (Phrase.category .setting).Viable ts) :
    (Phrase.category .setting).Viable (first :: dot :: ts) := by
  obtain ⟨rest, hscanned, hderives⟩ := h
  refine ⟨rest, hscanned, ?_⟩
  rw [Derives.category_iff, Category.rule, Derives.append_assoc, Derives.append_assoc] at hderives ⊢
  obtain ⟨part, _, htokens, hpart, hrest⟩ := Derives.append_iff.mp hderives
  obtain ⟨more, value, rfl, hmore, hvalue⟩ := Derives.append_iff.mp hrest
  have hfirst : Derives Token.HasValue (.category .namePart) [first] :=
    .category (.left (.terminal kind))
  have hround : Derives Token.HasValue (.many (.token .dot ++ .category .namePart))
      ([dot] ++ part ++ more) := .more (.both (.terminal dotKind) hpart) hmore
  have heq : first :: dot :: ts ++ rest = [first] ++ ([dot] ++ part ++ more ++ value) := by
    rw [List.cons_append, List.cons_append, htokens]
    simp
  rw [heq]
  exact .both hfirst (.both hround hvalue)

theorem viable_setting_singleton {first : Token} (kind : first.kind = .identifier) :
    (Phrase.category .setting).Viable [first] := by
  have hfirst : (Phrase.category .namePart).Viable [first] :=
    ⟨[], List.forall_mem_nil _, .category (.left (.terminal kind))⟩
  have hrest : (Phrase.many (.token .dot ++ .category .namePart) ++
      (.token .equals ++ .category .value)).IsProductive := rfl
  refine .category ((hfirst.append_left hrest.viable).mono fun hderives => ?_)
  rw [Category.rule, Derives.append_assoc, Derives.append_assoc]
  exact hderives

/-- A look behind tokens that were seen already.  The token is one of the others, or, if the text
ends before it, the last one again. -/
theorem looks_peek_behind {g : Phrase} {seen rest : List Token} (k : Nat)
    (tokens : l.tokens = seen ++ rest) (viable : rest.length ≤ k → g.Viable l.tokens) :
    Looks g (peek (seen.length + k)) l fun t =>
      rest.drop k = t :: rest.drop (k + 1) ∨
        (rest.length ≤ k ∧ (seen ++ rest).getLast? = some t) := by
  have hle : (seen ++ rest).length ≤ seen.length + k ↔ rest.length ≤ k := by
    rw [List.length_append]
    omega
  have hpeek := looks_peek (n := seen.length + k) fun h => viable (hle.mp (tokens ▸ h))
  simp only [tokens, hle, Nat.add_assoc, List.drop_length_add_append] at hpeek
  exact hpeek

/-- Identifiers with dots behind them can be taken for the parts of an option name, as far as the
search has looked. -/
theorem looks_leadsToSetting {g : Phrase} {n : Nat} (seen rest : List Token)
    (tokens : l.tokens = seen ++ rest)
    (viable : ∀ {us}, (Phrase.category .setting).Viable us → g.Viable (seen ++ us))
    (last : ∀ t, seen.getLast? = some t → t.kind ≠ .identifier) :
    Looks g (leadsToSetting n seen.length) l fun _ => True := by
  induction n generalizing seen rest with
  | zero => trivial
  | succ n ih =>
      rw [leadsToSetting]
      refine (looks_peek_behind 0 tokens fun hle => ?_).bind_looks fun first hfirst => ?_
      · rw [tokens, List.eq_nil_of_length_eq_zero (Nat.le_zero.mp hle)]
        exact viable (Category.viable_nil .setting)
      refine .ite (fun hkind => ?_) fun _ => .pure trivial
      -- The identifier is not one that was seen before, since a dot was seen last.
      obtain ⟨rest, rfl⟩ : ∃ rest', rest = first :: rest' := by
        rcases hfirst with hfirst | ⟨hle, hlast⟩
        · exact ⟨_, hfirst⟩
        · rw [List.eq_nil_of_length_eq_zero (Nat.le_zero.mp hle), List.append_nil] at hlast
          exact absurd hkind (last first hlast)
      refine (looks_peek_behind 1 tokens fun hle => ?_).bind_looks fun after hafter => ?_
      · obtain rfl : rest = [] := by simpa using hle
        rw [tokens]
        exact viable (viable_setting_singleton hkind)
      refine .ite (fun _ => .pure trivial) fun _ => .ite (fun hdot => ?_) fun _ => .pure trivial
      obtain ⟨rest, rfl⟩ : ∃ rest', rest = after :: rest' := by
        rcases hafter with hafter | ⟨hle, hlast⟩
        · exact ⟨_, hafter⟩
        · obtain rfl : rest = [] := by simpa using hle
          rw [List.getLast?_concat, Option.some.injEq] at hlast
          rw [← hlast, hkind] at hdot
          cases hdot
      have hviable {us : List Token} (h : (Phrase.category .setting).Viable us) :
          g.Viable (seen ++ [first, after] ++ us) := by
        rw [List.append_assoc]
        exact viable (viable_setting_cons hkind hdot h)
      have htokens : l.tokens = seen ++ [first, after] ++ rest := by
        rw [tokens, List.append_assoc]
        rfl
      have hlength : (seen ++ [first, after]).length = seen.length + 2 := by simp
      refine (looks_peek_behind 2 tokens fun hle => ?_).bind_looks fun _ _ => ?_
      · obtain rfl : rest = [] := by simpa using hle
        rw [htokens]
        exact hviable (Category.viable_nil .setting)
      refine .ite (fun _ => .pure trivial) fun _ => ?_
      rw [← hlength]
      refine ih (seen ++ [first, after]) rest htokens hviable fun t ht => ?_
      have heq : after = t := by simpa using ht
      rw [← heq, hdot]
      decide

theorem looks_isAtSetting {g : Phrase} (productive : g.IsProductive)
    (viable : ∀ {us}, (Phrase.category .setting).Viable us → g.Viable us) :
    Looks g isAtSetting l fun _ => True := by
  unfold isAtSetting
  refine (looks_isAt productive).bind_looks fun b _ => .ite (fun _ => .pure trivial) fun _ => ?_
  refine Looks.bind_looks (looks_budget) fun n _ => ?_
  exact looks_leadsToSetting [] l.tokens rfl viable (by simp)

/-! ### Keys and separators -/

theorem along_key : Along (.category .key) key l fun _ => True := by
  unfold key
  refine .category (.bracketed ?_)
  refine .accepts_bind (by decide) rfl (fun _ _ _ _ => ?_) fun _ _ _ _ => along_identifier
  refine along_name.bind rfl fun _ _ _ => ?_
  exact (along_expect (by decide)).last fun _ _ _ => .pure trivial

theorem along_entrySeparator :
    Along (.optional (.token .comma ||| .token .semicolon)) entrySeparator l fun _ => True := by
  suffices hround : Along (.token .comma ++ .empty ||| .optional (.token .semicolon))
      entrySeparator l fun _ => True by
    refine hround.weaken fun hderives => ?_
    rcases Derives.or_iff.mp hderives with hcomma | hsemicolon
    · exact .left (.left (Derives.append_empty_iff.mp hcomma))
    · rcases Derives.optional_iff.mp hsemicolon with hsemicolon | rfl
      · exact .left (.right hsemicolon)
      · exact Derives.optional_iff.mpr (.inr rfl)
  unfold entrySeparator
  refine .accepts_bind (by decide) rfl (fun _ _ _ _ => .pure .empty trivial) fun _ _ _ _ => ?_
  exact (along_skip (by decide)).last fun _ _ _ => .pure trivial

/-! ### Values -/

/-- The parser goes along values, and along lists and aggregates where a bracket comes first. -/
structure AlongValues (value : Parser Value) : Prop where
  along (l : Lexed) : Along (.category .value) value l fun _ => True
  along_bracket (l : Lexed) {t : Token} {rest : List Token} (cons : l.tokens = t :: rest)
    (kind : t.kind = .openBrace ∨ t.kind = .openBracket) :
    Along (.category .list ||| .category .aggregate) value l fun _ => True

section Inner

variable {inner : Parser Value} [TokenDriven inner]

theorem AlongValues.listItem (values : AlongValues inner) :
    Along (.category .setting ||| .category .value) (listItem inner) l fun _ => True := by
  have hproductive : (Phrase.category .setting ||| .category .value).IsProductive := rfl
  unfold Parser.listItem
  refine (looks_isAtSetting hproductive .left).bind fun _ _ => .ite (fun _ => ?_) fun _ => ?_
  · exact .left ((along_settingWith values.along).last fun _ _ _ => .pure trivial)
  refine .right ?_
  have hvalue : (Phrase.category .value).IsProductive := rfl
  refine (looks_isAt hvalue).bind ?_
  rintro b ⟨t, rest, hcons, rfl⟩
  refine .ite (fun hkind => ?_) fun _ => values.along l
  -- In a list, a string is a value on its own.
  have hstring : Along (.literal .string) stringLiteral l fun _ => True :=
    decodes_decodeString.along_next (by decide) hcons (of_decide_eq_true hkind)
  refine (hstring.last fun _ _ _ => .pure trivial).weaken fun {ts} hderives => ?_
  rw [← List.append_nil ts]
  exact .category (.left (.left (.left (.left (.left (.left (.both hderives .none)))))))

theorem AlongValues.listStep (values : AlongValues inner) {opened : Token} :
    Along .listItem (listStep inner opened) l fun _ => True := by
  have hproductive : Phrase.listItem.IsProductive := rfl
  unfold Parser.listStep
  refine (looks_checkOpen hproductive).bind fun _ _ => ?_
  refine values.listItem.bind rfl fun _ _ _ => ?_
  exact (along_skip (by decide)).last fun _ _ _ => .pure trivial

theorem AlongValues.list (values : AlongValues inner) {t : Token} {rest : List Token}
    (cons : l.tokens = t :: rest) (kind : t.kind = .openBracket) :
    Along (.category .list) (list inner) l fun _ => True := by
  unfold Parser.list
  refine .category (.assoc ?_)
  refine (along_next_of_kind cons kind (by decide)).bind rfl fun opened l' _ => ?_
  have hitems : Along (.many .listItem ++ .token .closeBracket)
      (itemsUntil .closeBracket (Parser.listStep inner opened)) l' fun _ => True :=
    along_itemsUntil (by decide) fun _ => values.listStep
  exact hitems.last fun _ _ _ => .pure trivial

theorem AlongValues.entry (values : AlongValues inner) :
    Along (.category .entry) (entry inner) l fun _ => True := by
  unfold Parser.entry
  refine .category (along_key.bind rfl fun k l₁ _ => ?_)
  suffices hround : Along (.token .colon ++ .category .value |||
      (.category .list ||| .category .aggregate)) _ l₁ fun _ => True by
    refine hround.weaken fun hderives => ?_
    rcases Derives.or_iff.mp hderives with hcolon | hbracket
    · exact .left (.left hcolon)
    · rcases Derives.or_iff.mp hbracket with hlist | haggregate
      · exact .left (.right hlist)
      · exact .right haggregate
  unfold colon
  rw [bind_assoc]
  refine .accepts_bind (by decide) rfl (fun _ rest _ _ => ?_) fun _ _ _ _ => ?_
  · exact (values.along ⟨rest, l₁.failure⟩).last fun _ _ _ => .pure trivial
  · -- Without a colon, only a bracket may follow the key.
    have hproductive : (Phrase.category .list ||| .category .aggregate).IsProductive := rfl
    show Along _ ((peek 0 >>= _) >>= _) l₁ _
    rw [bind_assoc]
    refine (looks_peek_zero hproductive).bind ?_
    rintro t ⟨rest, hcons⟩
    by_cases hkind : t.kind = .openBrace ∨ t.kind = .openBracket
    · rw [if_pos hkind]
      exact (values.along_bracket l₁ hcons hkind).last fun _ _ _ => .pure trivial
    · rw [if_neg hkind]
      exact Failure.inPlace_head hcons rfl hproductive

theorem AlongValues.entryStep (values : AlongValues inner) {opened : Token} :
    Along .aggregateEntry (entryStep inner opened) l fun _ => True := by
  have hproductive : Phrase.aggregateEntry.IsProductive := rfl
  unfold Parser.entryStep
  refine (looks_checkOpen hproductive).bind fun _ _ => ?_
  refine values.entry.bind rfl fun _ _ _ => ?_
  exact along_entrySeparator.last fun _ _ _ => .pure trivial

theorem AlongValues.aggregate (values : AlongValues inner) {t : Token} {rest : List Token}
    (cons : l.tokens = t :: rest) (kind : t.kind = .openBrace) :
    Along (.category .aggregate) (aggregate inner) l fun _ => True := by
  unfold Parser.aggregate
  refine .category (.assoc ?_)
  refine (along_next_of_kind cons kind (by decide)).bind rfl fun opened l' _ => ?_
  have hentries : Along (.many .aggregateEntry ++ .token .closeBrace)
      (itemsUntil .closeBrace (Parser.entryStep inner opened)) l' fun _ => True :=
    along_itemsUntil (by decide) fun _ => values.entryStep
  exact hentries.last fun _ _ _ => .pure trivial

/-- A name that is a value is not one of the truth values. -/
theorem along_constant {t : Token} {rest : List Token} (cons : l.tokens = t :: rest)
    (other : t.kind = .identifier → t.lexeme ∉ ["true", "false"]) :
    Along (.category .constant) (qualifiedName .option "a name") l fun _ => True := by
  refine .category (along_qualifiedName (x := .identifierExcept ["true", "false"]) rfl ?_)
  intro u _ hu hkind
  obtain ⟨rfl, -⟩ := List.cons.inj (cons.symm.trans hu)
  exact ⟨hkind, other hkind⟩

theorem AlongValues.valueFrom (values : AlongValues inner) {t : Token} {rest : List Token}
    (cons : l.tokens = t :: rest) :
    Along (.category .value) (valueFrom inner t) l fun _ => True := by
  have hproductive : (Phrase.category .value).IsProductive := rfl
  unfold Parser.valueFrom
  split
  case h_1 kind =>
    refine .category (.left (.left (.left (.left (.left (.left ?_))))))
    exact (along_adjacentStrings cons kind).last fun _ _ _ => .pure trivial
  case h_2 kind =>
    refine .category (.left (.left (.left (.left (.right ?_)))))
    exact (along_integerLiteral cons kind).last fun _ _ _ => .pure trivial
  case h_3 kind =>
    refine .category (.left (.left (.left (.right ?_))))
    exact (along_floatLiteral cons kind).last fun _ _ _ => .pure trivial
  case h_4 kind =>
    refine .category (.ite (fun hword => ?_) fun hword => ?_)
    · refine .left (.left (.left (.left (.left (.right ?_)))))
      refine .last (along_next cons (isEnd_eq_false_of_kind kind (by decide)) ⟨kind, ?_⟩)
        fun _ _ _ => .pure trivial
      simpa [Token.isWord, kind] using hword
    · refine .left (.left (.right ?_))
      refine (along_constant cons fun _ => ?_).last fun _ _ _ => .pure trivial
      simpa [Token.isWord, kind] using hword
  case h_5 kind =>
    refine .category (.left (.left (.right ?_)))
    refine (along_constant cons fun h => ?_).last fun _ _ _ => .pure trivial
    rw [kind] at h
    cases h
  case h_6 kind => exact .category (.left (.right (values.list cons kind)))
  case h_7 kind => exact .category (.right (values.aggregate cons kind))
  case h_8 => exact .fail cons hproductive

/-- What goes along values nested to some depth does so one level deeper. -/
theorem AlongValues.valueWith (values : AlongValues inner) : AlongValues (valueWith inner) where
  along l := by
    have hproductive : (Phrase.category .value).IsProductive := rfl
    rw [valueWith_eq]
    refine (looks_peek_zero hproductive).bind ?_
    rintro t ⟨rest, hcons⟩
    exact values.valueFrom hcons
  along_bracket l t rest cons kind := by
    have hproductive : (Phrase.category .list ||| .category .aggregate).IsProductive := rfl
    rw [valueWith_eq]
    refine (looks_peek_zero hproductive).bind ?_
    rintro u ⟨_, hu⟩
    obtain ⟨rfl, -⟩ := List.cons.inj (cons.symm.trans hu)
    unfold Parser.valueFrom
    rcases kind with kind | kind
    · rw [kind]
      exact .right (values.aggregate cons kind)
    · rw [kind]
      exact .left (values.list cons kind)

end Inner

theorem alongValues_valueWithin (depth : Nat) : AlongValues (valueWithin depth) := by
  induction depth with
  | zero => exact ⟨fun _ => along_outOfBudget, fun _ _ _ _ _ => along_outOfBudget⟩
  | succ depth ih => exact ih.valueWith

theorem along_value : Along (.category .value) value l fun _ => True := by
  unfold value
  exact looks_budget.bind fun depth _ => (alongValues_valueWithin depth).along l

/-! ### Settings -/

theorem along_setting : Along (.category .setting) setting l fun _ => True :=
  along_settingWith fun _ => along_value

theorem along_bracketedSettings :
    Along (.category .bracketedSettings) bracketedSettings l fun _ => True := by
  rw [bracketedSettings_eq]
  refine .category (.assoc ?_)
  refine (along_expect (by decide)).bind rfl fun opened _ _ => ?_
  refine along_itemsUntil (by decide) fun l' => ?_
  unfold settingStep
  have hproductive : (Phrase.category .setting ++ .optional (.token .comma)).IsProductive := rfl
  refine (looks_checkOpen hproductive).bind fun _ _ => ?_
  refine along_setting.bind rfl fun _ _ _ => ?_
  exact (along_skip (by decide)).last fun _ _ _ => .pure trivial

end Parser

end Proto2

import Proto2.Proofs.Schema.Accepts
import Proto2.Proofs.Schema.Builds
import Proto2.Proofs.Schema.Numbers
import Proto2.Proofs.Setting.Legible

/-!
What the parser of files refuses.

A declaration that stands in the tokens is read whether it obeys the rules or not, and built
where it ends.  So a file is refused for the declaration that breaks a rule and ends first, with
the error that is due to it, and it is parsed if there is none.
-/

namespace Proto2

namespace Parser

variable {α : Type} {ts us : List Token} {t : Token}

/-! ### Pieces of declarations -/

theorem Builds.documentation {f : String → Parser α} [∀ d, TokenDriven (f d)] {ns : List Node}
    {a : α} (h : Builds (f t.documentation) (t :: ts) ns a us) :
    Builds (Parser.documentation >>= f) (t :: ts) ns a us :=
  .after (reads_bind.mpr ⟨t, _, reads_peek_zero.mpr ⟨rfl, ts, rfl⟩, reads_pure.mpr ⟨rfl, rfl⟩⟩) h

theorem Builds.semicolon {p : Parser α} [TokenDriven p] {ns : List Node} {a : α}
    (kind : t.kind = .semicolon) (h : Builds p ts ns a us) :
    Builds (do Parser.semicolon; p) (t :: ts) ns a us :=
  .after (a := .unit) (reads_semicolon.mpr ⟨t, rfl, kind⟩) h

/-- A field that stands in the tokens is built where it ends. -/
theorem builds_field {f : Field} (h : FieldAt (t :: ts) f us) :
    Builds field (t :: ts) [.field f] f us := by
  cases h with
  | mk kind known typeName nameKind equalsKind numberKind value settings semiKind =>
      exact .documentation
        (.after ((reads_next_of_kind (by decide) kind).mpr ⟨rfl, rfl⟩)
        (.after (reads_qualifiedName.mpr typeName)
        (.after (reads_identifier.mpr ⟨_, rfl, nameKind, rfl⟩)
        (.after ((reads_expect (by decide)).mpr ⟨rfl, equalsKind⟩)
        (.after (reads_tagNumber.mpr ⟨_, rfl, numberKind, value⟩)
        (.after (reads_trailingSettings.mpr settings)
        (.semicolon semiKind (.ofBuild (Field.build_eq known)))))))))

theorem builds_extensionRange {doc : String} {r : ExtensionRange} (h : RangeAt doc ts r us) :
    Builds (extensionRange doc) ts [.extensionRange r] r us := by
  cases h with
  | single kind value stop =>
      exact .after (reads_tagNumber.mpr ⟨_, rfl, kind, value⟩)
        (.after (reads_acceptsWord.mpr (.inr ⟨rfl, rfl, stop⟩)) (.ofBuild ExtensionRange.build_eq))
  | @between number word last _ n m kind value isWord lastKind lastValue =>
      have hmax : NotAtWord "max" (last :: us) := notAtWord_of_kind (by simp [lastKind])
      exact .after (reads_tagNumber.mpr ⟨_, rfl, kind, value⟩)
        (.after (reads_acceptsWord.mpr (.inl ⟨rfl, _, rfl, isWord⟩))
        (.after (reads_acceptsWord.mpr (.inr ⟨rfl, rfl, hmax⟩))
        (.after (reads_tagNumber.mpr ⟨_, rfl, lastKind, lastValue⟩)
        (.ofBuild ExtensionRange.build_eq))))
  | onwards kind value isWord isGreatest =>
      exact .after (reads_tagNumber.mpr ⟨_, rfl, kind, value⟩)
        (.after (reads_acceptsWord.mpr (.inl ⟨rfl, _, rfl, isWord⟩))
        (.after (reads_acceptsWord.mpr (.inl ⟨rfl, _, rfl, isGreatest⟩))
        (.ofBuild ExtensionRange.build_eq)))

theorem builds_extensionRanges {rs : List ExtensionRange} (h : RangesAt ts rs us) :
    Builds extensionRanges ts (rs.map .extensionRange) rs us := by
  cases h with
  | mk isWord ranges semiKind =>
      exact .documentation
        (.after (reads_expectWord.mpr ⟨rfl, isWord⟩)
        (.before (.separated (fun _ _ _ h => h.length_lt) (fun _ _ _ h => builds_extensionRange h)
          ranges)
        (reads_bind.mpr ⟨.unit, us, reads_semicolon.mpr ⟨_, rfl, semiKind⟩,
          reads_pure.mpr ⟨rfl, rfl⟩⟩)))

theorem builds_enumValue {v : EnumValue} (h : EnumValueAt ts v us) :
    Builds enumValue ts [.enumValue v] v us := by
  cases h with
  | mk kind equalsKind numberKind value settings semiKind =>
      exact .documentation
        (.after (reads_identifier.mpr ⟨_, rfl, kind, rfl⟩)
        (.after ((reads_expect (by decide)).mpr ⟨rfl, equalsKind⟩)
        (.after (reads_tagNumber.mpr ⟨_, rfl, numberKind, value⟩)
        (.after (reads_trailingSettings.mpr settings)
        (.semicolon semiKind (.ofBuild EnumValue.build_eq))))))

/-! ### Enums and extensions -/

theorem builds_enumItem {name : String} {item : EnumItem} (h : EnumItemAt (t :: ts) item us) :
    Builds (enumItem name t) (t :: ts) item.nodes item us := by
  have hat := h
  cases h with
  | empty | option =>
      exact .of_reads (reads_enumItem.mpr ⟨hat, by simp [EnumItem.IsValid, EnumItem.value?]⟩)
  | value h =>
      have hvalue := builds_enumValue h
      cases h with
      | mk kind equalsKind =>
          exact .ite_neg (by simp [kind])
            (.after (reads_startsEnumOption.mpr ⟨rfl, rfl⟩)
            (.ite_neg (by simp [equalsKind])
            (.ite_pos kind (.before hvalue (reads_pure.mpr ⟨rfl, rfl⟩)))))

/-- What is built in the items of a body that declare at most one thing each. -/
theorem flatMap_eq_map_filterMap {β γ : Type} {nodes : α → List γ} {f : α → Option β} {g : β → γ}
    (each : ∀ a, nodes a = (f a).toList.map g) (as : List α) :
    as.flatMap nodes = (as.filterMap f).map g := by
  induction as with
  | nil => rfl
  | cons a as ih =>
      rw [List.flatMap_cons, List.filterMap_cons, each, ih]
      cases f a <;> rfl

theorem EnumItem.nodes_eq (item : EnumItem) : item.nodes = item.value?.toList.map .enumValue := by
  cases item <;> rfl

/-- An enum is built behind its values. -/
theorem builds_enumeration {scope : Scope} {e : Enumeration} (h : EnumerationAt scope ts e us) :
    Builds (enumeration scope) ts e.nodes e us := by
  cases h with
  | mk isWord kind openKind body closeKind =>
      rw [Enumeration.nodes, ← flatMap_eq_map_filterMap EnumItem.nodes_eq]
      exact .documentation
        (.after (reads_expectWord.mpr ⟨rfl, isWord⟩)
        (.after (reads_identifier.mpr ⟨_, rfl, kind, rfl⟩)
        (.after ((reads_expect (by decide)).mpr ⟨rfl, openKind⟩)
        (.bind (.bodyItems_of_nodes EnumItemAt.isItem (·.nodes) builds_enumItem closeKind body)
        (.ofBuild Enumeration.build_eq)))))

theorem builds_extendItem {name : String} {item : Option Field}
    (h : ExtendItemAt (t :: ts) item us) :
    Builds (extendItem name t) (t :: ts) (item.toList.map .field) item us := by
  have hat := h
  cases h with
  | empty => exact .of_reads (reads_extendItem.mpr ⟨hat, by simp⟩)
  | field h =>
      have hs := startsField_of_fieldAt h
      exact .ite_neg (by simp [kind_of_startsField hs])
        (.ite_pos hs (.before (builds_field h) (reads_pure.mpr ⟨rfl, rfl⟩)))

/-- An extension is built behind its fields. -/
theorem builds_extension {scope : Scope} {e : Extend} (h : ExtendAt scope ts e us) :
    Builds (extension scope) ts e.nodes e us := by
  cases h with
  | mk isWord extended openKind body closeKind =>
      rw [Extend.nodes, ← flatMap_eq_map_filterMap (f := id) (fun item => rfl)]
      exact .documentation
        (.after (reads_expectWord.mpr ⟨rfl, isWord⟩)
        (.after (reads_qualifiedName.mpr extended)
        (.after ((reads_expect (by decide)).mpr ⟨rfl, openKind⟩)
        (.bind (.bodyItems_of_nodes ExtendItemAt.isItem _ builds_extendItem closeKind body)
        (.ofBuild Extend.build_eq)))))

/-! ### Messages -/

section Inner

variable {inner : Scope → Parser MessageWithExtensions} {scope : Scope}

theorem builds_messageItem_message {name : String} {m : MessageWithExtensions} {ns : List Node}
    (isWord : t.isWord "message" = true) (h : Builds (inner scope) (t :: ts) ns m us) :
    Builds (messageItem inner scope name t) (t :: ts) ns (.message m) us := by
  rw [messageItem_eq isWord rfl, messageItemOf]
  exact .before h (reads_pure.mpr ⟨rfl, rfl⟩)

variable [∀ scope, TokenDriven (inner scope)]

theorem builds_messageItem {name : String} {item : MessageItem}
    (h : PlainItemAt scope (t :: ts) item us) :
    Builds (messageItem inner scope name t) (t :: ts) item.nodes item us := by
  have hat := h
  cases h with
  | empty | option =>
      exact .of_reads (reads_messageItem.mpr (.inl ⟨hat, MessageItem.isValid_iff.mpr trivial⟩))
  | field h =>
      have hs := startsField_of_fieldAt h
      exact .ite_neg (by simp [kind_of_startsField hs])
        (.ite_pos hs (.before (builds_field h) (reads_pure.mpr ⟨rfl, rfl⟩)))
  | enumeration h =>
      rw [messageItem_eq (isWord_of_enumerationAt h) rfl, messageItemOf]
      exact .before (builds_enumeration h) (reads_pure.mpr ⟨rfl, rfl⟩)
  | ranges h =>
      rw [messageItem_eq (isWord_of_rangesAt h) rfl, messageItemOf]
      exact .before (builds_extensionRanges h) (reads_pure.mpr ⟨rfl, rfl⟩)
  | extension h =>
      rw [messageItem_eq (isWord_of_extendAt h) rfl, messageItemOf]
      exact .before (builds_extension h) (reads_pure.mpr ⟨rfl, rfl⟩)

/-- A message is built behind what is built in its items. -/
theorem builds_messageWith {word name opening closing : Token}
    {xs : List (MessageItem × List Node)} (isWord : word.isWord "message")
    (kind : name.kind = .identifier) (openKind : opening.kind = .openBrace)
    (body : Sequence (BuildsAt (messageItem inner (scope.nested name.lexeme) name.lexeme)) ts xs
      (closing :: us)) (closeKind : closing.kind = .closeBrace) :
    Builds (messageWith inner scope) (word :: name :: opening :: ts)
      (xs.flatMap (·.2) ++
        [.message (messageOfItems scope name.lexeme word.documentation (xs.map (·.1))).message])
      (messageOfItems scope name.lexeme word.documentation (xs.map (·.1))) us :=
  .documentation
    (.after (reads_expectWord.mpr ⟨rfl, isWord⟩)
    (.after (reads_identifier.mpr ⟨_, rfl, kind, rfl⟩)
    (.after ((reads_expect (by decide)).mpr ⟨rfl, openKind⟩)
    (.bind (.bodyItems closeKind body)
    (.before (.ofBuild Message.build_eq) (reads_pure.mpr ⟨rfl, rfl⟩))))))

end Inner

/-- What a reader of messages has to do for a part in which declarations end, at some depth. -/
def BuildsMessages (depth : Nat) (scope : Scope) :
    MessagePart → List Node → List Token → List Token → Prop
  | .message m, ns, ts, us => Builds (messageWithin depth scope) ts ns m us
  | .items items, ns, ts, us => ∀ name, ∃ xs : List (MessageItem × List Node),
    xs.map (·.1) = items ∧ xs.flatMap (·.2) = ns ∧
      Sequence (BuildsAt (messageItem (messageWithin depth) scope name)) ts xs us

/-- What stands in the tokens is built in the order in which it ends, if the depth is at least the
number of tokens taken. -/
theorem buildsMessages_of_messageEnds {scope : Scope} {part : MessagePart} {ns : List Node}
    (h : MessageEnds scope part ns ts us) :
    ∀ depth, ts.length ≤ us.length + depth → BuildsMessages depth scope part ns ts us := by
  -- As the message is read: its items build what ends in them, and then it is built itself.
  induction h with
  | @message scope word name opening closing ts us items ns isWord kind openKind body closeKind ih =>
      intro depth hd
      have hlen := body.at.length
      simp only [List.length_cons] at hd hlen
      obtain ⟨depth, rfl⟩ : ∃ d, depth = d + 1 := ⟨depth - 1, by omega⟩
      obtain ⟨xs, rfl, rfl, hxs⟩ := ih depth (by simp only [List.length_cons]; omega) name.lexeme
      exact builds_messageWith isWord kind openKind hxs closeKind
  | noItems => exact fun _ _ _ => ⟨[], rfl, rfl, .nil⟩
  | @plain scope ts ms us item items ns head tail ih =>
      intro depth hd name
      have hlen := (PlainItemAt.isItem _).progress head
      obtain ⟨xs, rfl, rfl, hxs⟩ := ih depth (by omega) name
      refine ⟨(item, item.nodes) :: xs, rfl, rfl,
        .cons (.of_isItem (PlainItemAt.isItem _) head ?_) hxs⟩
      rintro t rest rfl
      exact builds_messageItem head
  | @nested scope ts ms us m items ns ns' head tail ih₁ ih₂ =>
      intro depth hd name
      have h₁ := head.at.length
      have h₂ := tail.at.length
      simp only at h₁ h₂
      have hm := ih₁ depth (by omega)
      obtain ⟨xs, rfl, rfl, hxs⟩ := ih₂ depth (by omega) name
      refine ⟨(.message m, ns) :: xs, rfl, rfl, .cons ?_ hxs⟩
      cases head with
      | message isWord kind =>
          exact ⟨_, _, rfl, .inr (Token.kind_of_isWord isWord), h₁,
            builds_messageItem_message isWord hm⟩

theorem builds_message {scope : Scope} {m : MessageWithExtensions} {ns : List Node}
    (h : MessageEnds scope (.message m) ns ts us) : Builds (message scope) ts ns m us :=
  .after (reads_budget.mpr ⟨rfl, rfl⟩) (buildsMessages_of_messageEnds h _ (by omega))

/-! ### Files -/

theorem builds_fileItem {package : Option String} {item : FileItem} {ns : List Node}
    (h : FileItemEnds package (t :: ts) item ns us) :
    Builds (fileItem package t) (t :: ts) ns item us := by
  cases h with
  | message h =>
      rw [fileItem_eq (isWord_of_messageAt h.at), fileItemOf]
      exact .before (builds_message h) (reads_pure.mpr ⟨rfl, rfl⟩)
  | enumeration h =>
      rw [fileItem_eq (isWord_of_enumerationAt h), fileItemOf]
      exact .before (builds_enumeration h) (reads_pure.mpr ⟨rfl, rfl⟩)
  | extension h =>
      rw [fileItem_eq (isWord_of_extendAt h), fileItemOf]
      exact .before (builds_extension h) (reads_pure.mpr ⟨rfl, rfl⟩)
  | other h noType noExtension =>
      exact .of_reads (reads_fileItem.mpr ⟨h, by simp [FileItem.IsValid, noType, noExtension]⟩)

theorem builds_fileItemsWithin {n : Nat} {package : Option String} {items : List FileItem}
    {ns : List Node} (h : FileItemsEnd package ts items ns us) (rounds : items.length < n) :
    Builds (fileItemsWithin n package) ts ns items us := by
  induction h generalizing n with
  | nil atEnd =>
      obtain ⟨n, rfl⟩ : ∃ m, n = m + 1 := ⟨n - 1, by simp at rounds; omega⟩
      obtain ⟨t, rest, rfl, hk⟩ := atEnd
      rw [fileItemsWithin]
      exact .after (reads_peek_zero.mpr ⟨rfl, rest, rfl⟩)
        (.ite_pos (by simp [Token.isEnd, hk]) (.of_reads (reads_pure.mpr ⟨rfl, rfl⟩)))
  | cons head tail ih =>
      obtain ⟨n, rfl⟩ : ∃ m, n = m + 1 := ⟨n - 1, by omega⟩
      obtain ⟨t, rest, rfl, hend⟩ := head.at.notAtEnd
      have hrest := ih (n := n) (by simpa using rounds)
      rw [fileItemsWithin]
      exact .after (reads_peek_zero.mpr ⟨rfl, rest, rfl⟩)
        (.ite_neg (by simpa [Token.isEnd] using hend)
        (.bind (builds_fileItem head) (.before hrest (reads_pure.mpr ⟨rfl, rfl⟩))))

/-- A file that stands in the tokens is refused for the declaration that breaks a rule and ends
first. -/
theorem builds_file {fileName : String} {items : List FileItem} {ns : List Node}
    (h : FileItemsEnd none ts items ns us) :
    Builds (file fileName) ts ns (fileOfItems fileName items) us := by
  have := h.at.length_le
  exact .after (reads_budget.mpr ⟨rfl, rfl⟩)
    (.before (builds_fileItemsWithin h (by omega)) (reads_pure.mpr ⟨rfl, rfl⟩))

end Parser

/-! ### Texts of files -/

/-- The tokens of the text are those of the given file, and the declarations in it end in the
given order. -/
def FileEnds (fileName : String) (ts : List Token) (e : Token) (f : SchemaFile)
    (ns : List Node) : Prop :=
  ∃ items, FileItemsEnd none (ts ++ [e]) items ns [e] ∧ f = Parser.fileOfItems fileName items

section FileEnds

variable {fileName source : String} {ts : List Token} {e : Token} {f : SchemaFile}
  {ns : List Node}

theorem FileStands.exists_ends (h : FileStands fileName ts e f) :
    ∃ ns, FileEnds fileName ts e f ns := by
  obtain ⟨items, hitems, heq⟩ := h
  obtain ⟨ns, hends⟩ := hitems.exists_end
  exact ⟨ns, items, hends, heq⟩

theorem FileEnds.mem_iff (h : FileEnds fileName ts e f ns) {n : Node} : n ∈ ns ↔ f.Declares n := by
  obtain ⟨items, hends, rfl⟩ := h
  exact hends.mem_iff fileName

theorem FileEnds.parse_eq (h : FileEnds fileName ts e f ns)
    (tokens : TokensOf fileName source.toList ts e) :
    SchemaFile.parse fileName source =
      match firstViolation? ns with
      | some err => .error (.build (.ofModelError err))
      | none => .ok f := by
  obtain ⟨items, hends, rfl⟩ := h
  rw [SchemaFile.parse_eq_outcome, tokens.1, Parser.builds_file hends]
  cases firstViolation? ns <;> rfl

/-- What is in a file that was parsed obeys the rules. -/
theorem SchemaFile.obeys_of_parse (parsed : SchemaFile.parse fileName source = .ok f) :
    ∀ n, f.Declares n → n.Obeys := by
  obtain ⟨ts, e, tokens, hstands, -⟩ := SchemaFile.parse_eq_ok.mp parsed
  obtain ⟨ns, hends⟩ := hstands.exists_ends
  have hnone : firstViolation? ns = none := by
    have hparse := hends.parse_eq tokens
    rw [parsed] at hparse
    cases hfirst : firstViolation? ns with
    | none => rfl
    | some err => simp [hfirst] at hparse
  exact fun n hn => firstViolation?_eq_none.mp hnone n (hends.mem_iff.mpr hn)

theorem FileEnds.isWritable (h : FileEnds fileName ts e f ns) (isEnd : e.isEnd = true)
    (writable : AllWritable ts) : ∀ n ∈ ns, n.IsWritable := by
  obtain ⟨items, hends, rfl⟩ := h
  refine hends.isWritable (List.forall_mem_append.mpr ⟨writable, List.forall_mem_singleton.mpr ?_⟩)
  intro kind
  simp [Token.isEnd, kind] at isEnd

/-- The errors with which a file is refused: that of the first declaration, in the order in which
they end, that breaks a rule. -/
theorem FileEnds.parse_eq_error_iff (h : FileEnds fileName ts e f ns)
    (tokens : TokensOf fileName source.toList ts e) (writable : AllWritable ts)
    (failure : Failure) :
    SchemaFile.parse fileName source = .error failure ↔
      ∃ before n after err, ns = before ++ n :: after ∧ (∀ m ∈ before, m.Obeys) ∧
        n.Violates err ∧ failure = .build (.invalid err) := by
  rw [h.parse_eq tokens]
  constructor
  · intro hfailure
    cases hfirst : firstViolation? ns with
    | none => simp [hfirst] at hfailure
    | some err =>
        obtain ⟨before, n, after, rfl, hviolates, hbefore⟩ := firstViolation?_eq_some.mp hfirst
        have hn := h.isWritable tokens.2 writable n (by simp)
        simp only [hfirst, Except.error.injEq] at hfailure
        refine ⟨before, n, after, err, rfl, hbefore, hviolates, ?_⟩
        rw [← hfailure, hviolates.ofModelError_eq hn]
  · rintro ⟨before, n, after, err, rfl, hbefore, hviolates, rfl⟩
    have hn := h.isWritable tokens.2 writable n (by simp)
    rw [firstViolation?_eq_some.mpr ⟨before, n, after, rfl, hviolates, hbefore⟩]
    simp only [hviolates.ofModelError_eq hn]

theorem FileEnds.parse_eq_ok_iff (h : FileEnds fileName ts e f ns)
    (tokens : TokensOf fileName source.toList ts e) :
    SchemaFile.parse fileName source = .ok f ↔ ∀ n, f.Declares n → n.Obeys := by
  constructor
  · exact SchemaFile.obeys_of_parse
  · intro hobey
    rw [h.parse_eq tokens, firstViolation?_eq_none.mpr fun n hn => hobey n (h.mem_iff.mp hn)]

/-- A file is refused by the rules just if something declared in it breaks one. -/
theorem FileEnds.refused_iff (h : FileEnds fileName ts e f ns)
    (tokens : TokensOf fileName source.toList ts e) (writable : AllWritable ts) :
    (∃ err, SchemaFile.parse fileName source = .error (.build (.invalid err))) ↔
      ∃ n, f.Declares n ∧ ¬ n.Obeys := by
  constructor
  · rintro ⟨err, hparse⟩
    obtain ⟨before, n, after, err', rfl, -, hviolates, -⟩ :=
      (h.parse_eq_error_iff tokens writable _).mp hparse
    exact ⟨n, h.mem_iff.mp (by simp), fun hobeys => Node.obeys_iff.mp hobeys err' hviolates⟩
  · rintro ⟨n, hn, hnot⟩
    cases hfirst : firstViolation? ns with
    | none => exact absurd (firstViolation?_eq_none.mp hfirst n (h.mem_iff.mpr hn)) hnot
    | some err =>
        obtain ⟨before, m, after, heq, hviolates, hbefore⟩ := firstViolation?_eq_some.mp hfirst
        exact ⟨err, (h.parse_eq_error_iff tokens writable _).mpr
          ⟨before, m, after, err, heq, hbefore, hviolates, rfl⟩⟩

end FileEnds

end Proto2

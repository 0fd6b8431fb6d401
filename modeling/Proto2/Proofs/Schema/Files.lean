import Proto2.Proofs.Schema.Messages
import Proto2.Proofs.Token.Lexed

/-!
Reading files.

A file is read to the end of the input, so a text that is read has no lexical error.
-/

namespace Proto2

namespace Parser

variable {ts us : List Token} {t : Token} {package : Option String}

/-! ### Items of files -/

/-- What the item declares is legal. -/
def FileItem.IsValid (i : FileItem) : Prop :=
  (∀ t ∈ i.type?, t.IsValid) ∧ ∀ e ∈ i.extensions, e.IsValid

theorem FileItem.isValid_iff {i : FileItem} :
    i.IsValid ↔
      match i with
      | .message m => m.IsValid
      | .enumeration e => e.IsValid
      | .extension e => e.IsValid
      | _ => True := by
  cases i <;> simp [IsValid, MessageWithExtensions.IsValid, type?, extensions]

/-- A file is legal exactly if all its items are. -/
theorem isValid_fileOfItems {fileName : String} {items : List FileItem} :
    (fileOfItems fileName items).IsValid ↔ ∀ i ∈ items, i.IsValid := by
  simp only [FileItem.IsValid, forall_and]
  constructor
  · intro h
    exact ⟨List.forall_mem_filterMap.mp h.types, List.forall_mem_flatMap.mp h.extensions⟩
  · rintro ⟨htypes, hextensions⟩
    exact ⟨List.forall_mem_filterMap.mpr htypes, List.forall_mem_flatMap.mpr hextensions⟩

instance tokenDriven_dialectStatement : TokenDriven dialectStatement := by
  unfold dialectStatement
  infer_instance

instance tokenDriven_packageStatement (declared : Option String) (t : Token) :
    TokenDriven (packageStatement declared t) := by
  unfold packageStatement
  split <;> infer_instance

instance tokenDriven_importStatement : TokenDriven importStatement := by
  unfold importStatement
  infer_instance

instance tokenDriven_fileItem (package : Option String) (t : Token) :
    TokenDriven (fileItem package t) := by
  unfold fileItem
  infer_instance

instance tokenDriven_fileItemsWithin (n : Nat) (package : Option String) :
    TokenDriven (fileItemsWithin n package) := by
  induction n generalizing package with
  | zero =>
      unfold fileItemsWithin
      infer_instance
  | succ n ih =>
      unfold fileItemsWithin
      infer_instance

instance tokenDriven_file (fileName : String) : TokenDriven (file fileName) := by
  unfold file
  infer_instance

theorem reads_dialectStatement {u : Unit} :
    Reads dialectStatement ts u us ↔
      ∃ word equals name semi, ts = word :: equals :: name :: semi :: us ∧
        word.isWord "syntax" = true ∧ equals.kind = .equals ∧ name.kind = .string ∧
        semi.kind = .semicolon := by
  simp only [dialectStatement, reads_bind, reads_expectWord,
    reads_expect (by decide : TokenKind.equals ≠ _),
    reads_expect (by decide : TokenKind.string ≠ _), reads_semicolon]
  constructor
  · rintro ⟨word, _, ⟨rfl, hw⟩, equals, _, ⟨rfl, he⟩, name, _, ⟨rfl, hn⟩, semi, rfl, hs⟩
    exact ⟨word, equals, name, semi, rfl, hw, he, hn, hs⟩
  · rintro ⟨word, equals, name, semi, rfl, hw, he, hn, hs⟩
    exact ⟨word, _, ⟨rfl, hw⟩, equals, _, ⟨rfl, he⟩, name, _, ⟨rfl, hn⟩, semi, rfl, hs⟩

theorem reads_packageStatement (isWord : t.isWord "package" = true) {name : String} :
    Reads (packageStatement package t) (t :: ts) name us ↔
      package = none ∧ ∃ semi, NameAt ts name (semi :: us) ∧ semi.kind = .semicolon := by
  cases package with
  | some declared => simp [packageStatement]
  | none =>
      simp only [packageStatement, reads_bind, reads_next_of_isWord isWord, reads_qualifiedName,
        reads_semicolon, reads_pure, true_and]
      constructor
      · rintro ⟨_, _, ⟨rfl, rfl⟩, name, _, hname, _, _, ⟨semi, rfl, hs⟩, rfl, rfl⟩
        exact ⟨semi, hname, hs⟩
      · rintro ⟨semi, hname, hs⟩
        exact ⟨t, ts, ⟨rfl, rfl⟩, name, _, hname, .unit, us, ⟨semi, rfl, hs⟩, rfl, rfl⟩

theorem reads_importStatement (isWord : t.isWord "import" = true) {item : FileItem} :
    Reads importStatement (t :: ts) item us ↔
      ∃ path semi text, path.kind = .string ∧ path.stringValue = .ok text ∧
        semi.kind = .semicolon ∧
        ((∃ modifier, ts = modifier :: path :: semi :: us ∧ modifier.isWord "public" = true ∧
            item = .imported true text) ∨
          (ts = path :: semi :: us ∧ item = .imported false text)) := by
  simp only [importStatement, reads_bind, reads_next_of_isWord isWord, reads_acceptsWord,
    reads_expect (by decide : TokenKind.string ≠ _), reads_decodeString, reads_semicolon,
    reads_pure]
  constructor
  · rintro ⟨_, _, ⟨rfl, rfl⟩, _, _, ⟨rfl, modifier, rfl, hm⟩ | ⟨rfl, rfl, -⟩, path, _, ⟨rfl, hp⟩, text,
      _, ⟨hv, rfl⟩, _, _, ⟨semi, rfl, hs⟩, rfl, rfl⟩
    · exact ⟨path, semi, text, hp, hv, hs, .inl ⟨modifier, rfl, hm, rfl⟩⟩
    · exact ⟨path, semi, text, hp, hv, hs, .inr ⟨rfl, rfl⟩⟩
  · rintro ⟨path, semi, text, hp, hv, hs, ⟨modifier, rfl, hm, rfl⟩ | ⟨rfl, rfl⟩⟩
    · exact ⟨t, _, ⟨rfl, rfl⟩, true, _, .inl ⟨rfl, modifier, rfl, hm⟩, path, _, ⟨rfl, hp⟩, text, _,
        ⟨hv, rfl⟩, .unit, us, ⟨semi, rfl, hs⟩, rfl, rfl⟩
    · exact ⟨t, _, ⟨rfl, rfl⟩, false, _, .inr ⟨rfl, rfl, by simp [Token.isWord, hp]⟩, path, _,
        ⟨rfl, hp⟩, text, _, ⟨hv, rfl⟩, .unit, us, ⟨semi, rfl, hs⟩, rfl, rfl⟩

theorem isWord_of_serviceAt {scope : Scope} {s : Service} (h : ServiceAt scope (t :: ts) s us) :
    t.isWord "service" = true := by
  cases h with
  | mk isWord => exact isWord

/-- The statement that starts with a word. -/
def fileItemOf (package : Option String) (t : Token) : String → Parser FileItem
  | "syntax" => do
    dialectStatement
    return .dialect
  | "package" => return .package (← packageStatement package t)
  | "import" => importStatement
  | "option" => return .option (← optionStatement)
  | "message" => return .message (← message (.top package))
  | "enum" => return .enumeration (← enumeration (.top package))
  | "service" => return .service (← service (.top package))
  | "extend" => return .extension (← extension (.top package))
  | _ => fail .schema t .notADeclaration

theorem fileItem_eq {word : String} (h : t.isWord word = true) :
    fileItem package t = fileItemOf package t word := by
  simp only [fileItem, Token.kind_of_isWord h, isWord_eq_decide h, reduceCtorEq, if_false,
    decide_eq_true_eq]
  fun_cases fileItemOf package t word with
  | case9 _ h₁ h₂ h₃ h₄ h₅ h₆ h₇ h₈ =>
      rw [if_neg h₁, if_neg h₂, if_neg h₃, if_neg h₄, if_neg h₅, if_neg h₆, if_neg h₇, if_neg h₈]
  | _ => simp

/-- The parser reads exactly the legal item that stands in the tokens. -/
theorem reads_fileItem {item : FileItem} :
    Reads (fileItem package t) (t :: ts) item us ↔
      FileItemAt package (t :: ts) item us ∧ item.IsValid := by
  constructor
  · simp only [fileItem, reads_ite, reads_map, reads_dialectStatement, reads_optionStatement,
      reads_message, reads_enumeration, reads_service, reads_extension, not_reads_fail, and_false,
      or_false]
    rintro (⟨hk, _, hnext, rfl⟩ | ⟨-, ⟨-, _, h, rfl⟩ | ⟨-, ⟨hw, name, h, rfl⟩ | ⟨-, ⟨hw, h⟩ |
      ⟨-, ⟨-, s, hs, rfl⟩ | ⟨-, ⟨-, m, ⟨hm, hvalid⟩, rfl⟩ | ⟨-, ⟨-, e, ⟨he, hvalid⟩, rfl⟩ |
      ⟨-, ⟨-, s, hs, rfl⟩ | ⟨-, -, e, ⟨he, hvalid⟩, rfl⟩⟩⟩⟩⟩⟩⟩⟩)
    · obtain ⟨-, rfl⟩ := (reads_next_of_kind (by decide) hk).mp hnext
      exact ⟨.empty ⟨_, rfl, hk⟩, FileItem.isValid_iff.mpr trivial⟩
    · obtain ⟨word, equals, name, semi, ⟨⟩, hw, he, hn, hs⟩ := h
      exact ⟨.dialect hw he hn hs, FileItem.isValid_iff.mpr trivial⟩
    · obtain ⟨hnone, semi, hname, hs⟩ := (reads_packageStatement hw).mp h
      exact ⟨.package hnone hw hname hs, FileItem.isValid_iff.mpr trivial⟩
    · obtain ⟨path, semi, text, hp, hv, hs, ⟨modifier, rfl, hm, rfl⟩ | ⟨rfl, rfl⟩⟩ :=
        (reads_importStatement hw).mp h
      · exact ⟨.publiclyImported hw hm hp hv hs, FileItem.isValid_iff.mpr trivial⟩
      · exact ⟨.imported hw hp hv hs, FileItem.isValid_iff.mpr trivial⟩
    · exact ⟨.option hs, FileItem.isValid_iff.mpr trivial⟩
    · exact ⟨.message hm, FileItem.isValid_iff.mpr hvalid⟩
    · exact ⟨.enumeration he, FileItem.isValid_iff.mpr hvalid⟩
    · exact ⟨.service hs, FileItem.isValid_iff.mpr trivial⟩
    · exact ⟨.extension he, FileItem.isValid_iff.mpr hvalid⟩
  · rintro ⟨h, hvalid⟩
    cases h with
    | empty semi =>
        obtain ⟨_, ⟨⟩, hk⟩ := semi
        rw [fileItem, if_pos hk, reads_map]
        exact ⟨t, (reads_next_of_kind (by decide) hk).mpr ⟨rfl, rfl⟩, rfl⟩
    | dialect isWord equalsKind nameKind semiKind =>
        rw [fileItem_eq isWord, fileItemOf, reads_map]
        exact ⟨.unit, reads_dialectStatement.mpr
          ⟨_, _, _, _, rfl, isWord, equalsKind, nameKind, semiKind⟩, rfl⟩
    | package undeclared isWord inner semiKind =>
        rw [fileItem_eq isWord, fileItemOf, reads_map]
        exact ⟨_, (reads_packageStatement isWord).mpr ⟨undeclared, _, inner, semiKind⟩, rfl⟩
    | imported isWord pathKind value semiKind =>
        rw [fileItem_eq isWord, fileItemOf, reads_importStatement isWord]
        exact ⟨_, _, _, pathKind, value, semiKind, .inr ⟨rfl, rfl⟩⟩
    | publiclyImported isWord isPublic pathKind value semiKind =>
        rw [fileItem_eq isWord, fileItemOf, reads_importStatement isWord]
        exact ⟨_, _, _, pathKind, value, semiKind, .inl ⟨_, rfl, isPublic, rfl⟩⟩
    | option h =>
        rw [fileItem_eq (isWord_of_optionAt h), fileItemOf, reads_map]
        exact ⟨_, reads_optionStatement.mpr h, rfl⟩
    | message h =>
        rw [fileItem_eq (isWord_of_messageAt h), fileItemOf, reads_map]
        exact ⟨_, reads_message.mpr ⟨h, FileItem.isValid_iff.mp hvalid⟩, rfl⟩
    | enumeration h =>
        rw [fileItem_eq (isWord_of_enumerationAt h), fileItemOf, reads_map]
        exact ⟨_, reads_enumeration.mpr ⟨h, FileItem.isValid_iff.mp hvalid⟩, rfl⟩
    | service h =>
        rw [fileItem_eq (isWord_of_serviceAt h), fileItemOf, reads_map]
        exact ⟨_, reads_service.mpr h, rfl⟩
    | extension h =>
        rw [fileItem_eq (isWord_of_extendAt h), fileItemOf, reads_map]
        exact ⟨_, reads_extension.mpr ⟨h, FileItem.isValid_iff.mp hvalid⟩, rfl⟩

/-! ### Files -/

theorem reads_fileItemsWithin {n : Nat} {items : List FileItem} :
    Reads (fileItemsWithin n package) ts items us ↔
      items.length < n ∧ FileItemsAt package ts items us ∧ ∀ i ∈ items, i.IsValid := by
  induction n generalizing package ts us items with
  | zero => simp [fileItemsWithin]
  | succ n ih =>
      simp only [fileItemsWithin, reads_bind (p := peek 0), reads_peek_zero, reads_ite, reads_pure]
      constructor
      · rintro ⟨t, _, ⟨rfl, rest, rfl⟩, ⟨hend, rfl, rfl⟩ | ⟨-, h⟩⟩
        · exact ⟨Nat.succ_pos _, .nil (by simpa [Token.isEnd] using hend), by simp⟩
        · simp only [reads_bind, reads_fileItem, ih, reads_pure] at h
          obtain ⟨item, ms, ⟨hitem, hvalid⟩, items, _, ⟨hn, hitems, hvalids⟩, rfl, rfl⟩ := h
          exact ⟨Nat.succ_lt_succ hn, .cons hitem hitems, by simpa using ⟨hvalid, hvalids⟩⟩
      · rintro ⟨hn, h, hvalid⟩
        cases h with
        | nil atEnd =>
            obtain ⟨t, rest, rfl, hk⟩ := atEnd
            exact ⟨t, _, ⟨rfl, rest, rfl⟩, .inl ⟨by simpa [Token.isEnd] using hk, rfl, rfl⟩⟩
        | @cons _ _ ms _ item items head tail =>
            obtain ⟨t, rest, rfl, hend⟩ := head.notAtEnd
            simp only [List.mem_cons, forall_eq_or_imp] at hvalid
            refine ⟨t, _, ⟨rfl, rest, rfl⟩, .inr ⟨?_, ?_⟩⟩
            · simpa [Token.isEnd] using hend
            · simp only [reads_bind, reads_fileItem, ih, reads_pure]
              exact ⟨item, ms, ⟨head, hvalid.1⟩, items, us,
                ⟨Nat.lt_of_succ_lt_succ hn, tail, hvalid.2⟩, rfl, rfl⟩

/-- The parser of files reads exactly the legal file whose items stand in the tokens. -/
theorem reads_file {fileName : String} {f : SchemaFile} :
    Reads (file fileName) ts f us ↔
      (∃ items, FileItemsAt none ts items us ∧ f = fileOfItems fileName items) ∧ f.IsValid := by
  rw [file, reads_bind_budget]
  simp only [reads_bind, reads_fileItemsWithin, reads_pure]
  constructor
  · rintro ⟨items, _, ⟨-, hitems, hvalid⟩, rfl, rfl⟩
    exact ⟨⟨items, hitems, rfl⟩, isValid_fileOfItems.mpr hvalid⟩
  · rintro ⟨⟨items, hitems, rfl⟩, hvalid⟩
    have := hitems.length_le
    exact ⟨items, us, ⟨by omega, hitems, isValid_fileOfItems.mp hvalid⟩, rfl, rfl⟩

/-! ### Texts of files -/

theorem run_bind_ok {α β : Type} {p : Parser α} {f : α → Parser β} {s s' : TokenStream} {b : β}
    (h : (p >>= f) s = .ok b s') : ∃ a s₁, p s = .ok a s₁ ∧ f a s₁ = .ok b s' := by
  rw [run_bind] at h
  cases hp : p s with
  | ok a s₁ =>
      rw [hp] at h
      exact ⟨a, s₁, rfl, h⟩
  | error e s₁ =>
      rw [hp] at h
      cases h

/-- A run that reads items gets to the end of the input. -/
theorem atKind_of_run_fileItemsWithin {n : Nat} {s s' : TokenStream} {items : List FileItem}
    (h : fileItemsWithin n package s = .ok items s') : AtKind .endOfInput s'.tokens := by
  induction n generalizing package s items with
  | zero => cases h
  | succ n ih =>
      rw [fileItemsWithin] at h
      obtain ⟨t, s₁, hpeek, h⟩ := run_bind_ok h
      split at h
      case isTrue hend =>
        cases h
        rw [run_peek] at hpeek
        cases htokens : s.tokens with
        | nil =>
            cases hfailure : s.failure <;> simp [htokens, hfailure] at hpeek
        | cons u us =>
            simp only [htokens, List.getElem?_cons_zero] at hpeek
            cases hpeek
            simpa [htokens, Token.isEnd] using hend
      case isFalse =>
        obtain ⟨item, s₂, -, h⟩ := run_bind_ok h
        obtain ⟨rest, s₃, hrest, h⟩ := run_bind_ok h
        cases h
        exact ih hrest

theorem run_file {fileName : String} {s s' : TokenStream} {f : SchemaFile}
    (h : file fileName s = .ok f s') : AtKind .endOfInput s'.tokens := by
  obtain ⟨n, s₁, -, h⟩ := run_bind_ok h
  obtain ⟨items, s₂, hitems, h⟩ := run_bind_ok h
  cases h
  exact atKind_of_run_fileItemsWithin hitems

end Parser

theorem SchemaFile.parse_eq_outcome (fileName source : String) :
    SchemaFile.parse fileName source =
      ((Parser.file fileName).outcome (Lexed.ofText fileName source.toList)).map (·.1) := by
  rw [SchemaFile.parse, Parser.outcome, EStateM.run, TokenStream.ofText]
  cases Parser.file fileName (.ofLexed (Lexed.ofText fileName source.toList)) <;> rfl

theorem except_map_eq_error {ε α β : Type} {x : Except ε α} {f : α → β} {e : ε} :
    x.map f = .error e ↔ x = .error e := by
  cases x <;> simp [Except.map]

theorem SchemaFile.outcome_of_parse_error {fileName source : String} {failure : Failure}
    (refused : SchemaFile.parse fileName source = .error failure) :
    (Parser.file fileName).outcome (Lexed.ofText fileName source.toList) = .error failure := by
  rw [SchemaFile.parse_eq_outcome] at refused
  exact except_map_eq_error.mp refused

/-- Why a file is refused is seen without looking at what a file consists of. -/
theorem SchemaFile.parse_eq_error {fileName source : String} {failure : Failure}
    (refused : (SchemaFile.parse fileName source).map (fun _ => ()) = .error failure) :
    SchemaFile.parse fileName source = .error failure :=
  except_map_eq_error.mp refused

/-- The tokens of the text are those of the given file: its items stand in them one after the
other, and the file is made of these. -/
def FileStands (fileName : String) (ts : List Token) (e : Token) (f : SchemaFile) : Prop :=
  ∃ items, FileItemsAt none (ts ++ [e]) items [e] ∧ f = Parser.fileOfItems fileName items

/-- A text is parsed as a file exactly if it has no lexical error, the items of the file stand
in its tokens, and the file is legal. -/
theorem SchemaFile.parse_eq_ok {fileName source : String} {f : SchemaFile} :
    SchemaFile.parse fileName source = .ok f ↔
      ∃ ts e, TokensOf fileName source.toList ts e ∧ FileStands fileName ts e f ∧ f.IsValid := by
  have hparse : SchemaFile.parse fileName source = .ok f ↔
      ∃ s, Parser.file fileName (.ofText fileName source.toList) = .ok f s := by
    unfold SchemaFile.parse
    rw [EStateM.run]
    cases Parser.file fileName (.ofText fileName source.toList) <;> simp
  rw [hparse]
  constructor
  · rintro ⟨s, hrun⟩
    obtain ⟨e', us, htokens, he'⟩ := Parser.run_file hrun
    have hsuffix := Parser.TokenDriven.suffix _ _ _ hrun
    have hnone := Lexed.failure_eq_none
      (hsuffix.subset (by simp [htokens] : e' ∈ s.tokens)) he'
    obtain ⟨ts, e, tokens⟩ := Lexed.exists_tokensOf hnone
    have hleft : (TokenStream.ofText fileName source.toList).tokens = ts ++ [e] := by
      simp [TokenStream.ofText, TokenStream.ofLexed, tokens.1]
    rw [hleft, htokens] at hsuffix
    obtain ⟨rfl, rfl⟩ := tokens.eq_of_suffix hsuffix he'
    have houtcome := Parser.TokenDriven.outcome_eq (p := Parser.file fileName)
      (.ofText fileName source.toList)
    have hfailure := Parser.TokenDriven.failure_eq _ _ _ hrun
    rw [show (TokenStream.ofText fileName source.toList).failure = none from hnone] at hfailure
    rw [hrun, Parser.outcomeOf, TokenStream.left, htokens, hfailure, TokenStream.ofText,
      TokenStream.left_ofLexed, tokens.1] at houtcome
    obtain ⟨hitems, hvalid⟩ := Parser.reads_file.mp houtcome.symm
    exact ⟨ts, e', tokens, hitems, hvalid⟩
  · rintro ⟨ts, e, tokens, hstands, hvalid⟩
    have hreads := Parser.reads_file.mpr ⟨hstands, hvalid⟩
    have houtcome := Parser.TokenDriven.outcome_eq (p := Parser.file fileName)
      (.ofText fileName source.toList)
    rw [TokenStream.ofText, TokenStream.left_ofLexed, tokens.1] at houtcome
    have hrun := houtcome.trans hreads
    obtain ⟨s, hp, -⟩ := Parser.outcomeOf_eq_ok.mp hrun
    rw [TokenStream.ofText, tokens.1]
    exact ⟨s, hp⟩

end Proto2

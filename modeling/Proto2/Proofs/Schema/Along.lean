import Proto2.Proofs.Schema.Files
import Proto2.Proofs.Schema.Grammar
import Proto2.Proofs.Setting.Along
import Proto2.Proofs.Token.Account

/-!
Where files cannot be read on.

Before a declaration is read, its first token is looked at, and in an enum the second one as well:
the first tokens of an option statement are viable for a value of the enum, too.
-/

namespace Proto2

namespace Parser

variable {l : Lexed} {t : Token} {rest : List Token}

/-! ### Pieces of declarations -/

theorem looks_documentation {g : Phrase} (productive : g.IsProductive) :
    Looks g documentation l fun _ => True := by
  unfold documentation
  exact (looks_peek_zero productive).bind_looks fun _ _ => .pure trivial

theorem along_semicolon : Along (.token .semicolon) semicolon l fun _ => True := by
  unfold semicolon
  exact (along_expect (by decide)).last fun _ _ _ => .pure trivial

theorem along_tagNumber : Along (.literal .integer) tagNumber l fun _ => True :=
  decodes_decodeInteger.along_expect (by decide)

theorem along_optionStatement :
    Along (.category .optionStatement) optionStatement l fun _ => True := by
  unfold optionStatement
  refine .category (.assoc ?_)
  refine (along_expectWord "option" rfl).bind rfl fun _ _ _ => ?_
  refine along_setting.bind rfl fun _ _ _ => ?_
  exact along_semicolon.last fun _ _ _ => .pure trivial

theorem along_trailingSettings :
    Along (.optional (.category .bracketedSettings)) trailingSettings l fun _ => True := by
  have hproductive : (Phrase.category .bracketedSettings).optional.IsProductive := rfl
  unfold trailingSettings
  refine (looks_isAt hproductive).bind fun _ _ => .ite (fun _ => ?_) fun _ => ?_
  · exact .left along_bracketedSettings
  · exact .pure (Derives.optional_iff.mpr (.inr rfl)) trivial

theorem along_field (cons : l.tokens = t :: rest) (starts : startsField t = true) :
    Along (.category .field) field l fun _ => True := by
  have hkind := kind_of_startsField starts
  obtain ⟨label, hlabel⟩ : ∃ label, Label.ofText? t.lexeme = some label := by
    simpa [startsField, hkind, Option.isSome_iff_exists] using starts
  unfold field
  have hproductive : (Phrase.category .field).IsProductive := rfl
  refine (looks_documentation hproductive).bind fun doc _ => ?_
  refine .category (.assoc (.assoc (.assoc (.assoc (.assoc ?_)))))
  refine .next_bind ?_ cons (isEnd_eq_false_of_kind hkind (by decide))
    ⟨hkind, Label.mem_of_ofText? hlabel⟩
  refine along_name.bind rfl fun _ _ _ => ?_
  refine along_identifier.bind rfl fun _ _ _ => ?_
  refine (along_expect (by decide)).bind rfl fun _ _ _ => ?_
  refine along_tagNumber.bind rfl fun _ _ _ => ?_
  refine along_trailingSettings.bind rfl fun _ _ _ => ?_
  exact along_semicolon.last fun _ _ _ => looks_ofBuild

theorem along_extensionRange {doc : String} :
    Along (.category .range) (extensionRange doc) l fun _ => True := by
  unfold extensionRange
  refine .category (along_tagNumber.bind rfl fun start _ _ => ?_)
  refine .acceptsWord_bind rfl (fun _ _ _ _ => ?_) fun _ _ _ _ => looks_ofBuild.along .empty
  refine Along.weaken (g := .word "max" ++ .empty ||| .literal .integer) ?_ fun hderives => ?_
  · refine .acceptsWord_bind rfl (fun _ _ _ _ => looks_ofBuild.along .empty) fun _ _ _ _ => ?_
    exact along_tagNumber.last fun _ _ _ => looks_ofBuild
  · rcases Derives.or_iff.mp hderives with hmax | hinteger
    · exact .right (Derives.append_empty_iff.mp hmax)
    · exact .left hinteger

theorem along_extensionRanges :
    Along (.category .extensionRanges) extensionRanges l fun _ => True := by
  have hproductive : (Phrase.category .extensionRanges).IsProductive := rfl
  have hrange : (Phrase.category .range).IsProductive := rfl
  unfold extensionRanges
  refine (looks_documentation hproductive).bind fun doc _ => ?_
  refine .category (.assoc (.assoc ?_))
  refine (along_expectWord "extensions" rfl).bind rfl fun _ _ _ => ?_
  refine .weaken ?_ Derives.append_assoc.mp
  refine (along_separated hrange fun _ => along_extensionRange).bind rfl fun _ _ _ => ?_
  exact along_semicolon.last fun _ _ _ => .pure trivial

theorem along_enumValue : Along (.category .enumValue) enumValue l fun _ => True := by
  have hproductive : (Phrase.category .enumValue).IsProductive := rfl
  unfold enumValue
  refine (looks_documentation hproductive).bind fun doc _ => ?_
  refine .category (.assoc (.assoc (.assoc ?_)))
  refine along_identifier.bind rfl fun _ _ _ => ?_
  refine (along_expect (by decide)).bind rfl fun _ _ _ => ?_
  refine along_tagNumber.bind rfl fun _ _ _ => ?_
  refine along_trailingSettings.bind rfl fun _ _ _ => ?_
  exact along_semicolon.last fun _ _ _ => looks_ofBuild

/-! ### Bodies -/

theorem along_bodyItems {α : Type} {g : Phrase} {opened : Token} {item : Token → Parser α}
    [∀ t, TokenDriven (item t)]
    (each : ∀ {l t rest}, l.tokens = t :: rest → Along g (item t) l fun _ => True)
    (productive : g.IsProductive) :
    Along (.many g ++ .token .closeBrace) (bodyItems opened item) l fun _ => True := by
  unfold bodyItems
  refine along_itemsUntil (by decide) fun l' => ?_
  refine (looks_peek_zero productive).bind ?_
  rintro t ⟨rest, hcons⟩
  exact .ite (fun _ => .fail hcons productive) fun _ => each hcons

theorem along_empty_item {α : Type} {a : α} (cons : l.tokens = t :: rest)
    (kind : t.kind = .semicolon) :
    Along (.token .semicolon) (next >>= fun _ => pure a) l fun _ => True :=
  (along_next_of_kind cons kind (by decide)).last fun _ _ _ => .pure trivial

/-- The word that may start an option statement may be the name of a value as well. -/
theorem looks_startsEnumOption {g : Phrase} (cons : l.tokens = t :: rest)
    (viable : t.kind = .identifier → g.Viable [t]) :
    Looks g (startsEnumOption t) l fun _ => True := by
  unfold startsEnumOption
  refine .ite (fun hword => ?_) fun _ => .pure trivial
  refine (looks_peek fun hle => ?_).bind_looks fun _ _ => .pure trivial
  obtain rfl : rest = [] := by simpa [cons] using hle
  rw [cons]
  exact viable (Token.kind_of_isWord hword)

theorem along_enumItem {name : String} (cons : l.tokens = t :: rest) :
    Along (.token .semicolon ||| .category .optionStatement ||| .category .enumValue)
      (enumItem name t) l fun _ => True := by
  unfold enumItem
  refine .ite (fun hkind => ?_) fun _ => ?_
  · exact .left (.left (along_empty_item cons hkind))
  refine (looks_startsEnumOption cons fun hkind => ?_).bind fun _ _ => ?_
  · have hrest : (Phrase.token .equals ++ (.literal .integer ++
        (.optional (.category .bracketedSettings) ++ .token .semicolon))).IsProductive := rfl
    have hname : Derives Token.HasValue (.token .identifier) [t] := .terminal hkind
    refine .right (.category ((Phrase.Viable.append_right hname hrest.viable).mono fun h => ?_))
    rw [Category.rule, Derives.append_assoc, Derives.append_assoc, Derives.append_assoc]
    exact h
  refine .ite (fun _ => ?_) fun _ => .ite (fun _ => ?_) fun _ => .fail cons rfl
  · exact .left (.right (along_optionStatement.last fun _ _ _ => .pure trivial))
  · exact .right (along_enumValue.last fun _ _ _ => .pure trivial)

theorem along_enumeration {scope : Scope} :
    Along (.category .enumeration) (enumeration scope) l fun _ => True := by
  have hproductive : (Phrase.category .enumeration).IsProductive := rfl
  unfold enumeration
  refine (looks_documentation hproductive).bind fun doc _ => ?_
  refine .category (.assoc (.assoc (.assoc ?_)))
  refine (along_expectWord "enum" rfl).bind rfl fun _ _ _ => ?_
  refine along_identifier.bind rfl fun _ _ _ => ?_
  refine (along_expect (by decide)).bind rfl fun opened _ _ => ?_
  exact (along_bodyItems along_enumItem rfl).last fun _ _ _ => looks_ofBuild

theorem along_extendItem {name : String} (cons : l.tokens = t :: rest) :
    Along (.token .semicolon ||| .category .field) (extendItem name t) l fun _ => True := by
  unfold extendItem
  refine .ite (fun hkind => ?_) fun _ => .ite (fun hstarts => ?_) fun _ => .fail cons rfl
  · exact .left (along_empty_item cons hkind)
  · exact .right ((along_field cons hstarts).last fun _ _ _ => .pure trivial)

theorem along_extension {scope : Scope} :
    Along (.category .extension) (extension scope) l fun _ => True := by
  have hproductive : (Phrase.category .extension).IsProductive := rfl
  unfold extension
  refine (looks_documentation hproductive).bind fun doc _ => ?_
  refine .category (.assoc (.assoc (.assoc ?_)))
  refine (along_expectWord "extend" rfl).bind rfl fun _ _ _ => ?_
  refine along_name.bind rfl fun _ _ _ => ?_
  refine (along_expect (by decide)).bind rfl fun opened _ _ => ?_
  exact (along_bodyItems along_extendItem rfl).last fun _ _ _ => looks_ofBuild

/-! ### Services -/

theorem along_rpcType : Along (.category .rpcType) rpcType l fun _ => True := by
  unfold rpcType
  refine .category (.assoc ?_)
  refine (along_expect (by decide)).bind rfl fun _ _ _ => ?_
  refine along_name.bind rfl fun _ _ _ => ?_
  exact (along_expect (by decide)).last fun _ _ _ => .pure trivial

theorem along_rpcItem {name : String} (cons : l.tokens = t :: rest) :
    Along (.token .semicolon ||| .category .optionStatement) (rpcItem name t) l fun _ => True := by
  unfold rpcItem
  refine .ite (fun hkind => ?_) fun _ => .ite (fun _ => ?_) fun _ => .fail cons rfl
  · exact .left (along_empty_item cons hkind)
  · exact .right (along_optionStatement.last fun _ _ _ => .pure trivial)

theorem along_rpcBody {name : String} :
    Along (.token .semicolon ||| .token .openBrace ++
      .many (.token .semicolon ||| .category .optionStatement) ++ .token .closeBrace ++
      .optional (.token .semicolon)) (rpcBody name) l fun _ => True := by
  refine Along.weaken (g := .token .openBrace ++
    (.many (.token .semicolon ||| .category .optionStatement) ++ .token .closeBrace ++
      .optional (.token .semicolon)) ||| .token .semicolon) ?_ fun hderives => ?_
  · rw [rpcBody_eq]
    refine .accept?_bind (by decide) rfl (fun opened _ _ _ => ?_) fun _ _ _ _ => ?_
    · rw [rpcBodyFrom]
      refine (along_bodyItems along_rpcItem rfl).bind rfl fun _ _ _ => ?_
      exact (along_skip (by decide)).last fun _ _ _ => .pure trivial
    · exact along_semicolon.last fun _ _ _ => .pure trivial
  · rcases Derives.or_iff.mp hderives with hbody | hsemicolon
    · obtain ⟨us, _, rfl, hopening, hrest⟩ := Derives.append_iff.mp hbody
      exact .right (Derives.append_assoc.mpr (Derives.append_assoc.mpr
        (.both hopening (Derives.append_assoc.mp hrest))))
    · exact .left hsemicolon

theorem along_rpc : Along (.category .rpc) rpc l fun _ => True := by
  have hproductive : (Phrase.category .rpc).IsProductive := rfl
  unfold rpc
  refine (looks_documentation hproductive).bind fun doc _ => ?_
  refine .category (.assoc (.assoc (.assoc (.assoc ?_))))
  refine (along_expectWord "rpc" rfl).bind rfl fun _ _ _ => ?_
  refine along_identifier.bind rfl fun _ _ _ => ?_
  refine along_rpcType.bind rfl fun _ _ _ => ?_
  refine (along_expectWord "returns" rfl).bind rfl fun _ _ _ => ?_
  refine along_rpcType.bind rfl fun _ _ _ => ?_
  exact along_rpcBody.last fun _ _ _ => .pure trivial

theorem along_serviceItem {name : String} (cons : l.tokens = t :: rest) :
    Along (.token .semicolon ||| .category .optionStatement ||| .category .rpc)
      (serviceItem name t) l fun _ => True := by
  unfold serviceItem
  refine .ite (fun hkind => ?_) fun _ => .ite (fun _ => ?_) fun _ => .ite (fun _ => ?_) fun _ =>
    .fail cons rfl
  · exact .left (.left (along_empty_item cons hkind))
  · exact .left (.right (along_optionStatement.last fun _ _ _ => .pure trivial))
  · exact .right (along_rpc.last fun _ _ _ => .pure trivial)

theorem along_service {scope : Scope} :
    Along (.category .service) (service scope) l fun _ => True := by
  have hproductive : (Phrase.category .service).IsProductive := rfl
  unfold service
  refine (looks_documentation hproductive).bind fun doc _ => ?_
  refine .category (.assoc (.assoc (.assoc ?_)))
  refine (along_expectWord "service" rfl).bind rfl fun _ _ _ => ?_
  refine along_identifier.bind rfl fun _ _ _ => ?_
  refine (along_expect (by decide)).bind rfl fun opened _ _ => ?_
  exact (along_bodyItems along_serviceItem rfl).last fun _ _ _ => .pure trivial

/-! ### Messages -/

section Inner

variable {inner : Scope → Parser MessageWithExtensions} [∀ scope, TokenDriven (inner scope)]

omit [∀ scope, TokenDriven (inner scope)] in
theorem along_messageItem {scope : Scope} {name : String}
    (message : ∀ scope l, Along (.category .message) (inner scope) l fun _ => True)
    (cons : l.tokens = t :: rest) :
    Along (.token .semicolon ||| .category .field ||| .category .message |||
      .category .enumeration ||| .category .extensionRanges ||| .category .optionStatement |||
      .category .extension) (messageItem inner scope name t) l fun _ => True := by
  unfold messageItem
  refine .ite (fun hkind => ?_) fun _ => .ite (fun hstarts => ?_) fun _ => .ite (fun _ => ?_)
    fun _ => .ite (fun _ => ?_) fun _ => .ite (fun _ => ?_) fun _ => .ite (fun _ => ?_) fun _ =>
    .ite (fun _ => ?_) fun _ => .fail cons rfl
  · exact .left (.left (.left (.left (.left (.left (along_empty_item cons hkind))))))
  · refine .left (.left (.left (.left (.left (.right ?_)))))
    exact (along_field cons hstarts).last fun _ _ _ => .pure trivial
  · refine .left (.left (.left (.left (.right ?_))))
    exact (message scope l).last fun _ _ _ => .pure trivial
  · exact .left (.left (.left (.right (along_enumeration.last fun _ _ _ => .pure trivial))))
  · exact .left (.left (.right (along_extensionRanges.last fun _ _ _ => .pure trivial)))
  · exact .left (.right (along_optionStatement.last fun _ _ _ => .pure trivial))
  · exact .right (along_extension.last fun _ _ _ => .pure trivial)

theorem along_messageWith {scope : Scope}
    (message : ∀ scope l, Along (.category .message) (inner scope) l fun _ => True) :
    Along (.category .message) (messageWith inner scope) l fun _ => True := by
  have hproductive : (Phrase.category .message).IsProductive := rfl
  unfold messageWith
  refine (looks_documentation hproductive).bind fun doc _ => ?_
  refine .category (.assoc (.assoc (.assoc ?_)))
  refine (along_expectWord "message" rfl).bind rfl fun _ _ _ => ?_
  refine along_identifier.bind rfl fun _ _ _ => ?_
  refine (along_expect (by decide)).bind rfl fun opened _ _ => ?_
  refine (along_bodyItems (along_messageItem message) rfl).last fun _ _ _ => ?_
  exact looks_ofBuild.bind_looks fun _ _ => .pure trivial

end Inner

theorem along_messageWithin {depth : Nat} {scope : Scope} :
    Along (.category .message) (messageWithin depth scope) l fun _ => True := by
  induction depth generalizing l scope with
  | zero => exact along_outOfBudget
  | succ depth ih => exact along_messageWith fun _ _ => ih

theorem along_message {scope : Scope} :
    Along (.category .message) (message scope) l fun _ => True := by
  unfold message
  exact looks_budget.bind fun _ _ => along_messageWithin

/-! ### Files -/

theorem along_importStatement (cons : l.tokens = t :: rest) (isWord : t.isWord "import" = true) :
    Along (.word "import" ++ .optional (.word "public") ++ .literal .string ++ .token .semicolon)
      importStatement l fun item => item.package? = none := by
  have hword : (Terminal.word ["import"]).Admits Token.HasValue t := by
    simpa [Terminal.Admits, Token.isWord] using isWord
  have hrest {isPublic : Bool} (l' : Lexed) :
      Along (.literal .string ++ .token .semicolon) (do
        let path ← decodeString (← expect .schema .string "an import path")
        semicolon
        return FileItem.imported isPublic path) l' fun item => item.package? = none := by
    have hpath : Along (.literal .string) (expect .schema .string "an import path" >>= decodeString)
        l' fun _ => True := decodes_decodeString.along_expect (by decide)
    have hround := hpath.bind (f := fun path => do
      semicolon
      return FileItem.imported isPublic path) (R := fun item => item.package? = none)
      (h := .token .semicolon) rfl fun _ _ _ => along_semicolon.last fun _ _ _ => .pure rfl
    rwa [bind_assoc] at hround
  unfold importStatement
  refine .assoc (.assoc (.next_bind ?_ cons (isEnd_eq_false_of_isWord isWord) hword))
  exact .optional (.acceptsWord_bind rfl (fun _ _ _ _ => hrest _) fun _ _ _ _ => hrest _)

theorem along_dialectStatement :
    Along (.word "syntax" ++ .token .equals ++ .token .string ++ .token .semicolon)
      dialectStatement l fun _ => True := by
  unfold dialectStatement
  refine .assoc (.assoc ?_)
  refine (along_expectWord "syntax" rfl).bind rfl fun _ _ _ => ?_
  refine (along_expect (by decide)).bind rfl fun _ _ _ => ?_
  exact (along_expect (by decide)).bind rfl fun _ _ _ => along_semicolon

theorem along_packageStatement (cons : l.tokens = t :: rest)
    (isWord : t.isWord "package" = true) :
    Along (.category .package) (packageStatement none t) l fun _ => True := by
  have hword : (Terminal.word ["package"]).Admits Token.HasValue t := by
    simpa [Terminal.Admits, Token.isWord] using isWord
  unfold packageStatement
  refine .category (.assoc (.next_bind ?_ cons (isEnd_eq_false_of_isWord isWord) hword))
  refine along_name.bind rfl fun _ _ _ => ?_
  exact along_semicolon.last fun _ _ _ => .pure trivial

/-- An item that is no package statement. -/
theorem along_fileItem {package : Option String} (cons : l.tokens = t :: rest)
    (other : t.isWord "package" = false) :
    Along (.category .statement) (fileItem package t) l fun item => item.package? = none := by
  have hproductive : (Phrase.category .statement).IsProductive := rfl
  unfold fileItem
  refine .ite (fun hkind => ?_) fun _ => .ite (fun _ => ?_) fun _ => .ite (fun hword => ?_) fun _ =>
    .ite (fun hword => ?_) fun _ => .ite (fun _ => ?_) fun _ => .ite (fun _ => ?_) fun _ =>
    .ite (fun _ => ?_) fun _ => .ite (fun _ => ?_) fun _ => .ite (fun _ => ?_) fun _ =>
    .fail cons hproductive
  · refine .category (.left (.left (.left (.left (.left (.left (.left ?_)))))))
    exact (along_next_of_kind cons hkind (by decide)).last fun _ _ _ => .pure rfl
  · refine .category (.left (.left (.left (.left (.left (.left (.right ?_)))))))
    exact along_dialectStatement.last fun _ _ _ => .pure rfl
  · rw [other] at hword
    cases hword
  · refine .category (.left (.left (.left (.left (.left (.right ?_))))))
    exact along_importStatement cons hword
  · refine .category (.left (.left (.left (.left (.right ?_)))))
    exact along_optionStatement.last fun _ _ _ => .pure rfl
  · refine .category (.left (.left (.left (.right ?_))))
    exact along_message.last fun _ _ _ => .pure rfl
  · exact .category (.left (.left (.right (along_enumeration.last fun _ _ _ => .pure rfl))))
  · exact .category (.left (.right (along_service.last fun _ _ _ => .pure rfl)))
  · exact .category (.right (along_extension.last fun _ _ _ => .pure rfl))

theorem along_fileItem_of_package (cons : l.tokens = t :: rest)
    (isWord : t.isWord "package" = true) :
    Along (.category .package) (fileItem none t) l fun item => item.package?.isSome = true := by
  rw [fileItem_eq isWord]
  exact (along_packageStatement cons isWord).last fun _ _ _ => .pure rfl

/-- What may follow in a file: a package may be declared only once. -/
def restOfFile : Option String → Phrase
  | none => .category .file
  | some _ => .many (.category .statement)

theorem isProductive_restOfFile (package : Option String) : (restOfFile package).IsProductive := by
  cases package <;> rfl

/-- A statement does not change what may follow. -/
theorem derives_restOfFile {readable : Token → Prop} {package : Option String} {ts : List Token}
    (h : Derives readable (.category .statement ++ restOfFile package) ts) :
    Derives readable (restOfFile package) ts := by
  cases package with
  | some declared => exact h.of_append_many
  | none =>
      obtain ⟨us, vs, rfl, hfirst, hfile⟩ := Derives.append_iff.mp h
      obtain ⟨ws, xs, rfl, hmore, hpackage⟩ :=
        Derives.append_iff.mp (Derives.category_iff.mp hfile)
      rw [← List.append_assoc]
      exact .category (.both (.more hfirst hmore) hpackage)

theorem along_fileItemsWithin {n : Nat} {package : Option String} :
    Along (restOfFile package) (fileItemsWithin n package) l fun _ => True := by
  induction n generalizing l package with
  | zero => exact along_outOfBudget
  | succ n ih =>
      rw [fileItemsWithin]
      refine (looks_peek_zero (isProductive_restOfFile package)).bind ?_
      rintro t ⟨rest, hcons⟩
      refine .ite (fun _ => .pure ?_ trivial) fun _ => ?_
      · cases package with
        | none => exact .category (.both .none (.right .empty))
        | some declared => exact .none
      cases hword : t.isWord "package" with
      | false =>
          refine Along.weaken (g := .category .statement ++ restOfFile package) ?_
            derives_restOfFile
          refine (along_fileItem hcons hword).bind (isProductive_restOfFile package) ?_
          intro item l' hnone
          rw [hnone, Option.none_or]
          exact ih.last fun _ _ _ => .pure trivial
      | true =>
          cases package with
          | some declared =>
              rw [fileItem_eq hword]
              exact Failure.inPlace_head hcons rfl rfl
          | none =>
              refine Along.weaken (g := .category .package ++ .many (.category .statement)) ?_ ?_
              · refine (along_fileItem_of_package hcons hword).bind rfl fun item l' hsome => ?_
                obtain ⟨name, hname⟩ := Option.isSome_iff_exists.mp hsome
                rw [hname]
                have hrest : Along (restOfFile (some name)) (fileItemsWithin n (some name)) l'
                    fun _ => True := ih
                exact hrest.last fun _ _ _ => .pure trivial
              · intro ts hderives
                rw [← List.nil_append ts]
                exact .category (.both .none (.left hderives))

theorem along_file {fileName : String} :
    Along (.category .file) (file fileName) l fun _ => True := by
  unfold file
  refine looks_budget.bind fun n _ => ?_
  have hitems : Along (restOfFile none) (fileItemsWithin n none) l fun _ => True :=
    along_fileItemsWithin
  exact hitems.last fun _ _ _ => .pure trivial

end Parser

end Proto2

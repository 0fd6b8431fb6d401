import Proto2.Proofs.Schema.Files
import Proto2.Proofs.Setting.Alike

/-!
What files are read as on tokens that are alike.

A parser has no state but its stream of tokens, and of the stream it uses nothing but the tokens
that are left.  So whatever was read or failed to be read before, a file that is read from tokens
that are alike is the same, or is refused for the same reason.
-/

namespace Proto2

namespace Parser

variable {L : Likeness} {α : Type} {t u : Token}

/-! ### Pieces of declarations -/

theorem alike_documentation : Alike L Eq documentation documentation := by
  unfold documentation
  exact (alike_peek 0).bind fun _ _ htu => .pure htu.documentation

theorem alike_semicolon : Alike L Eq semicolon semicolon := by
  unfold semicolon
  exact (alike_expect .schema .semicolon _).bind fun _ _ _ => .pure rfl

theorem alike_tagNumber : Alike L Eq tagNumber tagNumber := by
  unfold tagNumber
  exact (alike_expect .schema .integer _).bind fun _ _ => alike_decodeInteger

theorem alike_optionStatement : Alike L Eq optionStatement optionStatement := by
  unfold optionStatement
  refine (alike_expectWord .schema "option").bind fun _ _ _ => alike_setting.bind_eq fun _ => ?_
  exact alike_semicolon.bind_eq fun _ => .pure rfl

theorem alike_trailingSettings : Alike L Eq trailingSettings trailingSettings := by
  unfold trailingSettings
  exact (alike_isAt .openBracket).bind_eq fun _ => .ite .rfl alike_bracketedSettings (.pure rfl)

theorem alike_field : Alike L Eq field field := by
  unfold field
  refine alike_documentation.bind_eq fun doc => alike_next.bind fun label label' hlabel => ?_
  refine (alike_qualifiedName .schema _).bind_eq fun type => ?_
  refine (alike_identifier .schema _).bind_eq fun name => ?_
  refine (alike_expect .schema .equals _).bind fun _ _ _ => alike_tagNumber.bind_eq fun tag => ?_
  refine alike_trailingSettings.bind_eq fun options => alike_semicolon.bind_eq fun _ => ?_
  rw [hlabel.lexeme]
  exact alike_ofBuild

theorem alike_extensionRange (doc : String) :
    Alike L Eq (extensionRange doc) (extensionRange doc) := by
  unfold extensionRange
  refine alike_tagNumber.bind_eq fun start => (alike_acceptsWord "to").bind_eq fun _ => ?_
  refine .ite .rfl ((alike_acceptsWord "max").bind_eq fun _ => ?_) alike_ofBuild
  exact .ite .rfl alike_ofBuild (alike_tagNumber.bind_eq fun _ => alike_ofBuild)

theorem alike_extensionRanges : Alike L Eq extensionRanges extensionRanges := by
  unfold extensionRanges
  refine alike_documentation.bind_eq fun doc => ?_
  refine (alike_expectWord .schema "extensions").bind fun _ _ _ => ?_
  refine (alike_separated (alike_extensionRange doc)).bind_eq fun _ => ?_
  exact alike_semicolon.bind_eq fun _ => .pure rfl

theorem alike_enumValue : Alike L Eq enumValue enumValue := by
  unfold enumValue
  refine alike_documentation.bind_eq fun doc => (alike_identifier .schema _).bind_eq fun name => ?_
  refine (alike_expect .schema .equals _).bind fun _ _ _ => alike_tagNumber.bind_eq fun tag => ?_
  refine alike_trailingSettings.bind_eq fun options => alike_semicolon.bind_eq fun _ => ?_
  exact alike_ofBuild

/-! ### Bodies -/

theorem alike_bodyItems {item : Token → Parser α} [∀ t, TokenDriven (item t)]
    {opened opened' : Token} (hopened : L.token opened opened')
    (alike : ∀ {t u}, L.token t u → Alike L Eq (item t) (item u)) :
    Alike L Eq (bodyItems opened item) (bodyItems opened' item) := by
  unfold bodyItems
  refine alike_itemsUntil ((alike_peek 0).bind fun t u htu => ?_)
  exact .ite (by rw [htu.isEnd]) (.fail htu (.unclosedBody hopened)) (alike htu)

/-- A token that is no item of a body is refused alike. -/
theorem alike_misplaced {body : BodyKind} {name : String} (alike : L.token t u) :
    Alike L Eq (fail .schema t (.misplaced body name) : Parser α)
      (fail .schema u (.misplaced body name)) :=
  .fail alike (.same _)

theorem alike_skip {a : α} :
    Alike L Eq (next >>= fun _ => pure a : Parser α) (next >>= fun _ => pure a) :=
  alike_next.bind fun _ _ _ => .pure rfl

theorem startsField_eq_of_alike (alike : L.token t u) : startsField t = startsField u := by
  rw [startsField, startsField, alike.kind, alike.lexeme]

theorem alike_startsEnumOption (alike : L.token t u) :
    Alike L Eq (startsEnumOption t) (startsEnumOption u) := by
  unfold startsEnumOption
  refine .ite alike.isWord_iff ((alike_peek 1).bind fun _ _ hnext => .pure ?_) (.pure rfl)
  rw [hnext.kind]

theorem alike_enumItem {name : String} (alike : L.token t u) :
    Alike L Eq (enumItem name t) (enumItem name u) := by
  unfold enumItem
  refine .ite alike.kind_iff alike_skip ((alike_startsEnumOption alike).bind_eq fun _ => ?_)
  refine .ite .rfl (alike_optionStatement.bind_eq fun _ => .pure rfl) ?_
  refine .ite alike.kind_iff (alike_enumValue.bind_eq fun _ => .pure rfl) ?_
  exact alike_misplaced alike

theorem alike_enumeration (scope : Scope) : Alike L Eq (enumeration scope) (enumeration scope) := by
  unfold enumeration
  refine alike_documentation.bind_eq fun doc => ?_
  refine (alike_expectWord .schema "enum").bind fun _ _ _ => ?_
  refine (alike_identifier .schema _).bind_eq fun name => ?_
  refine (alike_expect .schema .openBrace _).bind fun _ _ hopened => ?_
  exact (alike_bodyItems hopened alike_enumItem).bind_eq fun _ => alike_ofBuild

theorem alike_rpcType : Alike L Eq rpcType rpcType := by
  unfold rpcType
  refine (alike_expect .schema .openParen _).bind fun _ _ _ => ?_
  refine (alike_qualifiedName .schema _).bind_eq fun _ => ?_
  exact (alike_expect .schema .closeParen _).bind fun _ _ _ => .pure rfl

theorem alike_rpcItem {name : String} (alike : L.token t u) :
    Alike L Eq (rpcItem name t) (rpcItem name u) := by
  unfold rpcItem
  refine .ite alike.kind_iff alike_skip (.ite alike.isWord_iff ?_ (alike_misplaced alike))
  exact alike_optionStatement.bind_eq fun _ => .pure rfl

theorem alike_rpcBody (name : String) : Alike L Eq (rpcBody name) (rpcBody name) := by
  rw [rpcBody_eq]
  refine (alike_accept? .openBrace).bind fun _ _ hopened => ?_
  cases hopened with
  | none => exact alike_semicolon.bind_eq fun _ => .pure rfl
  | some hopened =>
      refine Alike.bind_eq (alike_bodyItems hopened alike_rpcItem) fun _ => ?_
      exact (alike_accept? .semicolon).bind fun _ _ _ => .pure rfl

theorem alike_rpc : Alike L Eq rpc rpc := by
  unfold rpc
  refine alike_documentation.bind_eq fun doc => ?_
  refine (alike_expectWord .schema "rpc").bind fun _ _ _ => ?_
  refine (alike_identifier .schema _).bind_eq fun name => alike_rpcType.bind_eq fun request => ?_
  refine (alike_expectWord .schema "returns").bind fun _ _ _ => ?_
  exact alike_rpcType.bind_eq fun response => (alike_rpcBody name).bind_eq fun _ => .pure rfl

theorem alike_serviceItem {name : String} (alike : L.token t u) :
    Alike L Eq (serviceItem name t) (serviceItem name u) := by
  unfold serviceItem
  refine .ite alike.kind_iff alike_skip ?_
  refine .ite alike.isWord_iff (alike_optionStatement.bind_eq fun _ => .pure rfl) ?_
  refine .ite alike.isWord_iff (alike_rpc.bind_eq fun _ => .pure rfl) (alike_misplaced alike)

theorem alike_service (scope : Scope) : Alike L Eq (service scope) (service scope) := by
  unfold service
  refine alike_documentation.bind_eq fun doc => ?_
  refine (alike_expectWord .schema "service").bind fun _ _ _ => ?_
  refine (alike_identifier .schema _).bind_eq fun name => ?_
  refine (alike_expect .schema .openBrace _).bind fun _ _ hopened => ?_
  exact (alike_bodyItems hopened alike_serviceItem).bind_eq fun _ => .pure rfl

theorem alike_extendItem {name : String} (alike : L.token t u) :
    Alike L Eq (extendItem name t) (extendItem name u) := by
  unfold extendItem
  refine .ite alike.kind_iff alike_skip ?_
  refine .ite (by rw [startsField_eq_of_alike alike]) ?_ (alike_misplaced alike)
  exact alike_field.bind_eq fun _ => .pure rfl

theorem alike_extension (scope : Scope) : Alike L Eq (extension scope) (extension scope) := by
  unfold extension
  refine alike_documentation.bind_eq fun doc => ?_
  refine (alike_expectWord .schema "extend").bind fun _ _ _ => ?_
  refine (alike_qualifiedName .schema _).bind_eq fun name => ?_
  refine (alike_expect .schema .openBrace _).bind fun _ _ hopened => ?_
  exact (alike_bodyItems hopened alike_extendItem).bind_eq fun _ => alike_ofBuild

/-! ### Messages -/

section Inner

variable {inner : Scope → Parser MessageWithExtensions} [∀ scope, TokenDriven (inner scope)]

omit [∀ scope, TokenDriven (inner scope)] in
theorem alike_messageItem (messages : ∀ scope, Alike L Eq (inner scope) (inner scope))
    {scope : Scope} {name : String} (alike : L.token t u) :
    Alike L Eq (messageItem inner scope name t) (messageItem inner scope name u) := by
  unfold messageItem
  refine .ite alike.kind_iff alike_skip ?_
  refine .ite (by rw [startsField_eq_of_alike alike]) (alike_field.bind_eq fun _ => .pure rfl) ?_
  refine .ite alike.isWord_iff ((messages scope).bind_eq fun _ => .pure rfl) ?_
  refine .ite alike.isWord_iff ((alike_enumeration scope).bind_eq fun _ => .pure rfl) ?_
  refine .ite alike.isWord_iff (alike_extensionRanges.bind_eq fun _ => .pure rfl) ?_
  refine .ite alike.isWord_iff (alike_optionStatement.bind_eq fun _ => .pure rfl) ?_
  refine .ite alike.isWord_iff ((alike_extension scope).bind_eq fun _ => .pure rfl) ?_
  exact alike_misplaced alike

theorem alike_messageWith (messages : ∀ scope, Alike L Eq (inner scope) (inner scope))
    (scope : Scope) : Alike L Eq (messageWith inner scope) (messageWith inner scope) := by
  unfold messageWith
  refine alike_documentation.bind_eq fun doc => ?_
  refine (alike_expectWord .schema "message").bind fun _ _ _ => ?_
  refine (alike_identifier .schema _).bind_eq fun name => ?_
  refine (alike_expect .schema .openBrace _).bind fun _ _ hopened => ?_
  refine (alike_bodyItems hopened (alike_messageItem messages)).bind_eq fun items => ?_
  exact alike_ofBuild.bind_eq fun _ => .pure rfl

end Inner

theorem alike_messageWithin (depth : Nat) (scope : Scope) :
    Alike L Eq (messageWithin depth scope) (messageWithin depth scope) := by
  induction depth generalizing scope with
  | zero => exact alike_outOfBudget
  | succ depth ih => exact alike_messageWith ih scope

theorem alike_message (scope : Scope) : Alike L Eq (message scope) (message scope) := by
  unfold message
  exact alike_budget.bind_eq fun depth => alike_messageWithin depth scope

/-! ### Files -/

theorem alike_dialectStatement : Alike L Eq dialectStatement dialectStatement := by
  unfold dialectStatement
  refine (alike_expectWord .schema "syntax").bind fun _ _ _ => ?_
  refine (alike_expect .schema .equals _).bind fun _ _ _ => ?_
  exact (alike_expect .schema .string _).bind fun _ _ _ => alike_semicolon

theorem alike_packageStatement (declared : Option String) (alike : L.token t u) :
    Alike L Eq (packageStatement declared t) (packageStatement declared u) := by
  unfold packageStatement
  cases declared with
  | some package => exact .fail alike (.same _)
  | none =>
      refine alike_next.bind fun _ _ _ => (alike_qualifiedName .schema _).bind_eq fun _ => ?_
      exact alike_semicolon.bind_eq fun _ => .pure rfl

theorem alike_importStatement : Alike L Eq importStatement importStatement := by
  unfold importStatement
  refine alike_next.bind fun _ _ _ => (alike_acceptsWord "public").bind_eq fun isPublic => ?_
  refine (alike_expect .schema .string _).bind fun _ _ hpath => ?_
  refine (alike_decodeString hpath).bind_eq fun path => ?_
  exact alike_semicolon.bind_eq fun _ => .pure rfl

theorem alike_fileItem {package : Option String} (alike : L.token t u) :
    Alike L Eq (fileItem package t) (fileItem package u) := by
  unfold fileItem
  refine .ite alike.kind_iff alike_skip ?_
  refine .ite alike.isWord_iff (alike_dialectStatement.bind_eq fun _ => .pure rfl) ?_
  refine .ite alike.isWord_iff ?_ ?_
  · exact (alike_packageStatement package alike).bind_eq fun _ => .pure rfl
  refine .ite alike.isWord_iff alike_importStatement ?_
  refine .ite alike.isWord_iff (alike_optionStatement.bind_eq fun _ => .pure rfl) ?_
  refine .ite alike.isWord_iff ((alike_message _).bind_eq fun _ => .pure rfl) ?_
  refine .ite alike.isWord_iff ((alike_enumeration _).bind_eq fun _ => .pure rfl) ?_
  refine .ite alike.isWord_iff ((alike_service _).bind_eq fun _ => .pure rfl) ?_
  refine .ite alike.isWord_iff ((alike_extension _).bind_eq fun _ => .pure rfl) ?_
  exact .fail alike (.same _)

theorem alike_fileItemsWithin (n : Nat) (package : Option String) :
    Alike L Eq (fileItemsWithin n package) (fileItemsWithin n package) := by
  induction n generalizing package with
  | zero => exact alike_outOfBudget
  | succ n ih =>
      unfold fileItemsWithin
      refine (alike_peek 0).bind fun _ _ htu => .ite (by rw [htu.isEnd]) (.pure rfl) ?_
      exact (alike_fileItem htu).bind_eq fun item => (ih _).bind_eq fun _ => .pure rfl

theorem alike_file (fileName : String) : Alike L Eq (file fileName) (file fileName) := by
  unfold file
  exact alike_budget.bind_eq fun n => (alike_fileItemsWithin n none).bind_eq fun _ => .pure rfl

/-! ### Calls one after another -/

/-- The stream that a call leaves, whether it succeeds or fails. -/
def streamLeft (p : Parser α) (s : TokenStream) : TokenStream :=
  match p.run s with
  | .ok _ s' => s'
  | .error _ s' => s'

end Parser

/-- The stream after calls of parsers, one after another. -/
def TokenStream.after (s : TokenStream) (calls : List (Parser Unit)) : TokenStream :=
  calls.foldl (fun s call => call.streamLeft s) s

end Proto2

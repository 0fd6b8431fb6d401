import Proto2.Proofs.Schema.Files
import Proto2.Proofs.Setting.Passage

/-!
What the parsers of declarations pass over.
-/

namespace Proto2.Parser

variable {stack rest : List Token} {l : Lexed} {t : Token}

/-! ### Pieces of declarations -/

theorem peeks_documentation : Peeks stack documentation l fun _ => True := by
  unfold documentation
  exact .bind peeks_peek_zero fun _ _ _ _ => .pure trivial

theorem passes_semicolon : Passes 1 stack stack semicolon l := by
  unfold semicolon
  exact .bind (passes_expect (steps_other (by decide) (by decide))) fun _ _ _ => .pure

theorem passes_tagNumber : Passes 1 stack stack tagNumber l := by
  unfold tagNumber
  exact .bind (passes_expect (steps_other (by decide) (by decide))) fun t _ _ =>
    passes_decodeInteger t

theorem passes_optionStatement : Passes 1 stack stack optionStatement l := by
  unfold optionStatement
  refine .bind passes_expectWord fun _ l₁ _ => ?_
  refine .bind passes_setting fun _ l₂ _ => ?_
  exact .bind passes_semicolon fun _ _ _ => .pure

theorem passes_trailingSettings : Passes 0 stack stack trailingSettings l := by
  unfold trailingSettings
  refine .peek_bind peeks_isAt fun b l₁ _ _ => ?_
  exact .ite (fun _ => passes_bracketedSettings.mono (Nat.zero_le 1)) fun _ => .pure

theorem passes_field (cons : l.tokens = t :: rest) (starts : startsField t = true) :
    Passes 1 stack stack field l := by
  unfold field
  refine .peek_bind peeks_documentation fun doc l₁ h₁ _ => ?_
  refine .next_bind (steps_other (by decide) (by decide)) (h₁.trans cons)
    (kind_of_startsField starts) fun l₂ _ => ?_
  refine .bind passes_qualifiedName fun type l₃ _ => ?_
  refine .bind passes_identifier fun name l₄ _ => ?_
  refine .bind (passes_expect (steps_other (by decide) (by decide))) fun _ l₅ _ => ?_
  refine .bind passes_tagNumber fun tag l₆ _ => ?_
  refine .bind passes_trailingSettings fun options l₇ _ => ?_
  exact .bind passes_semicolon fun _ _ _ => .ofBuild

theorem passes_extensionRange {doc : String} : Passes 1 stack stack (extensionRange doc) l := by
  unfold extensionRange
  refine .bind passes_tagNumber fun start l₁ _ => ?_
  refine .bind passes_acceptsWord fun b l₂ _ => .ite (fun _ => ?_) fun _ => .ofBuild
  refine .bind passes_acceptsWord fun b l₃ _ => .ite (fun _ => .ofBuild) fun _ => ?_
  exact .bind passes_tagNumber fun _ _ _ => .ofBuild

theorem passes_extensionRanges : Passes 1 stack stack extensionRanges l := by
  unfold extensionRanges
  refine .peek_bind peeks_documentation fun doc l₁ _ _ => ?_
  refine .bind passes_expectWord fun _ l₂ _ => ?_
  refine .bind (passes_separated fun _ _ => passes_extensionRange) fun _ l₃ _ => ?_
  exact .bind passes_semicolon fun _ _ _ => .pure

theorem passes_enumValue : Passes 1 stack stack enumValue l := by
  unfold enumValue
  refine .peek_bind peeks_documentation fun doc l₁ _ _ => ?_
  refine .bind passes_identifier fun name l₂ _ => ?_
  refine .bind (passes_expect (steps_other (by decide) (by decide))) fun _ l₃ _ => ?_
  refine .bind passes_tagNumber fun tag l₄ _ => ?_
  refine .bind passes_trailingSettings fun options l₅ _ => ?_
  exact .bind passes_semicolon fun _ _ _ => .ofBuild

/-! ### Bodies -/

section Bodies

variable {α : Type} {opened : Token} {item : Token → Parser α}

/-- An item of a body, which is not closed where the input ends. -/
def bodyStep (opened : Token) (item : Token → Parser α) : Parser α := do
  let t ← peek 0
  if t.isEnd then
    fail .schema t (.unclosedBody opened.span)
  else
    item t

theorem bodyItems_eq : bodyItems opened item = itemsUntil .closeBrace (bodyStep opened item) := rfl

variable [∀ t, TokenDriven (item t)]

instance tokenDriven_bodyStep : TokenDriven (bodyStep opened item) := by
  unfold bodyStep
  infer_instance

/-- The brace that is not closed is the last one that waits. -/
theorem passes_bodyStep (kind : opened.kind = .openBrace)
    (each : ∀ l' t rest, l'.tokens.length ≤ l.tokens.length → l'.tokens = t :: rest →
      Passes 1 (opened :: stack) (opened :: stack) (item t) l') :
    Passes 1 (opened :: stack) (opened :: stack) (bodyStep opened item) l := by
  unfold bodyStep
  refine .peek_bind peeks_peek_zero ?_
  rintro t l₁ h₁ ⟨rest, hcons⟩
  rw [← h₁] at hcons
  refine .ite (fun hend => ?_) fun _ => each l₁ t rest (by rw [h₁]) hcons
  exact .fail ⟨opened, ⟨[], rest, stack, hcons, hend, rfl⟩, kind, rfl⟩

theorem passes_bodyItems (kind : opened.kind = .openBrace)
    (each : ∀ l' t rest, l'.tokens.length ≤ l.tokens.length → l'.tokens = t :: rest →
      Passes 1 (opened :: stack) (opened :: stack) (item t) l') :
    Passes 0 (opened :: stack) stack (bodyItems opened item) l := by
  rw [bodyItems_eq]
  exact passes_itemsUntil (by rw [kind]; rfl) fun l₁ h₁ =>
    passes_bodyStep kind fun l₂ t rest h₂ hcons => each l₂ t rest (by omega) hcons

end Bodies

theorem passes_next_semicolon (cons : l.tokens = t :: rest) (kind : t.kind = .semicolon) :
    Passes 1 stack stack next l :=
  passes_next (steps_other (by decide) (by decide)) cons kind

/-! ### Enums and extensions -/

theorem peeks_startsEnumOption : Peeks stack (startsEnumOption t) l fun _ => True := by
  unfold startsEnumOption
  exact .ite (fun _ => .bind (peeks_peek 1) fun _ _ _ _ => .pure trivial) fun _ => .pure trivial

theorem passes_enumItem {name : String} (cons : l.tokens = t :: rest) :
    Passes 1 stack stack (enumItem name t) l := by
  unfold enumItem
  refine .ite (fun kind => ?_) fun _ => ?_
  · exact .bind (passes_next_semicolon cons kind) fun _ _ _ => .pure
  refine .peek_bind peeks_startsEnumOption fun b l₁ _ _ => ?_
  refine .ite (fun _ => ?_) fun _ => .ite (fun _ => ?_) fun _ => .fail trivial
  · exact .bind passes_optionStatement fun _ _ _ => .pure
  · exact .bind passes_enumValue fun _ _ _ => .pure

theorem passes_enumeration {scope : Scope} : Passes 1 stack stack (enumeration scope) l := by
  unfold enumeration
  refine .peek_bind peeks_documentation fun doc l₁ _ _ => ?_
  refine .bind passes_expectWord fun _ l₂ _ => ?_
  refine .bind passes_identifier fun name l₃ _ => ?_
  refine .enter (proceeds_expect (steps_open rfl)) fun opened l₄ kind _ => ?_
  refine .bind (passes_bodyItems kind fun _ _ _ _ hcons => passes_enumItem hcons) fun _ _ _ => ?_
  exact .ofBuild

theorem passes_extendItem {name : String} (cons : l.tokens = t :: rest) :
    Passes 1 stack stack (extendItem name t) l := by
  unfold extendItem
  refine .ite (fun kind => ?_) fun _ => .ite (fun starts => ?_) fun _ => .fail trivial
  · exact .bind (passes_next_semicolon cons kind) fun _ _ _ => .pure
  · exact .bind (passes_field cons starts) fun _ _ _ => .pure

theorem passes_extension {scope : Scope} : Passes 1 stack stack (extension scope) l := by
  unfold extension
  refine .peek_bind peeks_documentation fun doc l₁ _ _ => ?_
  refine .bind passes_expectWord fun _ l₂ _ => ?_
  refine .bind passes_qualifiedName fun name l₃ _ => ?_
  refine .enter (proceeds_expect (steps_open rfl)) fun opened l₄ kind _ => ?_
  refine .bind (passes_bodyItems kind fun _ _ _ _ hcons => passes_extendItem hcons) fun _ _ _ => ?_
  exact .ofBuild

/-! ### Services -/

theorem passes_rpcType : Passes 1 stack stack rpcType l := by
  unfold rpcType
  refine .bind (passes_expect (steps_other (by decide) (by decide))) fun _ l₁ _ => ?_
  refine .bind passes_qualifiedName fun _ l₂ _ => ?_
  exact .bind (passes_expect (steps_other (by decide) (by decide))) fun _ _ _ => .pure

theorem passes_rpcItem {name : String} (cons : l.tokens = t :: rest) :
    Passes 1 stack stack (rpcItem name t) l := by
  unfold rpcItem
  refine .ite (fun kind => ?_) fun _ => .ite (fun _ => ?_) fun _ => .fail trivial
  · exact .bind (passes_next_semicolon cons kind) fun _ _ _ => .pure
  · exact .bind passes_optionStatement fun _ _ _ => .pure

theorem passes_rpcBody {name : String} : Passes 0 stack stack (rpcBody name) l := by
  rw [rpcBody_eq]
  refine Proceeds.bind (proceeds_accept? (steps_open rfl)) ?_
  rintro _ l₁ _ _ - (⟨opened, rfl, rfl, kind, rfl⟩ | ⟨rfl, rfl, rfl⟩)
  · have hbody : Passes 0 (opened :: stack) stack (rpcBodyFrom name (some opened)) l₁ := by
      rw [rpcBodyFrom]
      refine .bind (passes_bodyItems kind fun _ _ _ _ hcons => passes_rpcItem hcons) fun _ _ _ => ?_
      exact .bind (passes_accept? (steps_other (by decide) (by decide))) fun _ _ _ => .pure
    exact Proceeds.mono hbody fun _ _ _ h => ⟨h.1, Nat.zero_le _⟩
  · rw [rpcBodyFrom]
    exact Passes.bind passes_semicolon fun _ _ _ => .pure

theorem passes_rpc : Passes 1 stack stack rpc l := by
  unfold rpc
  refine .peek_bind peeks_documentation fun doc l₁ _ _ => ?_
  refine .bind passes_expectWord fun _ l₂ _ => ?_
  refine .bind passes_identifier fun _ l₃ _ => ?_
  refine .bind passes_rpcType fun _ l₄ _ => ?_
  refine .bind passes_expectWord fun _ l₅ _ => ?_
  refine .bind passes_rpcType fun _ l₆ _ => ?_
  exact .bind passes_rpcBody fun _ _ _ => .pure

theorem passes_serviceItem {name : String} (cons : l.tokens = t :: rest) :
    Passes 1 stack stack (serviceItem name t) l := by
  unfold serviceItem
  refine .ite (fun kind => ?_) fun _ => .ite (fun _ => ?_) fun _ => .ite (fun _ => ?_) fun _ =>
    .fail trivial
  · exact .bind (passes_next_semicolon cons kind) fun _ _ _ => .pure
  · exact .bind passes_optionStatement fun _ _ _ => .pure
  · exact .bind passes_rpc fun _ _ _ => .pure

theorem passes_service {scope : Scope} : Passes 1 stack stack (service scope) l := by
  unfold service
  refine .peek_bind peeks_documentation fun doc l₁ _ _ => ?_
  refine .bind passes_expectWord fun _ l₂ _ => ?_
  refine .bind passes_identifier fun name l₃ _ => ?_
  refine .enter (proceeds_expect (steps_open rfl)) fun opened l₄ kind _ => ?_
  refine .bind (passes_bodyItems kind fun _ _ _ _ hcons => passes_serviceItem hcons) fun _ _ _ => ?_
  exact .pure

/-! ### Messages -/

section Inner

variable {inner : Scope → Parser MessageWithExtensions} [∀ scope, TokenDriven (inner scope)]
  {scope : Scope}

omit [∀ scope, TokenDriven (inner scope)] in
theorem passes_messageItem {name : String} (cons : l.tokens = t :: rest)
    (message : Passes 1 stack stack (inner scope) l) :
    Passes 1 stack stack (messageItem inner scope name t) l := by
  unfold messageItem
  refine .ite (fun kind => ?_) fun _ => .ite (fun starts => ?_) fun _ => ?_
  · exact .bind (passes_next_semicolon cons kind) fun _ _ _ => .pure
  · exact .bind (passes_field cons starts) fun _ _ _ => .pure
  refine .ite (fun _ => ?_) fun _ => .ite (fun _ => ?_) fun _ => .ite (fun _ => ?_) fun _ =>
    .ite (fun _ => ?_) fun _ => .ite (fun _ => ?_) fun _ => .fail trivial
  · exact .bind message fun _ _ _ => .pure
  · exact .bind passes_enumeration fun _ _ _ => .pure
  · exact .bind passes_extensionRanges fun _ _ _ => .pure
  · exact .bind passes_optionStatement fun _ _ _ => .pure
  · exact .bind passes_extension fun _ _ _ => .pure

/-- A message passes over a token if the messages in it do, of which there are fewer tokens left. -/
theorem passes_messageWith
    (each : ∀ stack scope l', l'.tokens.length < l.tokens.length →
      Passes 1 stack stack (inner scope) l') :
    Passes 1 stack stack (messageWith inner scope) l := by
  unfold messageWith
  refine .peek_bind peeks_documentation fun doc l₁ h₁ _ => ?_
  rw [← h₁] at each
  refine .bind passes_expectWord fun _ l₂ h₂ => ?_
  refine .bind passes_identifier fun name l₃ h₃ => ?_
  refine .enter (proceeds_expect (steps_open rfl)) fun opened l₄ kind h₄ => ?_
  refine .bind (passes_bodyItems kind fun l₅ t rest h₅ hcons =>
    passes_messageItem hcons (each _ _ l₅ (by omega))) fun _ l₆ _ => ?_
  exact .bind .ofBuild fun _ _ _ => .pure

end Inner

theorem passes_messageWithin {depth : Nat} {scope : Scope} (enough : l.tokens.length < depth) :
    Passes 1 stack stack (messageWithin depth scope) l := by
  induction depth generalizing l scope stack with
  | zero => omega
  | succ depth ih =>
      rw [messageWithin]
      exact passes_messageWith fun _ scope l' hlt => ih (by omega)

theorem passes_message {scope : Scope} : Passes 1 stack stack (message scope) l := by
  unfold message
  refine .peek_bind peeks_budget fun n l₁ h₁ hn => ?_
  rw [← h₁] at hn
  exact passes_messageWithin (by omega)

/-! ### Files -/

theorem passes_dialectStatement : Passes 1 stack stack dialectStatement l := by
  unfold dialectStatement
  refine .bind passes_expectWord fun _ l₁ _ => ?_
  refine .bind (passes_expect (steps_other (by decide) (by decide))) fun _ l₂ _ => ?_
  refine .bind (passes_expect (steps_other (by decide) (by decide))) fun _ l₃ _ => ?_
  exact passes_semicolon.mono (Nat.zero_le 1)

theorem passes_packageStatement {package : Option String} (cons : l.tokens = t :: rest)
    (isWord : t.isWord "package" = true) :
    Passes 1 stack stack (packageStatement package t) l := by
  unfold packageStatement
  cases package with
  | some declared => exact .fail trivial
  | none =>
      refine .bind (passes_next_word cons isWord) fun _ l₁ _ => ?_
      refine .bind passes_qualifiedName fun _ l₂ _ => ?_
      exact .bind passes_semicolon fun _ _ _ => .pure

theorem passes_importStatement (cons : l.tokens = t :: rest) (isWord : t.isWord "import" = true) :
    Passes 1 stack stack importStatement l := by
  unfold importStatement
  refine .bind (passes_next_word cons isWord) fun _ l₁ _ => ?_
  refine .bind passes_acceptsWord fun _ l₂ _ => ?_
  refine .bind (passes_expect (steps_other (by decide) (by decide))) fun path l₃ _ => ?_
  refine .bind (passes_decodeString path) fun _ l₄ _ => ?_
  exact .bind passes_semicolon fun _ _ _ => .pure

theorem passes_fileItem {package : Option String} (cons : l.tokens = t :: rest) :
    Passes 1 stack stack (fileItem package t) l := by
  unfold fileItem
  refine .ite (fun kind => ?_) fun _ => .ite (fun _ => ?_) fun _ => .ite (fun isWord => ?_) fun _ =>
    .ite (fun isWord => ?_) fun _ => .ite (fun _ => ?_) fun _ => .ite (fun _ => ?_) fun _ =>
    .ite (fun _ => ?_) fun _ => .ite (fun _ => ?_) fun _ => .ite (fun _ => ?_) fun _ =>
    .fail trivial
  · exact .bind (passes_next_semicolon cons kind) fun _ _ _ => .pure
  · exact .bind passes_dialectStatement fun _ _ _ => .pure
  · exact .bind (passes_packageStatement cons isWord) fun _ _ _ => .pure
  · exact passes_importStatement cons isWord
  · exact .bind passes_optionStatement fun _ _ _ => .pure
  · exact .bind passes_message fun _ _ _ => .pure
  · exact .bind passes_enumeration fun _ _ _ => .pure
  · exact .bind passes_service fun _ _ _ => .pure
  · exact .bind passes_extension fun _ _ _ => .pure

/-- The loop that reads the items of a file; it carries the package declared so far. -/
def fileLoop : Loop (Option String) (List FileItem) where
  run := fileItemsWithin
  ahead _ l := l.tokens

theorem round_fileLoop {package : Option String} :
    fileLoop.Round stack stack l.tokens stack l fun n => fileItemsWithin (n + 1) package := by
  simp only [fileItemsWithin]
  refine .peek_bind peeks_peek_zero ?_
  rintro t l₁ h₁ ⟨rest, hcons⟩
  refine .ite (fun _ => .const .pure) fun _ => ?_
  rw [← h₁] at hcons ⊢
  refine .bind (passes_fileItem hcons) fun item l₂ h₂ => ?_
  exact .next (item :: ·) h₂

theorem passes_file {fileName : String} : Passes 0 stack stack (file fileName) l := by
  unfold file
  refine .peek_bind peeks_budget fun n l₁ h₁ hn => ?_
  rw [← h₁] at hn
  have hitems : Passes 0 stack stack (fileItemsWithin n none) l₁ := by
    refine Loop.passes (L := fileLoop) (fun _ _ _ => round_fileLoop) ?_
    show l₁.tokens.length < n
    omega
  exact .bind hitems fun _ _ _ => .pure

end Proto2.Parser

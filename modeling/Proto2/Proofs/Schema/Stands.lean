import Proto2.Parser.File
import Proto2.Proofs.Setting.Values

/-!
Declarations in a list of tokens.

As for settings, `XAt before x after` says that the tokens `before` start with the declaration
`x` and go on with `after`.  A body is the sequence of its items, and the lists of a declaration
are made of the items of each kind in their order.  Whether the declarations are legal is left
open.
-/

namespace Proto2

open Proto2.Parser

/-- The documentation that a declaration has if it starts with the token. -/
def Token.documentation (t : Token) : String :=
  Documentation.ofComments t.comments

/-- The tokens start with a token of a kind and go on with the given ones. -/
def TokenAt (kind : TokenKind) (before after : List Token) : Prop :=
  ∃ t, before = t :: after ∧ t.kind = kind

/-! ### Pieces of declarations -/

/-- Bracketed settings, if there is a bracket. -/
inductive TrailingAt : List Token → List Setting → List Token → Prop
  | none {ts : List Token} (stop : NotAtKind .openBracket ts) : TrailingAt ts [] ts
  | some {ts us : List Token} {ss : List Setting} (settings : BracketedAt ts ss us) :
      TrailingAt ts ss us

/-- An option statement. -/
inductive OptionAt : List Token → Setting → List Token → Prop
  | mk {word semi : Token} {ts us : List Token} {s : Setting} (isWord : word.isWord "option")
      (setting : Stands (.setting s) ts (semi :: us)) (semiKind : semi.kind = .semicolon) :
      OptionAt (word :: ts) s us

/-- A field. -/
inductive FieldAt : List Token → Field → List Token → Prop
  | mk {first name equals number semi : Token} {ts ms us : List Token} {label : Label}
      {type : String} {tag : Int} {options : List Setting} (kind : first.kind = .identifier)
      (known : Label.ofText? first.lexeme = some label)
      (typeName : NameAt ts type (name :: equals :: number :: ms))
      (nameKind : name.kind = .identifier) (equalsKind : equals.kind = .equals)
      (numberKind : number.kind = .integer) (value : number.integerValue = .ok tag)
      (settings : TrailingAt ms options (semi :: us)) (semiKind : semi.kind = .semicolon) :
      FieldAt (first :: ts) ⟨label, type, name.lexeme, tag, first.documentation, options⟩ us

/-- An extension range with the given documentation. -/
inductive RangeAt (doc : String) : List Token → ExtensionRange → List Token → Prop
  | single {number : Token} {ts : List Token} {n : Int} (kind : number.kind = .integer)
      (value : number.integerValue = .ok n) (stop : NotAtWord "to" ts) :
      RangeAt doc (number :: ts) ⟨doc, n, n⟩ ts
  | between {number word last : Token} {ts : List Token} {n m : Int}
      (kind : number.kind = .integer) (value : number.integerValue = .ok n)
      (isWord : word.isWord "to") (lastKind : last.kind = .integer)
      (lastValue : last.integerValue = .ok m) :
      RangeAt doc (number :: word :: last :: ts) ⟨doc, n, m⟩ ts
  | onwards {number word greatest : Token} {ts : List Token} {n : Int}
      (kind : number.kind = .integer) (value : number.integerValue = .ok n)
      (isWord : word.isWord "to") (isGreatest : greatest.isWord "max") :
      RangeAt doc (number :: word :: greatest :: ts) ⟨doc, n, Tag.greatest⟩ ts

/-- A statement of extension ranges; all of them have its documentation. -/
inductive RangesAt : List Token → List ExtensionRange → List Token → Prop
  | mk {word semi : Token} {ts us : List Token} {rs : List ExtensionRange}
      (isWord : word.isWord "extensions")
      (ranges : Separated (RangeAt word.documentation) ts rs (semi :: us))
      (semiKind : semi.kind = .semicolon) : RangesAt (word :: ts) rs us

/-! ### Enums -/

/-- A value of an enum. -/
inductive EnumValueAt : List Token → EnumValue → List Token → Prop
  | mk {name equals number semi : Token} {ts us : List Token} {tag : Int}
      {options : List Setting} (kind : name.kind = .identifier)
      (equalsKind : equals.kind = .equals) (numberKind : number.kind = .integer)
      (value : number.integerValue = .ok tag) (settings : TrailingAt ts options (semi :: us))
      (semiKind : semi.kind = .semicolon) :
      EnumValueAt (name :: equals :: number :: ts)
        ⟨name.lexeme, tag, name.documentation, options⟩ us

/-- An item of an enum. -/
inductive EnumItemAt : List Token → EnumItem → List Token → Prop
  | empty {ts us : List Token} (semi : TokenAt .semicolon ts us) : EnumItemAt ts .empty us
  | option {ts us : List Token} {s : Setting} (h : OptionAt ts s us) :
      EnumItemAt ts (.option s) us
  | value {ts us : List Token} {v : EnumValue} (h : EnumValueAt ts v us) :
      EnumItemAt ts (.value v) us

/-- An enum. -/
inductive EnumerationAt (scope : Scope) : List Token → Enumeration → List Token → Prop
  | mk {word name opening closing : Token} {ts us : List Token} {items : List EnumItem}
      (isWord : word.isWord "enum") (kind : name.kind = .identifier)
      (openKind : opening.kind = .openBrace)
      (body : Sequence EnumItemAt ts items (closing :: us))
      (closeKind : closing.kind = .closeBrace) :
      EnumerationAt scope (word :: name :: opening :: ts)
        ⟨name.lexeme, scope.qualify name.lexeme, word.documentation,
          items.filterMap (·.setting?), items.filterMap (·.value?)⟩ us

/-! ### Services -/

/-- The type of the argument or the result of a procedure. -/
inductive RpcTypeAt : List Token → String → List Token → Prop
  | mk {opening closing : Token} {ts us : List Token} {name : String}
      (openKind : opening.kind = .openParen) (inner : NameAt ts name (closing :: us))
      (closeKind : closing.kind = .closeParen) : RpcTypeAt (opening :: ts) name us

/-- An item in the body of a procedure. -/
inductive RpcItemAt : List Token → Option Setting → List Token → Prop
  | empty {ts us : List Token} (semi : TokenAt .semicolon ts us) : RpcItemAt ts none us
  | option {ts us : List Token} {s : Setting} (h : OptionAt ts s us) : RpcItemAt ts (some s) us

/-- What follows the types of a procedure. -/
inductive RpcBodyAt : List Token → List Setting → List Token → Prop
  | none {ts us : List Token} (semi : TokenAt .semicolon ts us) : RpcBodyAt ts [] us
  | some {opening closing : Token} {ts ms us : List Token} {items : List (Option Setting)}
      (openKind : opening.kind = .openBrace) (body : Sequence RpcItemAt ts items (closing :: ms))
      (closeKind : closing.kind = .closeBrace) (semi : SkipKind .semicolon ms us) :
      RpcBodyAt (opening :: ts) (items.filterMap id) us

/-- A procedure. -/
inductive RpcAt : List Token → Rpc → List Token → Prop
  | mk {word name returns : Token} {ts ms ns us : List Token} {request response : String}
      {options : List Setting} (isWord : word.isWord "rpc") (kind : name.kind = .identifier)
      (requestType : RpcTypeAt ts request (returns :: ms)) (isReturns : returns.isWord "returns")
      (responseType : RpcTypeAt ms response ns) (body : RpcBodyAt ns options us) :
      RpcAt (word :: name :: ts)
        ⟨name.lexeme, request, response, word.documentation, options⟩ us

/-- An item of a service. -/
inductive ServiceItemAt : List Token → ServiceItem → List Token → Prop
  | empty {ts us : List Token} (semi : TokenAt .semicolon ts us) : ServiceItemAt ts .empty us
  | option {ts us : List Token} {s : Setting} (h : OptionAt ts s us) :
      ServiceItemAt ts (.option s) us
  | rpc {ts us : List Token} {r : Rpc} (h : RpcAt ts r us) : ServiceItemAt ts (.rpc r) us

/-- A service. -/
inductive ServiceAt (scope : Scope) : List Token → Service → List Token → Prop
  | mk {word name opening closing : Token} {ts us : List Token} {items : List ServiceItem}
      (isWord : word.isWord "service") (kind : name.kind = .identifier)
      (openKind : opening.kind = .openBrace)
      (body : Sequence ServiceItemAt ts items (closing :: us))
      (closeKind : closing.kind = .closeBrace) :
      ServiceAt scope (word :: name :: opening :: ts)
        ⟨name.lexeme, scope.qualify name.lexeme, word.documentation,
          items.filterMap (·.setting?), items.filterMap (·.rpc?)⟩ us

/-! ### Extensions -/

/-- An item of an extension. -/
inductive ExtendItemAt : List Token → Option Field → List Token → Prop
  | empty {ts us : List Token} (semi : TokenAt .semicolon ts us) : ExtendItemAt ts none us
  | field {ts us : List Token} {f : Field} (h : FieldAt ts f us) : ExtendItemAt ts (some f) us

/-- An extension. -/
inductive ExtendAt (scope : Scope) : List Token → Extend → List Token → Prop
  | mk {word opening closing : Token} {ts ms us : List Token} {name : String}
      {items : List (Option Field)} (isWord : word.isWord "extend")
      (extended : NameAt ts name (opening :: ms)) (openKind : opening.kind = .openBrace)
      (body : Sequence ExtendItemAt ms items (closing :: us))
      (closeKind : closing.kind = .closeBrace) :
      ExtendAt scope (word :: ts)
        ⟨name, scope.qualifyExtended name, word.documentation, items.filterMap id⟩ us

/-! ### Messages -/

/-- An item of a message that is not a message itself. -/
inductive PlainItemAt (scope : Scope) : List Token → MessageItem → List Token → Prop
  | empty {ts us : List Token} (semi : TokenAt .semicolon ts us) : PlainItemAt scope ts .empty us
  | field {ts us : List Token} {f : Field} (h : FieldAt ts f us) :
      PlainItemAt scope ts (.field f) us
  | enumeration {ts us : List Token} {e : Enumeration} (h : EnumerationAt scope ts e us) :
      PlainItemAt scope ts (.enumeration e) us
  | ranges {ts us : List Token} {rs : List ExtensionRange} (h : RangesAt ts rs us) :
      PlainItemAt scope ts (.extensionRanges rs) us
  | option {ts us : List Token} {s : Setting} (h : OptionAt ts s us) :
      PlainItemAt scope ts (.option s) us
  | extension {ts us : List Token} {e : Extend} (h : ExtendAt scope ts e us) :
      PlainItemAt scope ts (.extension e) us

/-- The message with the given items, and the extensions declared in it. -/
def messageOfItems (scope : Scope) (name doc : String) (items : List MessageItem) :
    MessageWithExtensions where
  message := ⟨name, scope.qualify name, doc, items.filterMap (·.field?),
    items.filterMap (·.type?), items.flatMap (·.ranges), items.filterMap (·.setting?)⟩
  extensions := items.flatMap (·.extensions)

/-- A message or the items of one. -/
inductive MessagePart where
  | message (m : MessageWithExtensions)
  | items (is : List MessageItem)

/-- The tokens start with a message, or with items of one, and go on with the given ones. -/
inductive MessageAt : Scope → MessagePart → List Token → List Token → Prop
  | message {scope : Scope} {word name opening closing : Token} {ts us : List Token}
      {items : List MessageItem} (isWord : word.isWord "message")
      (kind : name.kind = .identifier) (openKind : opening.kind = .openBrace)
      (body : MessageAt (scope.nested name.lexeme) (.items items) ts (closing :: us))
      (closeKind : closing.kind = .closeBrace) :
      MessageAt scope (.message (messageOfItems scope name.lexeme word.documentation items))
        (word :: name :: opening :: ts) us
  | noItems {scope : Scope} {ts : List Token} : MessageAt scope (.items []) ts ts
  | plain {scope : Scope} {ts ms us : List Token} {item : MessageItem}
      {items : List MessageItem} (head : PlainItemAt scope ts item ms)
      (tail : MessageAt scope (.items items) ms us) :
      MessageAt scope (.items (item :: items)) ts us
  | nested {scope : Scope} {ts ms us : List Token} {m : MessageWithExtensions}
      {items : List MessageItem} (head : MessageAt scope (.message m) ts ms)
      (tail : MessageAt scope (.items items) ms us) :
      MessageAt scope (.items (.message m :: items)) ts us

/-! ### Files -/

/-- An item of a file, given the package declared before it. -/
inductive FileItemAt (package : Option String) : List Token → FileItem → List Token → Prop
  | empty {ts us : List Token} (semi : TokenAt .semicolon ts us) :
      FileItemAt package ts .empty us
  | dialect {word equals name semi : Token} {us : List Token} (isWord : word.isWord "syntax")
      (equalsKind : equals.kind = .equals) (nameKind : name.kind = .string)
      (semiKind : semi.kind = .semicolon) :
      FileItemAt package (word :: equals :: name :: semi :: us) .dialect us
  | package {word semi : Token} {ts us : List Token} {name : String}
      (undeclared : package = none) (isWord : word.isWord "package")
      (inner : NameAt ts name (semi :: us)) (semiKind : semi.kind = .semicolon) :
      FileItemAt package (word :: ts) (.package name) us
  | imported {word path semi : Token} {us : List Token} {text : String}
      (isWord : word.isWord "import") (pathKind : path.kind = .string)
      (value : path.stringValue = .ok text) (semiKind : semi.kind = .semicolon) :
      FileItemAt package (word :: path :: semi :: us) (.imported false text) us
  | publiclyImported {word modifier path semi : Token} {us : List Token} {text : String}
      (isWord : word.isWord "import") (isPublic : modifier.isWord "public")
      (pathKind : path.kind = .string) (value : path.stringValue = .ok text)
      (semiKind : semi.kind = .semicolon) :
      FileItemAt package (word :: modifier :: path :: semi :: us) (.imported true text) us
  | option {ts us : List Token} {s : Setting} (h : OptionAt ts s us) :
      FileItemAt package ts (.option s) us
  | message {ts us : List Token} {m : MessageWithExtensions}
      (h : MessageAt (.top package) (.message m) ts us) : FileItemAt package ts (.message m) us
  | enumeration {ts us : List Token} {e : Enumeration}
      (h : EnumerationAt (.top package) ts e us) : FileItemAt package ts (.enumeration e) us
  | service {ts us : List Token} {s : Service} (h : ServiceAt (.top package) ts s us) :
      FileItemAt package ts (.service s) us
  | extension {ts us : List Token} {e : Extend} (h : ExtendAt (.top package) ts e us) :
      FileItemAt package ts (.extension e) us

/-- The items of a file up to the end of the input, given the package declared before them. -/
inductive FileItemsAt : Option String → List Token → List FileItem → List Token → Prop
  | nil {package : Option String} {ts : List Token} (atEnd : AtKind .endOfInput ts) :
      FileItemsAt package ts [] ts
  | cons {package : Option String} {ts ms us : List Token} {item : FileItem}
      {items : List FileItem} (head : FileItemAt package ts item ms)
      (tail : FileItemsAt (item.package?.or package) ms items us) :
      FileItemsAt package ts (item :: items) us

end Proto2

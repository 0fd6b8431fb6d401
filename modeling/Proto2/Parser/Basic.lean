import Proto2.Model.Scope
import Proto2.Parser.Error
import Proto2.Token.Stream

/-!
Reading from a stream of tokens.

A parser consumes tokens and gives a result or fails.  On failure the stream stays where it
was left, so reading can go on behind the error.  Repetition is bounded by the number of
tokens that are left when it starts, because every round consumes one; the bound is what
makes the repetitions recursive on their data.
-/

namespace Proto2

/-- A computation that reads tokens. -/
abbrev Parser := EStateM Failure TokenStream

namespace Parser

/-- The token so many places ahead. -/
def peek (n : Nat) : Parser Token := fun s =>
  match s.failureAt? n with
  | some e => .error (.parse (.lexical e)) (s.lookedAt n)
  | none =>
    match s.token? n with
    | some t => .ok t (s.lookedAt n)
    | none => .error .noToken (s.lookedAt n)

/-- The token so many places back from the last one looked at. -/
def peekBack (back : Nat) : Parser Token := fun s =>
  match s.seenToken? back with
  | some t => .ok t s
  | none => .error .noToken s

/-- Consumes a token. -/
def next : Parser Token := do
  let t ← peek 0
  modify (·.consume t)
  return t

/-- The token consumed last. -/
def last? : Parser (Option Token) := do
  return (← get).last

/-- More rounds than there can be if every round consumes a token. -/
def budget : Parser Nat := do
  return (← get).tokens.length + 1

/-- Fails at a token. -/
def fail {α : Type} (g : Grammar) (found : Token) (cause : GrammarCause) : Parser α :=
  throw (.parse (.grammar g found cause))

/-- The result of building a declaration. -/
def ofBuild {α : Type} : Except BuildError α → Parser α
  | .ok a => return a
  | .error e => throw (.build e)

/-- Whether the next token is of a kind. -/
def isAt (kind : TokenKind) : Parser Bool := do
  return (← peek 0).kind = kind

/-- Whether the next token is a word. -/
def isAtWord (word : String) : Parser Bool := do
  return (← peek 0).isWord word

/-- Consumes the next token if it is of a kind. -/
def accept? (kind : TokenKind) : Parser (Option Token) := do
  if ← isAt kind then
    return some (← next)
  else
    return none

/-- Consumes the next token if it is a word. -/
def acceptWord? (word : String) : Parser (Option Token) := do
  if ← isAtWord word then
    return some (← next)
  else
    return none

/-- Whether the next token is of a kind; if so, it is consumed. -/
def accepts (kind : TokenKind) : Parser Bool := do
  return (← accept? kind).isSome

/-- Whether the next token is a word; if so, it is consumed. -/
def acceptsWord (word : String) : Parser Bool := do
  return (← acceptWord? word).isSome

/-- What is expected where a token of a kind must stand: the words for it, or the kind itself
where no words are given. -/
def expectation (kind : TokenKind) (what : String) : String :=
  if what = "" then Text.quotedString kind.shown else what

/-- Consumes a token of a kind; otherwise fails and says what was expected. -/
def expect (g : Grammar) (kind : TokenKind) (what : String) : Parser Token := do
  let t ← peek 0
  if t.kind = kind then
    next
  else
    fail g t (.expected (expectation kind what))

/-- Consumes a word; otherwise fails. -/
def expectWord (g : Grammar) (word : String) : Parser Token := do
  let t ← peek 0
  if t.isWord word then
    next
  else
    fail g t (.expected ("'" ++ word ++ "'"))

/-- Consumes an identifier. -/
def identifier (g : Grammar) (what : String) : Parser String := do
  return (← expect g .identifier what).lexeme

/-- The identifiers that follow the first one of a qualified name, each behind a dot. -/
def nameParts : Nat → Parser (List String)
  | 0 => throw .outOfBudget
  | n + 1 => do
    if ← isAt .dot then
      if (← peek 1).kind = .identifier then
        let _ ← next
        let part ← next
        let parts ← nameParts n
        return part.lexeme :: parts
      else
        return []
    else
      return []

/-- Consumes identifiers with dots between them, and a dot in front if there is one; the
result is the name as written.  A dot that no identifier follows is left alone. -/
def qualifiedName (g : Grammar) (what : String) : Parser String := do
  let rooted ← accepts .dot
  let first ← identifier g what
  let parts ← nameParts (← budget)
  let names := first :: parts
  return dotted (if rooted then "" :: names else names)

/-- Items up to a closing token, which is consumed, in at most the given number of rounds. -/
def itemsWithin {α : Type} (close : TokenKind) (item : Parser α) : Nat → Parser (List α)
  | 0 => throw .outOfBudget
  | n + 1 => do
    if ← accepts close then
      return []
    else
      let first ← item
      let rest ← itemsWithin close item n
      return first :: rest

/-- Items up to a closing token, which is consumed. -/
def itemsUntil {α : Type} (close : TokenKind) (item : Parser α) : Parser (List α) := do
  itemsWithin close item (← budget)

/-- Items with commas between them, in at most the given number of rounds. -/
def separatedWithin {α : Type} (item : Parser α) : Nat → Parser (List α)
  | 0 => throw .outOfBudget
  | n + 1 => do
    let first ← item
    if ← accepts .comma then
      let rest ← separatedWithin item n
      return first :: rest
    else
      return [first]

/-- Items with commas between them. -/
def separated {α : Type} (item : Parser α) : Parser (List α) := do
  separatedWithin item (← budget)

end Parser

end Proto2

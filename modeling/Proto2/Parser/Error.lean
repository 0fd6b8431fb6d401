import Proto2.Model.Error
import Proto2.Token.Basic
import Proto2.Token.Error

/-!
Why a schema cannot be read.

A parse error is lexical or grammatical and points into the source.  Beside those a schema can
be refused by the rules of the model, or because it has a decimal numeral too long to be
converted.
-/

namespace Proto2

/-- The grammars: that of declarations, and within it that of options and their values. -/
inductive Grammar where
  | schema
  | option
deriving DecidableEq, Repr

/-- Declarations with a body between braces. -/
inductive BodyKind where
  | message
  | enumeration
  | service
  | rpc
  | extension
deriving DecidableEq, Repr

namespace BodyKind

/-- The word that starts the declaration. -/
def word : BodyKind → String
  | message => "message"
  | enumeration => "enum"
  | service => "service"
  | rpc => "rpc"
  | extension => "extend"

/-- What may stand in the body. -/
def contents : BodyKind → String
  | message => "fields start with required, optional or repeated"
  | enumeration => "expected NAME = TAG;"
  | service => "expected rpc or option"
  | rpc => "only options may appear here"
  | extension => "only fields may be declared here"

end BodyKind

/-- Why a token cannot stand where it does. -/
inductive GrammarCause where
  | expected (what : String)
  | duplicatePackage (package : String)
  | notADeclaration
  | misplaced (body : BodyKind) (name : String)
  | unclosedBody (opened : Span)
  | unbalanced (bracket : String) (opened : Span)
  | notAValue
  | missingColon (key : String)
deriving DecidableEq, Repr

namespace GrammarCause

/-- What is wrong, in words, at the given token. -/
def message (found : Token) : GrammarCause → String
  | expected what => "expected " ++ what ++ ", found " ++ found.describe
  | duplicatePackage _ => "duplicate package declaration"
  | notADeclaration => "unexpected " ++ found.describe ++ " at top level"
  | misplaced body name =>
    "unexpected " ++ found.describe ++ " in " ++ body.word ++ " " ++ name
  | unclosedBody _ => "unexpected end of input"
  | unbalanced bracket _ => "unbalanced " ++ Text.quotedString bracket
  | notAValue => "expected an option value, found " ++ found.describe
  | missingColon key =>
    "expected ':' after " ++ Text.quotedString key ++ ", found " ++ found.describe

/-- What may help against the particular error. -/
def ownHint? : GrammarCause → Option String
  | expected _ => none
  | duplicatePackage package => some ("package is already " ++ Text.quotedString package)
  | notADeclaration =>
    some "expected one of: package, import, option, message, enum, service, extend"
  | misplaced body _ => some body.contents
  | unclosedBody opened => some ("missing '\x7d' for '\x7b' at " ++ opened.format)
  | unbalanced _ opened => some ("opened at " ++ opened.format)
  | notAValue =>
    some ("values are strings, numbers, true/false, identifiers, [lists] or " ++
      "\x7baggregates\x7d")
  | missingColon _ => none

/-- What may help where the input ends too early. -/
def endHint : String :=
  "the input ended early; check for a missing '\x7d' or ';'"

/-- What may help at the given token. -/
def hint? (found : Token) (cause : GrammarCause) : Option String :=
  cause.ownHint?.or (if found.isEnd then some endHint else none)

end GrammarCause

/-- An error with a place in the source. -/
inductive ParseError where
  | lexical (e : LexicalError)
  | grammar (grammar : Grammar) (found : Token) (cause : GrammarCause)
deriving DecidableEq, Repr

namespace ParseError

/-- Where the error is. -/
def span : ParseError → Span
  | lexical e => e.span
  | grammar _ found _ => found.span

/-- What is wrong, in words. -/
def message : ParseError → String
  | lexical e => e.cause.message
  | grammar _ found cause => cause.message found

/-- What may help. -/
def hint? : ParseError → Option String
  | lexical e => e.cause.hint?
  | grammar _ found cause => cause.hint? found

/-- The error as a diagnostic: the place, what is wrong, and the hint on a line of its own. -/
def text (e : ParseError) : String :=
  let base := e.span.format ++ ": " ++ e.message
  match e.hint? with
  | some hint => base ++ "\nhint: " ++ hint
  | none => base

end ParseError

/-- Why reading stops. -/
inductive Failure where
  | parse (e : ParseError)
  | build (e : BuildError)
  | numeral (e : Numeral.ReadError)
  /-- A token is asked for although none is left: the only token there was could not be
  read, and that was reported before. -/
  | noToken
  /-- The bound on the number of steps is used up.  The bounds are chosen so that this does
  not happen. -/
  | outOfBudget
deriving DecidableEq, Repr

/-- A failure in words. -/
def Failure.text : Failure → String
  | parse e => e.text
  | build e => e.message
  | numeral e => e.message
  | noToken => "list index out of range"
  | outOfBudget => "out of budget"

end Proto2

import Proto2.Token.Gap

/-!
The tokens of a source text.

Lexing goes from gap to token to gap until the text ends or a lexical error stands in the
way.  Either way the tokens read so far count: a parser meets the error only when it needs
the token that could not be read.
-/

namespace Proto2

/-- The tokens of a text.  Without a failure they end with the end of the input; with one,
they are those before it. -/
structure Lexed where
  tokens : List Token
  failure : Option LexicalError
deriving DecidableEq, Repr

namespace Lexed

/-- The same with one more token in front. -/
def push (t : Token) (l : Lexed) : Lexed :=
  { l with tokens := t :: l.tokens }

@[simp] theorem tokens_push (t : Token) (l : Lexed) : (l.push t).tokens = t :: l.tokens := rfl

@[simp] theorem failure_push (t : Token) (l : Lexed) : (l.push t).failure = l.failure := rfl

/-- The tokens from a place on, given the line on which the token before it ends. -/
def readFrom (file : String) (lastLine : Nat) (c : Cursor) : Lexed :=
  match _gap : Gap.read file c with
  | .error e => ⟨[], some e⟩
  | .ok (pieces, c') =>
    let comments := Gap.attached lastLine pieces
    match _rest : c'.rest with
    | [] => ⟨[⟨.endOfInput, "", c'.span file 0, comments⟩], none⟩
    | ch :: cs =>
      match _scanned : Lexeme.scan ch cs with
      | .error e => ⟨[], some ⟨c'.span file e.length, e.cause⟩⟩
      | .ok s =>
        let after := c'.advance s.length
        (readFrom file after.position.line after).push
          ⟨s.kind, String.ofList s.lexeme, c'.span file s.length, comments⟩
termination_by c.rest.length
decreasing_by
  have kept := Gap.length_rest_read _gap
  have moved := Lexeme.scan_length_pos _scanned
  have some : c'.rest.length = cs.length + 1 := by rw [_rest]; rfl
  simp only [Cursor.length_rest_advance]
  omega

/-- The tokens of a source text. -/
def ofText (file : String) (source : List Char) : Lexed :=
  readFrom file 0 ⟨source, .start⟩

end Lexed

end Proto2

import Proto2.Token.Lexeme

/-!
What stands between tokens: white space and comments.

A gap is read as pieces, each a run of white space or a comment.  The comments that are
attached to the token after the gap are those behind the last empty line, and a comment that
starts on the line where the token before the gap ends belongs to that line, so it is left
out.
-/

namespace Proto2

/-- A place in a text together with what follows it. -/
structure Cursor where
  rest : List Char
  position : Position
deriving DecidableEq, Repr

namespace Cursor

/-- The place after so many more characters. -/
def advance (c : Cursor) (n : Nat) : Cursor :=
  ⟨c.rest.drop n, c.position.advance (c.rest.take n)⟩

/-- The span of the next characters. -/
def span (c : Cursor) (file : String) (n : Nat) : Span :=
  ⟨file, c.position, (c.advance n).position⟩

@[simp] theorem length_rest_advance (c : Cursor) (n : Nat) :
    (c.advance n).rest.length = c.rest.length - n := by
  simp [advance]

end Cursor

namespace Gap

/-- A piece of a gap. -/
inductive Piece where
  | blanks (text : List Char)
  | comment (c : Comment)
deriving DecidableEq, Repr

/-- What a gap goes on with at the start of a text. -/
inductive Next where
  | blanks (length : Nat)
  | comment (block : Bool) (length : Nat)
  | unterminated
  | done
deriving DecidableEq, Repr

/-- The length of a text up to the end of the first comment delimiter in it. -/
def closedLength? : List Char → Option Nat
  | [] => none
  | '*' :: '/' :: _ => some 2
  | _ :: cs => (closedLength? cs).map (· + 1)

/-- What the gap goes on with. -/
def next : List Char → Next
  | [] => .done
  | '/' :: '/' :: cs => .comment false (2 + Lexeme.runLength (· != '\n') cs)
  | '/' :: '*' :: cs =>
    match closedLength? cs with
    | some n => .comment true (2 + n)
    | none => .unterminated
  | c :: cs =>
    if Lexeme.isSpace c then .blanks (1 + Lexeme.runLength Lexeme.isSpace cs) else .done

theorem next_blanks_pos {cs : List Char} {n : Nat} (h : next cs = .blanks n) :
    0 < n ∧ 0 < cs.length := by
  unfold next at h
  split at h <;> try contradiction
  · split at h <;> cases h
  · split at h
    · cases h
      exact ⟨by omega, by simp⟩
    · cases h

theorem next_comment_pos {cs : List Char} {block : Bool} {n : Nat}
    (h : next cs = .comment block n) : 0 < n ∧ 0 < cs.length := by
  unfold next at h
  split at h
  · cases h
  · cases h
    exact ⟨by omega, by simp⟩
  · split at h
    · cases h
      exact ⟨by omega, by simp⟩
    · cases h
  · split at h <;> cases h

/-- Reads a gap to its end, where a token starts or the text ends. -/
def read (file : String) (c : Cursor) : Except LexicalError (List Piece × Cursor) :=
  match _here : next c.rest with
  | .done => .ok ([], c)
  | .unterminated => .error ⟨c.span file c.rest.length, .unterminatedComment⟩
  | .blanks n =>
    match read file (c.advance n) with
    | .ok (pieces, after) => .ok (.blanks (c.rest.take n) :: pieces, after)
    | .error e => .error e
  | .comment block n =>
    let comment := ⟨block, String.ofList (c.rest.take n), c.span file n⟩
    match read file (c.advance n) with
    | .ok (pieces, after) => .ok (.comment comment :: pieces, after)
    | .error e => .error e
termination_by c.rest.length
decreasing_by
  · have := next_blanks_pos _here
    simp only [Cursor.length_rest_advance]
    omega
  · have := next_comment_pos _here
    simp only [Cursor.length_rest_advance]
    omega

/-- The comments that wait for a token, after one more piece. -/
def attach (lastLine : Nat) (waiting : List Comment) : Piece → List Comment
  | .blanks text => if 2 ≤ text.count '\n' then [] else waiting
  | .comment c => if c.span.start.line = lastLine then waiting else waiting ++ [c]

/-- The comments attached to the token after a gap, given the line on which the token before
it ends (zero when there is none). -/
def attached (lastLine : Nat) (pieces : List Piece) : List Comment :=
  pieces.foldl (attach lastLine) []

/-- Reading a gap does not lengthen what follows. -/
theorem length_rest_read {file : String} {c after : Cursor} {pieces : List Piece}
    (h : read file c = .ok (pieces, after)) : after.rest.length ≤ c.rest.length := by
  fun_induction read file c generalizing pieces with
  | case1 => cases h; exact Nat.le_refl _
  | case2 => cases h
  | case3 =>
    rename_i read_ok ih
    cases h
    have := ih read_ok
    simp only [Cursor.length_rest_advance] at this
    omega
  | case4 => cases h
  | case5 =>
    rename_i read_ok ih
    cases h
    have := ih read_ok
    simp only [Cursor.length_rest_advance] at this
    omega
  | case6 => cases h

end Gap

end Proto2

import Proto2.Proofs.Token.Scan
import Proto2.Token.Basic

/-!
Writing text that bears tokens.

Text is written with a pen that knows what a lexer will know at the place it has come to: which
token stands right before, whether a newline stands behind the last token or comment, and which
comments wait for a token.  `Writes p cs ws q` says that the pen, put down in the state `p`,
writes the text `cs` and comes to the state `q`, and that the text bears the tokens `ws`.

Only what a printer needs is written: spaces, newlines, comments on lines of their own, and
tokens.
-/

namespace Proto2

/-- What a text says of a token: all but its place.  A comment is a block comment or not, and a
text. -/
structure Written where
  kind : TokenKind
  lexeme : List Char
  comments : List (Bool × String)
deriving DecidableEq, Repr

/-- What a text says of the token. -/
def Token.written (t : Token) : Written :=
  ⟨t.kind, t.lexeme.toList, t.comments.map fun c => (c.block, c.text)⟩

/-- The state of the pen. -/
structure Pen where
  /-- The kind of the token that stands right before. -/
  last : Option TokenKind
  /-- A newline stands behind the last token or comment, or there is none of either. -/
  fresh : Bool
  /-- The comments that wait for a token. -/
  comments : List (Bool × String)

namespace Pen

/-- At the start of a line, with no comments that wait. -/
def line : Pen := ⟨none, true, []⟩

/-- Right behind a token. -/
def behind (kind : TokenKind) : Pen := ⟨some kind, false, []⟩

/-- In a line, behind a space. -/
def gap : Pen := ⟨none, false, []⟩

/-- At the start of a line, below some comments. -/
def under (comments : List (Bool × String)) : Pen := ⟨none, true, comments⟩

/-- The state after a space. -/
def spaced (p : Pen) : Pen := { p with last := none }

/-- The state after a newline.  An empty line drops the comments. -/
def ended (p : Pen) : Pen := ⟨none, true, if p.fresh then [] else p.comments⟩

/-- The state after a comment and the end of its line. -/
def commented (p : Pen) (text : List Char) : Pen :=
  under (p.comments ++ [(false, String.ofList text)])

/-- Whether a token that starts with the character may be written. -/
def Fits (p : Pen) (c : Char) : Prop :=
  ∀ k ∈ p.last, k.mayPrecede c = true

/-- What may be written in the second state may be written in the first one. -/
structure Allows (p q : Pen) : Prop where
  fresh : p.fresh = q.fresh
  comments : p.comments = q.comments
  fits : ∀ c, q.Fits c → p.Fits c

theorem Allows.refl (p : Pen) : p.Allows p :=
  ⟨rfl, rfl, fun _ h => h⟩

theorem Allows.trans {p q r : Pen} (h : p.Allows q) (h' : q.Allows r) : p.Allows r :=
  ⟨h.fresh.trans h'.fresh, h.comments.trans h'.comments, fun c hc => h.fits c (h'.fits c hc)⟩

theorem Allows.spaced {p q : Pen} (h : p.Allows q) : p.spaced = q.spaced := by
  simp [Pen.spaced, h.fresh, h.comments]

theorem Allows.ended {p q : Pen} (h : p.Allows q) : p.ended = q.ended := by
  simp [Pen.ended, h.fresh, h.comments]

theorem Allows.commented {p q : Pen} (h : p.Allows q) (text : List Char) :
    p.commented text = q.commented text := by
  simp [Pen.commented, h.comments]

/-- After a space anything may follow. -/
theorem spaced_allows (p : Pen) : p.spaced.Allows p :=
  ⟨rfl, rfl, by simp [Fits, Pen.spaced]⟩

@[simp] theorem spaced_behind (kind : TokenKind) : (behind kind).spaced = gap := rfl

@[simp] theorem spaced_gap : gap.spaced = gap := rfl

@[simp] theorem spaced_under (comments : List (Bool × String)) :
    (under comments).spaced = under comments := rfl

@[simp] theorem ended_behind (kind : TokenKind) : (behind kind).ended = line := rfl

@[simp] theorem ended_line : line.ended = line := rfl

end Pen

/-- The pen writes a text, which bears some tokens. -/
inductive Writes : Pen → List Char → List Written → Pen → Prop
  | nil {p q : Pen} (allows : p.Allows q) : Writes p [] [] q
  | space {p q : Pen} {cs : List Char} {ws : List Written} (rest : Writes p.spaced cs ws q) :
      Writes p (' ' :: cs) ws q
  | newline {p q : Pen} {cs : List Char} {ws : List Written} (rest : Writes p.ended cs ws q) :
      Writes p ('\n' :: cs) ws q
  | comment {p q : Pen} {body cs : List Char} {ws : List Written} (fresh : p.fresh = true)
      (oneLine : '\n' ∉ body) (rest : Writes (p.commented ('/' :: '/' :: body)) cs ws q) :
      Writes p ('/' :: '/' :: body ++ '\n' :: cs) ws q
  | token {p q : Pen} {text lexeme cs : List Char} {kind : TokenKind} {ws : List Written}
      (spells : Lexeme.Spells text kind lexeme) (fits : ∀ c ∈ text.head?, p.Fits c)
      (rest : Writes (.behind kind) cs ws q) :
      Writes p (text ++ cs) (⟨kind, lexeme, p.comments⟩ :: ws) q

namespace Writes

variable {p q r : Pen} {cs ds : List Char} {ws vs : List Written}

theorem refl (p : Pen) : Writes p [] [] p :=
  .nil (.refl p)

/-- What is written in some state may be written in any state that allows as much. -/
theorem mono (h : p.Allows q) (hq : Writes q cs ws r) : Writes p cs ws r := by
  cases hq with
  | nil allows => exact .nil (h.trans allows)
  | space rest => exact .space (h.spaced ▸ rest)
  | newline rest => exact .newline (h.ended ▸ rest)
  | comment fresh oneLine rest =>
      exact .comment (h.fresh.trans fresh) oneLine (h.commented _ ▸ rest)
  | token spells fits rest =>
      rw [← h.comments]
      exact .token spells (fun c hc => h.fits c (fits c hc)) rest

theorem append (h : Writes p cs ws q) (h' : Writes q ds vs r) :
    Writes p (cs ++ ds) (ws ++ vs) r := by
  induction h with
  | nil allows => exact mono allows h'
  | space rest ih => exact .space (ih h')
  | newline rest ih => exact .newline (ih h')
  | comment fresh oneLine rest ih =>
      rw [List.append_assoc, List.cons_append]
      exact .comment fresh oneLine (ih h')
  | token spells fits rest ih =>
      rw [List.append_assoc]
      exact .token spells fits (ih h')

theorem weaken (h : Writes p cs ws q) (allows : q.Allows r) : Writes p cs ws r := by
  have happend := append h (.nil allows)
  rwa [List.append_nil, List.append_nil] at happend

/-- What is written may be written after a space. -/
theorem after_space (h : Writes p cs ws q) : Writes p (' ' :: cs) ws q :=
  .space (mono p.spaced_allows h)

/-- What is written in some state may stand there, and so may what follows it. -/
theorem fits_append (h : Writes p cs ws q) (fits : ∀ c ∈ ds.head?, q.Fits c) :
    ∀ c ∈ (cs ++ ds).head?, p.Fits c := by
  cases h with
  | nil allows => exact fun c hc => allows.fits c (fits c hc)
  | space =>
      rintro _ ⟨⟩ kind -
      cases kind <;> rfl
  | newline =>
      rintro _ ⟨⟩ kind -
      cases kind <;> rfl
  | comment =>
      rintro _ ⟨⟩ kind -
      cases kind <;> rfl
  | token spells fits rest =>
      obtain ⟨c, text, rfl, -⟩ := spells.start
      rintro _ ⟨⟩
      exact fits c rfl

end Writes

end Proto2

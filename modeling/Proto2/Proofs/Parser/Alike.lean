import Mathlib.Data.List.Forall2
import Proto2.Documentation
import Proto2.Proofs.Parser.Diagnosed

/-!
What parsers make of tokens that are alike.

Two tokens have the same content if they have one kind, lexeme and documentation; where they stand,
and what else the comments say, may differ.  A likeness says what else two tokens must share, and
what two errors share then.  Two parsers are alike if on tokens that are alike they end alike: they
give related results and leave tokens that are alike, or they fail with errors that are alike.  The
judgement has a rule for every way to put parsers together, and a token that a parser has read is
related to one that is alike.
-/

namespace Proto2

/-- The tokens differ at most in their places and in comments that are no documentation. -/
structure Token.Alike (t u : Token) : Prop where
  kind : t.kind = u.kind
  lexeme : t.lexeme = u.lexeme
  documentation : Documentation.ofComments t.comments = Documentation.ofComments u.comments

namespace Token.Alike

instance (t u : Token) : Decidable (t.Alike u) :=
  decidable_of_iff (t.kind = u.kind ∧ t.lexeme = u.lexeme ∧
      Documentation.ofComments t.comments = Documentation.ofComments u.comments)
    ⟨fun ⟨kind, lexeme, documentation⟩ => ⟨kind, lexeme, documentation⟩,
      fun ⟨kind, lexeme, documentation⟩ => ⟨kind, lexeme, documentation⟩⟩

variable {t u : Token}

theorem describe (alike : t.Alike u) : t.describe = u.describe := by
  rw [Token.describe, Token.describe, alike.kind, alike.lexeme]

end Token.Alike

/-! ### Failures -/

/-- The classes of errors. -/
inductive ErrorClass where
  | lexical
  | schemaSyntax
  | optionSyntax
  | validation
  /-- A number that is not converted, or a word that is no label. -/
  | value
  | index
  | budget
deriving DecidableEq, Repr

namespace Failure

/-- The class of an error. -/
def errorClass : Failure → ErrorClass
  | parse (.lexical _) => .lexical
  | parse (.grammar .schema _ _) => .schemaSyntax
  | parse (.grammar .option _ _) => .optionSyntax
  | build (.invalid _) => .validation
  | build (.unwritable _) => .value
  | build (.unknownLabel _) => .value
  | numeral _ => .value
  | noToken => .index
  | outOfBudget => .budget

/-- What is wrong, in words, without the place and the hint. -/
def message : Failure → String
  | parse e => e.message
  | failure => failure.text

/-- The errors are of one class and have one message. -/
structure Alike (e f : Failure) : Prop where
  errorClass : e.errorClass = f.errorClass
  message : e.message = f.message

theorem Alike.refl (e : Failure) : e.Alike e :=
  ⟨rfl, rfl⟩

end Failure

/-- The causes are the same up to the token that opened what is not closed; the tokens for which
they name it are related. -/
inductive GrammarCause.Alike (R : Token → Token → Prop) : GrammarCause → GrammarCause → Prop
  | same (cause : GrammarCause) : GrammarCause.Alike R cause cause
  | unclosedBody {t u : Token} (opened : R t u) :
      GrammarCause.Alike R (.unclosedBody t.span) (.unclosedBody u.span)
  | unbalanced {t u : Token} (opened : R t u) :
      GrammarCause.Alike R (.unbalanced t.lexeme t.span) (.unbalanced u.lexeme u.span)

theorem GrammarCause.Alike.message {R : Token → Token → Prop} (content : ∀ t u, R t u → t.Alike u)
    {t u : Token} (alike : R t u) {cause cause' : GrammarCause}
    (causes : GrammarCause.Alike R cause cause') : cause.message t = cause'.message u := by
  have hdescribe := (content t u alike).describe
  cases causes with
  | same cause =>
      unfold GrammarCause.message
      rw [hdescribe]
  | unclosedBody _ => rfl
  | unbalanced opened =>
      unfold GrammarCause.message
      rw [(content _ _ opened).lexeme]

/-- The spans start in one file, on one line and in one column. -/
structure Span.StartsLike (s t : Span) : Prop where
  file : s.file = t.file
  line : s.start.line = t.start.line
  column : s.start.column = t.start.column

theorem Span.StartsLike.format {s t : Span} (h : s.StartsLike t) : s.format = t.format := by
  rw [Span.format, Span.format, h.file, h.line, h.column]

/-- The tokens have the same content and start at the same place. -/
structure Token.AlikeInPlace (t u : Token) : Prop extends t.Alike u where
  place : t.span.StartsLike u.span

theorem GrammarCause.Alike.hint? {t u : Token} (alike : t.AlikeInPlace u)
    {cause cause' : GrammarCause} (causes : GrammarCause.Alike Token.AlikeInPlace cause cause') :
    cause.hint? t = cause'.hint? u := by
  have hown : cause.ownHint? = cause'.ownHint? := by
    cases causes with
    | same => rfl
    | unclosedBody opened => simp only [GrammarCause.ownHint?, opened.place.format]
    | unbalanced opened => simp only [GrammarCause.ownHint?, opened.place.format]
  rw [GrammarCause.hint?, GrammarCause.hint?, hown, Token.isEnd, Token.isEnd, alike.kind]

/-- The text of an error is put together from its place, its message and its hint. -/
theorem ParseError.text_congr {e f : ParseError} (place : e.span.StartsLike f.span)
    (message : e.message = f.message) (hint : e.hint? = f.hint?) : e.text = f.text := by
  rw [ParseError.text, ParseError.text, place.format, message, hint]

/-! ### Likenesses -/

/-- What tokens have in common beside their content, and what errors then have in common. -/
structure Likeness where
  token : Token → Token → Prop
  lexical : LexicalError → LexicalError → Prop
  failure : Failure → Failure → Prop
  content : ∀ t u, token t u → t.Alike u
  refl : ∀ e, failure e e
  ofLexical : ∀ {e f}, lexical e f → failure (.parse (.lexical e)) (.parse (.lexical f))
  ofString : ∀ {t u}, token t u → ∀ cause, lexical ⟨t.span, cause⟩ ⟨u.span, cause⟩
  ofGrammar : ∀ {t u}, token t u → ∀ g {cause cause'}, GrammarCause.Alike token cause cause' →
    failure (.parse (.grammar g t cause)) (.parse (.grammar g u cause'))

namespace Likeness

/-- The same content, wherever it stands. -/
def ofContent : Likeness where
  token := Token.Alike
  lexical := fun e f => e.cause = f.cause
  failure := Failure.Alike
  content := fun _ _ => id
  refl := Failure.Alike.refl
  ofLexical := fun cause => ⟨rfl, congrArg LexicalCause.message cause⟩
  ofString := fun _ _ => rfl
  ofGrammar := fun alike g _ _ causes => ⟨by cases g <;> rfl, causes.message (fun _ _ => id) alike⟩

/-- The same content at the same place. -/
def inPlace : Likeness where
  token := Token.AlikeInPlace
  lexical := fun e f => e.cause = f.cause ∧ e.span.StartsLike f.span
  failure := fun e f => e.errorClass = f.errorClass ∧ e.text = f.text
  content := fun _ _ => Token.AlikeInPlace.toAlike
  refl := fun _ => ⟨rfl, rfl⟩
  ofLexical := fun ⟨cause, place⟩ => ⟨rfl, ParseError.text_congr place
    (congrArg LexicalCause.message cause) (congrArg LexicalCause.hint? cause)⟩
  ofString := fun alike _ => ⟨rfl, alike.place⟩
  ofGrammar := fun alike g _ _ causes => ⟨by cases g <;> rfl, ParseError.text_congr alike.place
    (causes.message (fun _ _ => Token.AlikeInPlace.toAlike) alike) (causes.hint? alike)⟩

variable {L : Likeness} {t u : Token}

/-- What is left of two texts is alike, token by token and up to the lexical errors behind them. -/
structure Lexed (L : Likeness) (l l' : Proto2.Lexed) : Prop where
  tokens : List.Forall₂ L.token l.tokens l'.tokens
  failure : Option.Rel L.lexical l.failure l'.failure

theorem token.kind (alike : L.token t u) : t.kind = u.kind :=
  (L.content t u alike).kind

theorem token.kind_iff (alike : L.token t u) {kind : TokenKind} :
    t.kind = kind ↔ u.kind = kind := by
  rw [alike.kind]

theorem token.lexeme (alike : L.token t u) : t.lexeme = u.lexeme :=
  (L.content t u alike).lexeme

theorem token.documentation (alike : L.token t u) :
    Documentation.ofComments t.comments = Documentation.ofComments u.comments :=
  (L.content t u alike).documentation

theorem token.isEnd (alike : L.token t u) : t.isEnd = u.isEnd := by
  rw [Token.isEnd, Token.isEnd, alike.kind]

theorem token.isWord (alike : L.token t u) (word : String) : t.isWord word = u.isWord word := by
  rw [Token.isWord, Token.isWord, alike.kind, alike.lexeme]

theorem token.isWord_iff (alike : L.token t u) {word : String} :
    t.isWord word = true ↔ u.isWord word = true := by
  rw [alike.isWord]

end Likeness

namespace Parser

/-- The outcomes are related results and what is left of texts alike, or errors that are alike. -/
inductive OutcomeAlike (L : Likeness) {α β : Type} (R : α → β → Prop) :
    Except Failure (α × Lexed) → Except Failure (β × Lexed) → Prop
  | ok {a : α} {b : β} {l l' : Lexed} (result : R a b) (left : L.Lexed l l') :
      OutcomeAlike L R (.ok (a, l)) (.ok (b, l'))
  | error {e f : Failure} (alike : L.failure e f) : OutcomeAlike L R (.error e) (.error f)

/-- On what is left of texts alike the parsers end alike. -/
def Alike (L : Likeness) {α β : Type} (R : α → β → Prop) (p : Parser α) (q : Parser β) : Prop :=
  ∀ l l', L.Lexed l l' → OutcomeAlike L R (p.outcome l) (q.outcome l')

variable {L : Likeness} {α β γ δ : Type} {R : α → β → Prop} {S : γ → δ → Prop} {p : Parser α}
  {q : Parser β}

/-! ### Parsers put together -/

theorem Alike.pure {a : α} {b : β} (result : R a b) : Alike L R (pure a) (pure b) :=
  fun _ _ hleft => .ok result hleft

theorem Alike.throw {e f : Failure} (alike : L.failure e f) :
    Alike L R (throw e : Parser α) (throw f : Parser β) :=
  fun _ _ _ => .error alike

theorem alike_outOfBudget : Alike L R (throw .outOfBudget : Parser α) (throw .outOfBudget) :=
  .throw (L.refl _)

/-- Parsers fail alike at tokens that are alike. -/
theorem Alike.fail {g : Grammar} {t u : Token} {cause cause' : GrammarCause}
    (alike : L.token t u) (causes : GrammarCause.Alike L.token cause cause') :
    Alike L R (fail g t cause : Parser α) (fail g u cause') :=
  .throw (L.ofGrammar alike g causes)

/-- One parser after another. -/
theorem Alike.bind {f : α → Parser γ} {g : β → Parser δ} [∀ a, TokenDriven (f a)]
    [∀ b, TokenDriven (g b)] (alike : Alike L R p q) (next : ∀ a b, R a b → Alike L S (f a) (g b)) :
    Alike L S (p >>= f) (q >>= g) := by
  intro l l' hleft
  have houtcomes := alike l l' hleft
  rw [outcome_bind, outcome_bind]
  generalize p.outcome l = o, q.outcome l' = o' at houtcomes ⊢
  cases houtcomes with
  | ok result left => exact next _ _ result _ _ left
  | error alike => exact .error alike

/-- What follows a result that is the same in both runs. -/
theorem Alike.bind_eq {p q : Parser α} {f : α → Parser γ} {g : α → Parser δ}
    [∀ a, TokenDriven (f a)] [∀ a, TokenDriven (g a)] (alike : Alike L Eq p q)
    (next : ∀ a, Alike L S (f a) (g a)) : Alike L S (p >>= f) (q >>= g) := by
  refine alike.bind ?_
  rintro a _ rfl
  exact next a

theorem Alike.ite {c d : Prop} [Decidable c] [Decidable d] {p' : Parser α} {q' : Parser β}
    (same : c ↔ d) (yes : Alike L R p q) (no : Alike L R p' q') :
    Alike L R (if c then p else p') (if d then q else q') := by
  by_cases hc : c
  case pos =>
    rw [if_pos hc, if_pos (same.mp hc)]
    exact yes
  case neg =>
    rw [if_neg hc, if_neg (mt same.mpr hc)]
    exact no

theorem alike_ofBuild {e : Except BuildError α} : Alike L Eq (ofBuild e) (ofBuild e) := by
  cases e with
  | ok a => exact .pure rfl
  | error e => exact .throw (L.refl _)

/-- On streams of which what is left is alike, parsers that are alike end alike. -/
theorem Alike.run_of_left [TokenDriven p] [TokenDriven q] (alike : Alike L R p q)
    {s s' : TokenStream} (left : L.Lexed s.left s'.left) :
    (∃ a b r r', p.run s = .ok a r ∧ q.run s' = .ok b r' ∧ R a b) ∨
      ∃ e f r r', p.run s = .error e r ∧ q.run s' = .error f r' ∧ L.failure e f := by
  have houtcome := TokenDriven.outcome_eq (p := p) s
  have houtcome' := TokenDriven.outcome_eq (p := q) s'
  have houtcomes := alike _ _ left
  rw [← houtcome, ← houtcome'] at houtcomes
  generalize ho : outcomeOf (p s) = o, ho' : outcomeOf (q s') = o' at houtcomes
  cases houtcomes with
  | ok result _ =>
      obtain ⟨r, hrun, -⟩ := outcomeOf_eq_ok.mp ho
      obtain ⟨r', hrun', -⟩ := outcomeOf_eq_ok.mp ho'
      exact .inl ⟨_, _, r, r', hrun, hrun', result⟩
  | error halike =>
      obtain ⟨r, hrun⟩ := outcomeOf_eq_error.mp ho
      obtain ⟨r', hrun'⟩ := outcomeOf_eq_error.mp ho'
      exact .inr ⟨_, _, r, r', hrun, hrun', halike⟩

/-- On streams whose tokens that are left have the same content, parsers that are alike end alike
if no lexical error stands behind the tokens. -/
theorem Alike.run [TokenDriven p] [TokenDriven q] (alike : Alike .ofContent R p q)
    {s s' : TokenStream} (lexed : s.failure = none) (lexed' : s'.failure = none)
    (tokens : List.Forall₂ Token.Alike s.tokens s'.tokens) :
    (∃ a b r r', p.run s = .ok a r ∧ q.run s' = .ok b r' ∧ R a b) ∨
      ∃ e f r r', p.run s = .error e r ∧ q.run s' = .error f r' ∧ e.Alike f := by
  refine alike.run_of_left ⟨tokens, ?_⟩
  show Option.Rel _ s.failure s'.failure
  rw [lexed, lexed']
  exact .none

/-! ### Single tokens -/

section Tokens

variable {ts us : List Token}

theorem alike_tail (alike : List.Forall₂ L.token ts us) :
    List.Forall₂ L.token ts.tail us.tail := by
  cases alike with
  | nil => exact .nil
  | cons _ tail => exact tail

theorem alike_getElem? (alike : List.Forall₂ L.token ts us) (n : Nat) :
    Option.Rel L.token ts[n]? us[n]? := by
  induction alike generalizing n with
  | nil => exact .none
  | cons head _ ih =>
      cases n with
      | zero => exact .some head
      | succ n => exact ih n

theorem alike_getLast? (alike : List.Forall₂ L.token ts us) :
    Option.Rel L.token ts.getLast? us.getLast? := by
  rw [List.getLast?_eq_getElem?, List.getLast?_eq_getElem?, alike.length_eq]
  exact alike_getElem? alike _

theorem alike_peek (n : Nat) : Alike L L.token (peek n) (peek n) := by
  intro l l' hleft
  have htoken := alike_getElem? hleft.tokens n
  have hlast := alike_getLast? hleft.tokens
  have hfailure := hleft.failure
  rw [outcome_peek, outcome_peek]
  generalize l.tokens[n]? = o, l'.tokens[n]? = o' at htoken ⊢
  cases htoken with
  | some ht => exact .ok ht hleft
  | none =>
      generalize l.failure = o, l'.failure = o' at hfailure ⊢
      cases hfailure with
      | some he => exact .error (L.ofLexical he)
      | none =>
          generalize l.tokens.getLast? = o, l'.tokens.getLast? = o' at hlast ⊢
          cases hlast with
          | some ht => exact .ok ht hleft
          | none => exact .error (L.refl _)

theorem alike_consume {t u : Token} (alike : L.token t u) :
    Alike L Eq (modify (·.consume t) : Parser PUnit) (modify (·.consume u)) := by
  intro l l' hleft
  show OutcomeAlike L Eq (.ok (_, (TokenStream.consume (.ofLexed l) t).left))
    (.ok (_, (TokenStream.consume (.ofLexed l') u).left))
  rw [TokenStream.consume, TokenStream.consume, ← alike.isEnd]
  split
  · exact .ok rfl hleft
  · exact .ok rfl ⟨alike_tail hleft.tokens, hleft.failure⟩

theorem alike_next : Alike L L.token next next := by
  unfold next
  refine (alike_peek 0).bind fun t u htu => ?_
  exact (alike_consume htu).bind_eq fun _ => .pure htu

theorem alike_budget : Alike L Eq budget budget :=
  fun _ _ hleft => .ok (congrArg (· + 1) hleft.tokens.length_eq) hleft

end Tokens

theorem alike_isAt (kind : TokenKind) : Alike L Eq (isAt kind) (isAt kind) := by
  unfold isAt
  refine (alike_peek 0).bind fun t u htu => .pure ?_
  rw [htu.kind]

theorem alike_isAtWord (word : String) : Alike L Eq (isAtWord word) (isAtWord word) := by
  unfold isAtWord
  exact (alike_peek 0).bind fun t u htu => .pure (htu.isWord word)

theorem alike_accept? (kind : TokenKind) :
    Alike L (Option.Rel L.token) (accept? kind) (accept? kind) := by
  unfold accept?
  refine (alike_isAt kind).bind_eq fun _ => .ite .rfl ?_ (.pure .none)
  exact alike_next.bind fun _ _ htu => .pure (.some htu)

theorem alike_acceptWord? (word : String) :
    Alike L (Option.Rel L.token) (acceptWord? word) (acceptWord? word) := by
  unfold acceptWord?
  refine (alike_isAtWord word).bind_eq fun _ => .ite .rfl ?_ (.pure .none)
  exact alike_next.bind fun _ _ htu => .pure (.some htu)

theorem isSome_eq_of_rel {o : Option α} {o' : Option β} (rel : Option.Rel R o o') :
    o.isSome = o'.isSome := by
  cases rel <;> rfl

theorem alike_accepts (kind : TokenKind) : Alike L Eq (accepts kind) (accepts kind) := by
  unfold accepts
  exact (alike_accept? kind).bind fun _ _ hrel => .pure (isSome_eq_of_rel hrel)

theorem alike_acceptsWord (word : String) : Alike L Eq (acceptsWord word) (acceptsWord word) := by
  unfold acceptsWord
  exact (alike_acceptWord? word).bind fun _ _ hrel => .pure (isSome_eq_of_rel hrel)

theorem alike_expect (g : Grammar) (kind : TokenKind) (what : String) :
    Alike L L.token (expect g kind what) (expect g kind what) := by
  unfold expect
  refine (alike_peek 0).bind fun t u htu => .ite htu.kind_iff alike_next ?_
  exact .fail htu (.same _)

theorem alike_expectWord (g : Grammar) (word : String) :
    Alike L L.token (expectWord g word) (expectWord g word) := by
  unfold expectWord
  refine (alike_peek 0).bind fun t u htu => .ite htu.isWord_iff alike_next ?_
  exact .fail htu (.same _)

theorem alike_identifier (g : Grammar) (what : String) :
    Alike L Eq (identifier g what) (identifier g what) := by
  unfold identifier
  exact (alike_expect g .identifier what).bind fun _ _ htu => .pure htu.lexeme

/-! ### Repetitions -/

section Repetitions

variable {item item' : Parser α} [TokenDriven item] [TokenDriven item']

theorem alike_itemsWithin {close : TokenKind} (alike : Alike L Eq item item') (n : Nat) :
    Alike L Eq (itemsWithin close item n) (itemsWithin close item' n) := by
  induction n with
  | zero => exact alike_outOfBudget
  | succ n ih =>
      unfold itemsWithin
      refine (alike_accepts close).bind_eq fun _ => .ite .rfl (.pure rfl) ?_
      exact alike.bind_eq fun _ => ih.bind_eq fun _ => .pure rfl

theorem alike_itemsUntil {close : TokenKind} (alike : Alike L Eq item item') :
    Alike L Eq (itemsUntil close item) (itemsUntil close item') := by
  unfold itemsUntil
  exact alike_budget.bind_eq (alike_itemsWithin alike)

theorem alike_separatedWithin (alike : Alike L Eq item item') (n : Nat) :
    Alike L Eq (separatedWithin item n) (separatedWithin item' n) := by
  induction n with
  | zero => exact alike_outOfBudget
  | succ n ih =>
      unfold separatedWithin
      refine alike.bind_eq fun _ => (alike_accepts .comma).bind_eq fun _ => .ite .rfl ?_ (.pure rfl)
      exact ih.bind_eq fun _ => .pure rfl

theorem alike_separated (alike : Alike L Eq item item') :
    Alike L Eq (separated item) (separated item') := by
  unfold separated
  exact alike_budget.bind_eq (alike_separatedWithin alike)

end Repetitions

/-! ### Names and literals -/

theorem alike_nameParts (n : Nat) : Alike L Eq (nameParts n) (nameParts n) := by
  induction n with
  | zero => exact alike_outOfBudget
  | succ n ih =>
      unfold nameParts
      refine (alike_isAt .dot).bind_eq fun _ => .ite .rfl ?_ (.pure rfl)
      refine (alike_peek 1).bind fun t u htu => .ite htu.kind_iff ?_ (.pure rfl)
      refine alike_next.bind fun _ _ _ => alike_next.bind fun _ _ hpart => ?_
      refine ih.bind_eq fun _ => .pure ?_
      rw [hpart.lexeme]

theorem alike_qualifiedName (g : Grammar) (what : String) :
    Alike L Eq (qualifiedName g what) (qualifiedName g what) := by
  unfold qualifiedName
  refine (alike_accepts .dot).bind_eq fun _ => (alike_identifier g what).bind_eq fun _ => ?_
  exact alike_budget.bind_eq fun n => (alike_nameParts n).bind_eq fun _ => .pure rfl

theorem alike_decodeString {t u : Token} (alike : L.token t u) :
    Alike L Eq (decodeString t) (decodeString u) := by
  unfold decodeString
  rw [← alike.lexeme]
  cases StringBody.decode t.lexeme.toList with
  | ok cs => exact .pure rfl
  | error cause => exact .throw (L.ofLexical (L.ofString alike cause))

theorem alike_decodeInteger {t u : Token} (alike : L.token t u) :
    Alike L Eq (decodeInteger t) (decodeInteger u) := by
  unfold decodeInteger
  rw [← alike.lexeme]
  cases IntegerLiteral.read t.lexeme.toList with
  | ok n => exact .pure rfl
  | error e => exact .throw (L.refl _)

theorem alike_stringLiteral : Alike L Eq stringLiteral stringLiteral := by
  unfold stringLiteral
  exact alike_next.bind fun _ _ => alike_decodeString

theorem alike_integerLiteral : Alike L Eq integerLiteral integerLiteral := by
  unfold integerLiteral
  exact alike_next.bind fun _ _ => alike_decodeInteger

theorem alike_floatLiteral : Alike L Eq floatLiteral floatLiteral := by
  unfold floatLiteral
  refine alike_next.bind fun _ _ htu => .pure ?_
  rw [htu.lexeme]

theorem alike_stringLiterals (n : Nat) : Alike L Eq (stringLiterals n) (stringLiterals n) := by
  induction n with
  | zero => exact alike_outOfBudget
  | succ n ih =>
      unfold stringLiterals
      refine (alike_isAt .string).bind_eq fun _ => .ite .rfl ?_ (.pure rfl)
      exact alike_stringLiteral.bind_eq fun _ => ih.bind_eq fun _ => .pure rfl

theorem alike_adjacentStrings : Alike L Eq adjacentStrings adjacentStrings := by
  unfold adjacentStrings
  refine alike_stringLiteral.bind_eq fun _ => alike_budget.bind_eq fun n => ?_
  exact (alike_stringLiterals n).bind_eq fun _ => .pure rfl

end Parser

end Proto2

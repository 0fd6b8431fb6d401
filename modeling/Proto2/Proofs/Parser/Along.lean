import Proto2.Proofs.Grammar.Viable
import Proto2.Proofs.Parser.Diagnosed

/-!
Where parsers fail.

A parser goes along a phrase if what it consumes is derived by the phrase, and if an error that it
reports stands behind tokens that are viable for the phrase: no token before the error, and none
that was only looked at, rules out that the phrase goes on.  The judgement has a rule for every
way to put parsers together, so that the phrase grows with the parser.

A parser that only looks ahead consumes nothing, but it may meet a lexical error behind the tokens
that it looks at.  It has a judgement of its own, in which these tokens must be viable for the
phrase that is read next.

Failures that are no errors with a place are left aside: declarations that are refused, numerals
that are not converted, and bounds that are used up.
-/

namespace Proto2

/-- The error stands in front of the given tokens: its place is that of the first one, or it is
the lexical error behind them, and there are none. -/
def ParseError.StandsAt (e : ParseError) (ts : List Token) (failure : Option LexicalError) : Prop :=
  (∃ t rest, ts = t :: rest ∧ e.span = t.span) ∨
    ∃ e', ts = [] ∧ failure = some e' ∧ e = .lexical e'

/-- If the failure is an error with a place, the tokens before the place are viable. -/
def Failure.InPlace (g : Phrase) (l : Lexed) : Failure → Prop
  | .parse e => ∃ us vs, l.tokens = us ++ vs ∧ g.Viable us ∧ e.StandsAt vs l.failure
  | _ => True

namespace Parser

/-- On what is left of a text, the parser consumes tokens that the phrase derives, or fails behind
tokens that are viable for it. -/
def Along {α : Type} (g : Phrase) (p : Parser α) (l : Lexed) (Q : α → Prop) : Prop :=
  match p.outcome l with
  | .ok (a, l') => Begins Token.HasValue g l.tokens l'.tokens ∧ l'.failure = l.failure ∧ Q a
  | .error failure => failure.InPlace g l

/-- On what is left of a text, the parser consumes nothing, or fails behind tokens that are viable
for the phrase. -/
def Looks {α : Type} (g : Phrase) (p : Parser α) (l : Lexed) (Q : α → Prop) : Prop :=
  match p.outcome l with
  | .ok (a, l') => l' = l ∧ Q a
  | .error failure => failure.InPlace g l

end Parser

section Places

variable {g h : Phrase} {l : Lexed} {failure : Failure}

theorem Failure.InPlace.mono (inPlace : failure.InPlace g l)
    (weaker : ∀ {ts}, Derives Token.HasValue g ts → Derives Token.HasValue h ts) :
    failure.InPlace h l := by
  cases failure with
  | parse e =>
      obtain ⟨us, vs, htokens, hviable, hstands⟩ := inPlace
      exact ⟨us, vs, htokens, hviable.mono weaker, hstands⟩
  | _ => trivial

theorem Failure.InPlace.append_left (inPlace : failure.InPlace g l) (other : h.IsProductive) :
    failure.InPlace (g ++ h) l := by
  cases failure with
  | parse e =>
      obtain ⟨us, vs, htokens, hviable, hstands⟩ := inPlace
      exact ⟨us, vs, htokens, hviable.append_left other.viable, hstands⟩
  | _ => trivial

theorem Failure.InPlace.append_right {l' : Lexed} (inPlace : failure.InPlace h l')
    (begins : Begins Token.HasValue g l.tokens l'.tokens) (same : l'.failure = l.failure) :
    failure.InPlace (g ++ h) l := by
  cases failure with
  | parse e =>
      obtain ⟨us, vs, htokens, hviable, hstands⟩ := inPlace
      obtain ⟨ts, hbefore, hderives⟩ := begins
      refine ⟨ts ++ us, vs, ?_, .append_right hderives hviable, same ▸ hstands⟩
      rw [hbefore, htokens, List.append_assoc]
  | _ => trivial

/-- An error at the first token is in place. -/
theorem Failure.inPlace_head {e : ParseError} {t : Token} {rest : List Token}
    (cons : l.tokens = t :: rest) (span : e.span = t.span) (productive : g.IsProductive) :
    (Failure.parse e).InPlace g l :=
  ⟨[], l.tokens, rfl, productive.viable, .inl ⟨t, rest, cons, span⟩⟩

/-- A lexical error behind the last token is in place. -/
theorem Failure.inPlace_end {e : LexicalError} (failure : l.failure = some e)
    (viable : g.Viable l.tokens) : (Failure.parse (.lexical e)).InPlace g l :=
  ⟨l.tokens, [], (List.append_nil _).symm, viable, .inr ⟨e, rfl, failure, rfl⟩⟩

end Places

namespace Parser

variable {α β : Type} {g h : Phrase} {p : Parser α} {l : Lexed} {Q : α → Prop}

/-! ### Parsers put together -/

theorem Along.weaken (along : Along g p l Q)
    (weaker : ∀ {ts}, Derives Token.HasValue g ts → Derives Token.HasValue h ts) :
    Along h p l Q := by
  unfold Along at along ⊢
  split at along
  · obtain ⟨⟨ts, hbefore, hderives⟩, hfailure, hQ⟩ := along
    exact ⟨⟨ts, hbefore, weaker hderives⟩, hfailure, hQ⟩
  · exact along.mono weaker

theorem Along.left (along : Along g p l Q) : Along (g ||| h) p l Q :=
  along.weaken .left

theorem Along.right (along : Along h p l Q) : Along (g ||| h) p l Q :=
  along.weaken .right

theorem Along.category {c : Category} (along : Along c.rule p l Q) : Along (.category c) p l Q :=
  along.weaken .category

/-- Rules are written from the left, and parsers go on to the right. -/
theorem Along.assoc {k : Phrase} (along : Along (g ++ (h ++ k)) p l Q) :
    Along (g ++ h ++ k) p l Q :=
  along.weaken Derives.append_assoc.mpr

theorem Along.more (along : Along (g ++ .many g) p l Q) : Along (.many g) p l Q :=
  along.weaken Derives.of_append_many

theorem Along.optional (along : Along (h ++ g ||| g) p l Q) : Along (h.optional ++ g) p l Q :=
  along.weaken Derives.optional_append

/-- One parser after another. -/
theorem Along.bind {f : α → Parser β} [∀ a, TokenDriven (f a)] {R : β → Prop}
    (along : Along g p l Q) (productive : h.IsProductive)
    (next : ∀ a l', Q a → Along h (f a) l' R) : Along (g ++ h) (p >>= f) l R := by
  unfold Along at along ⊢
  rw [outcome_bind]
  cases houtcome : p.outcome l with
  | error failure =>
      simp only [houtcome] at along ⊢
      exact along.append_left productive
  | ok r =>
      obtain ⟨a, l'⟩ := r
      simp only [houtcome] at along ⊢
      obtain ⟨hbegins, hfailure, hQ⟩ := along
      have hnext := next a l' hQ
      unfold Along at hnext
      split at hnext
      · exact ⟨hbegins.append hnext.1, hnext.2.1.trans hfailure, hnext.2.2⟩
      · exact hnext.append_right hbegins hfailure

/-- A look before a parser. -/
theorem Looks.bind {f : α → Parser β} [∀ a, TokenDriven (f a)] {R : β → Prop}
    (looks : Looks g p l Q) (next : ∀ a, Q a → Along g (f a) l R) : Along g (p >>= f) l R := by
  unfold Looks at looks
  unfold Along
  rw [outcome_bind]
  cases houtcome : p.outcome l with
  | error failure =>
      simp only [houtcome] at looks ⊢
      exact looks
  | ok r =>
      obtain ⟨a, l'⟩ := r
      simp only [houtcome] at looks ⊢
      obtain ⟨rfl, hQ⟩ := looks
      exact next a hQ

/-- A look before a look. -/
theorem Looks.bind_looks {f : α → Parser β} [∀ a, TokenDriven (f a)] {R : β → Prop}
    (looks : Looks g p l Q) (next : ∀ a, Q a → Looks g (f a) l R) : Looks g (p >>= f) l R := by
  unfold Looks at looks ⊢
  rw [outcome_bind]
  cases houtcome : p.outcome l with
  | error failure =>
      simp only [houtcome] at looks ⊢
      exact looks
  | ok r =>
      obtain ⟨a, l'⟩ := r
      simp only [houtcome] at looks ⊢
      obtain ⟨rfl, hQ⟩ := looks
      exact next a hQ

/-- To consume nothing is to go along a phrase that derives nothing. -/
theorem Looks.along (looks : Looks g p l Q) (nil : Derives Token.HasValue g []) :
    Along g p l Q := by
  unfold Looks at looks
  unfold Along
  split at looks
  · obtain ⟨rfl, hQ⟩ := looks
    exact ⟨⟨[], rfl, nil⟩, rfl, hQ⟩
  · exact looks

/-- What comes last only looks. -/
theorem Along.last {f : α → Parser β} [∀ a, TokenDriven (f a)] {R : β → Prop}
    (along : Along g p l Q) (next : ∀ a l', Q a → Looks .empty (f a) l' R) :
    Along g (p >>= f) l R := by
  have hbind : Along (g ++ .empty) (p >>= f) l R :=
    along.bind rfl fun a l' hQ => (next a l' hQ).along .empty
  exact hbind.weaken Derives.append_empty_iff.mp

theorem Looks.pure {a : α} (hQ : Q a) : Looks g (pure a) l Q :=
  ⟨rfl, hQ⟩

theorem Along.pure {a : α} (nil : Derives Token.HasValue g []) (hQ : Q a) :
    Along g (pure a) l Q :=
  (Looks.pure hQ).along nil

theorem Along.fail {grammar : Grammar} {t : Token} {rest : List Token} {cause : GrammarCause}
    (cons : l.tokens = t :: rest) (productive : g.IsProductive) :
    Along g (fail grammar t cause) l Q :=
  Failure.inPlace_head cons rfl productive

theorem Looks.fail {grammar : Grammar} {t : Token} {rest : List Token} {cause : GrammarCause}
    (cons : l.tokens = t :: rest) (productive : g.IsProductive) :
    Looks g (fail grammar t cause) l Q :=
  Failure.inPlace_head cons rfl productive

theorem along_outOfBudget : Along g (throw .outOfBudget) l Q :=
  trivial

theorem Along.ite {c : Prop} [Decidable c] {q : Parser α} (yes : c → Along g p l Q)
    (no : ¬c → Along g q l Q) : Along g (if c then p else q) l Q := by
  split
  case isTrue hc => exact yes hc
  case isFalse hc => exact no hc

theorem Looks.ite {c : Prop} [Decidable c] {q : Parser α} (yes : c → Looks g p l Q)
    (no : ¬c → Looks g q l Q) : Looks g (if c then p else q) l Q := by
  split
  case isTrue hc => exact yes hc
  case isFalse hc => exact no hc

theorem looks_ofBuild {e : Except BuildError α} : Looks g (ofBuild e) l fun _ => True := by
  cases e with
  | ok a => exact .pure trivial
  | error e => trivial

theorem looks_budget : Looks g budget l fun _ => True :=
  ⟨rfl, trivial⟩

/-! ### Single tokens -/

theorem looks_peek {n : Nat} (viable : l.tokens.length ≤ n → g.Viable l.tokens) :
    Looks g (peek n) l fun t =>
      l.tokens.drop n = t :: l.tokens.drop (n + 1) ∨
        (l.tokens.length ≤ n ∧ l.tokens.getLast? = some t) := by
  unfold Looks
  rw [outcome_peek]
  cases htoken : l.tokens[n]? with
  | some t =>
      obtain ⟨hlt, rfl⟩ := List.getElem?_eq_some_iff.mp htoken
      exact ⟨rfl, .inl (List.drop_eq_getElem_cons hlt)⟩
  | none =>
      have hle : l.tokens.length ≤ n := List.getElem?_eq_none_iff.mp htoken
      cases hfailure : l.failure with
      | some e => exact Failure.inPlace_end hfailure (viable hle)
      | none =>
          cases hlast : l.tokens.getLast? with
          | some t => exact ⟨rfl, .inr ⟨hle, rfl⟩⟩
          | none => trivial

theorem looks_peek_zero (productive : g.IsProductive) :
    Looks g (peek 0) l fun t => ∃ rest, l.tokens = t :: rest := by
  unfold Looks
  rw [outcome_peek]
  cases htokens : l.tokens with
  | cons t rest => exact ⟨rfl, rest, rfl⟩
  | nil =>
      cases hfailure : l.failure with
      | some e => exact Failure.inPlace_end hfailure (htokens ▸ productive.viable)
      | none => trivial

theorem looks_isAt {kind : TokenKind} (productive : g.IsProductive) :
    Looks g (isAt kind) l fun b =>
      ∃ t rest, l.tokens = t :: rest ∧ b = decide (t.kind = kind) := by
  unfold isAt
  refine (looks_peek_zero productive).bind_looks ?_
  rintro t ⟨rest, hcons⟩
  exact .pure ⟨t, rest, hcons, rfl⟩

section Heads

variable {t : Token} {rest : List Token} {x : Terminal}

/-- A parser that consumes the first token and goes on as another one. -/
theorem Along.behind {q : Parser α} (along : Along g q ⟨rest, l.failure⟩ Q)
    (cons : l.tokens = t :: rest) (admitted : x.Admits Token.HasValue t)
    (outcome : p.outcome l = q.outcome ⟨rest, l.failure⟩) : Along (.terminal x ++ g) p l Q := by
  have hbegins : Begins Token.HasValue (.terminal x) l.tokens rest := by
    rw [cons]
    exact .terminal admitted
  unfold Along at along ⊢
  rw [outcome]
  split at along
  · exact ⟨hbegins.append along.1, along.2⟩
  · exact along.append_right hbegins rfl

theorem outcome_next (cons : l.tokens = t :: rest) (notEnd : t.isEnd = false) :
    next.outcome l = .ok (t, ⟨rest, l.failure⟩) := by
  obtain ⟨tokens, failure⟩ := l
  subst cons
  show Except.ok (t, (TokenStream.consume _ t).left) = _
  rw [TokenStream.consume, notEnd]
  rfl

theorem Along.next_bind {f : Token → Parser β} [∀ t, TokenDriven (f t)] {R : β → Prop}
    (along : Along g (f t) ⟨rest, l.failure⟩ R) (cons : l.tokens = t :: rest)
    (notEnd : t.isEnd = false) (admitted : x.Admits Token.HasValue t) :
    Along (.terminal x ++ g) (next >>= f) l R :=
  along.behind cons admitted (by rw [outcome_bind, outcome_next cons notEnd])

theorem along_next (cons : l.tokens = t :: rest) (notEnd : t.isEnd = false)
    (admitted : x.Admits Token.HasValue t) : Along (.terminal x) next l fun _ => True := by
  unfold Along
  rw [outcome_next cons notEnd, cons]
  exact ⟨.terminal admitted, rfl, trivial⟩

theorem along_next_of_kind {kind : TokenKind} (cons : l.tokens = t :: rest) (eq : t.kind = kind)
    (some : kind ≠ .endOfInput) : Along (.token kind) next l fun _ => True :=
  along_next cons (isEnd_eq_false_of_kind eq some) eq

end Heads

theorem along_expect {grammar : Grammar} {kind : TokenKind} {what : String}
    (some : kind ≠ .endOfInput) :
    Along (.token kind) (expect grammar kind what) l fun _ => True := by
  have hproductive : (Phrase.token kind).IsProductive := decide_eq_true some
  unfold expect
  refine (looks_peek_zero hproductive).bind ?_
  rintro t ⟨rest, hcons⟩
  exact .ite (fun hkind => along_next_of_kind hcons hkind some) fun _ => .fail hcons hproductive

theorem along_expectWord {grammar : Grammar} (word : String)
    (productive : (Phrase.word word).IsProductive) :
    Along (.word word) (expectWord grammar word) l fun _ => True := by
  unfold expectWord
  refine (looks_peek_zero productive).bind ?_
  rintro t ⟨rest, hcons⟩
  refine .ite (fun hword => ?_) fun _ => .fail hcons productive
  refine along_next hcons (isEnd_eq_false_of_isWord hword) ?_
  simpa [Terminal.Admits, Token.isWord] using hword

theorem along_identifier {grammar : Grammar} {what : String} :
    Along (.token .identifier) (identifier grammar what) l fun _ => True := by
  unfold identifier
  exact (along_expect (by decide)).last fun _ _ _ => .pure trivial

/-! ### Optional tokens -/

theorem Along.accept?_bind {kind : TokenKind} {f : Option Token → Parser β}
    [∀ o, TokenDriven (f o)] {R : β → Prop} (some : kind ≠ .endOfInput)
    (productive : (Phrase.token kind ++ g ||| h).IsProductive)
    (yes : ∀ t rest, l.tokens = t :: rest → t.kind = kind →
      Along g (f (.some t)) ⟨rest, l.failure⟩ R)
    (no : ∀ t rest, l.tokens = t :: rest → t.kind ≠ kind → Along h (f none) l R) :
    Along (.token kind ++ g ||| h) (accept? kind >>= f) l R := by
  rw [accept?, bind_assoc]
  refine (looks_isAt productive).bind ?_
  rintro b ⟨t, rest, hcons, rfl⟩
  by_cases hkind : t.kind = kind
  case pos =>
    rw [if_pos (decide_eq_true hkind), bind_assoc]
    have hend := isEnd_eq_false_of_kind hkind some
    exact .left (.next_bind (yes t rest hcons hkind) hcons hend hkind)
  case neg =>
    rw [if_neg (by simpa using hkind)]
    exact .right (no t rest hcons hkind)

theorem Along.acceptWord?_bind {word : String} {f : Option Token → Parser β}
    [∀ o, TokenDriven (f o)] {R : β → Prop}
    (productive : (Phrase.word word ++ g ||| h).IsProductive)
    (yes : ∀ t rest, l.tokens = t :: rest → t.isWord word = true →
      Along g (f (.some t)) ⟨rest, l.failure⟩ R)
    (no : ∀ t rest, l.tokens = t :: rest → t.isWord word = false → Along h (f none) l R) :
    Along (.word word ++ g ||| h) (acceptWord? word >>= f) l R := by
  rw [acceptWord?, bind_assoc]
  unfold isAtWord
  rw [bind_assoc]
  refine (looks_peek_zero productive).bind ?_
  rintro t ⟨rest, hcons⟩
  cases hword : t.isWord word with
  | true =>
      show Along _ ((next >>= fun t => Pure.pure (.some t)) >>= f) l R
      rw [bind_assoc]
      have hadmits : (Terminal.word [word]).Admits Token.HasValue t := by
        simpa [Terminal.Admits, Token.isWord] using hword
      exact .left (.next_bind (yes t rest hcons hword) hcons (isEnd_eq_false_of_isWord hword)
        hadmits)
  | false => exact .right (no t rest hcons hword)

/-- A choice by an optional token. -/
theorem Along.accepts_bind {kind : TokenKind} {f : Bool → Parser β} [∀ b, TokenDriven (f b)]
    {R : β → Prop} (some : kind ≠ .endOfInput)
    (productive : (Phrase.token kind ++ g ||| h).IsProductive)
    (yes : ∀ t rest, l.tokens = t :: rest → t.kind = kind →
      Along g (f true) ⟨rest, l.failure⟩ R)
    (no : ∀ t rest, l.tokens = t :: rest → t.kind ≠ kind → Along h (f false) l R) :
    Along (.token kind ++ g ||| h) (accepts kind >>= f) l R := by
  rw [accepts, bind_assoc]
  exact .accept?_bind some productive yes no

/-- A choice by an optional word. -/
theorem Along.acceptsWord_bind {word : String} {f : Bool → Parser β} [∀ b, TokenDriven (f b)]
    {R : β → Prop} (productive : (Phrase.word word ++ g ||| h).IsProductive)
    (yes : ∀ t rest, l.tokens = t :: rest → t.isWord word = true →
      Along g (f true) ⟨rest, l.failure⟩ R)
    (no : ∀ t rest, l.tokens = t :: rest → t.isWord word = false → Along h (f false) l R) :
    Along (.word word ++ g ||| h) (acceptsWord word >>= f) l R := by
  rw [acceptsWord, bind_assoc]
  exact .acceptWord?_bind productive yes no

theorem along_skip {kind : TokenKind} (some : kind ≠ .endOfInput) :
    Along (.optional (.token kind)) (accept? kind) l fun _ => True := by
  have hproductive : (Phrase.token kind).optional.IsProductive := by
    simp [Phrase.IsProductive, Phrase.optional, Phrase.derivesBy, HOr.hOr, OrOp.or]
  unfold accept?
  refine (looks_isAt hproductive).bind ?_
  rintro b ⟨t, rest, hcons, rfl⟩
  refine .ite (fun hkind => ?_) fun _ => .pure (Derives.optional_iff.mpr (.inr rfl)) trivial
  refine .left ((along_next_of_kind hcons (of_decide_eq_true hkind) some).last fun _ _ _ => ?_)
  exact .pure trivial

/-! ### Repetitions -/

/-- A repetition goes on with what stands before each of its parts, or ends. -/
theorem Along.more_or_none
    (along : Along (h ++ (g ++ .many (h ++ g)) ||| .empty) p l Q) :
    Along (.many (h ++ g)) p l Q := by
  refine along.weaken fun hderives => ?_
  rcases Derives.or_iff.mp hderives with hmore | hempty
  · exact (Derives.append_assoc.mpr hmore).of_append_many
  · rw [Derives.empty_iff.mp hempty]
    exact .none

section Repetitions

variable {item : Parser α} [TokenDriven item] {n : Nat}

theorem along_itemsWithin {close : TokenKind} (some : close ≠ .endOfInput)
    (each : ∀ l, Along g item l fun _ => True) :
    Along (.many g ++ .token close) (itemsWithin close item n) l fun _ => True := by
  have hproductive : (Phrase.token close).IsProductive := decide_eq_true some
  have hitems : (Phrase.many g ++ .token close).IsProductive := hproductive
  induction n generalizing l with
  | zero => exact along_outOfBudget
  | succ n ih =>
      rw [itemsWithin]
      -- The token that closes the items, or an item and what was to be read before it.
      suffices hround : Along (.token close ++ .empty ||| g ++ (.many g ++ .token close)) _ l
          fun _ => True by
        refine hround.weaken fun hderives => ?_
        rcases Derives.or_iff.mp hderives with h | h
        · exact .both .none (Derives.append_empty_iff.mp h)
        · obtain ⟨us, vs, rfl, hitems, hclose⟩ :=
            Derives.append_iff.mp (Derives.append_assoc.mpr h)
          exact .both hitems.of_append_many hclose
      refine .accepts_bind some ?_ (fun _ _ _ _ => .pure .empty trivial) fun _ _ _ _ => ?_
      · show ((Phrase.token close).derivesBy _ && true || _) = true
        rw [hproductive]
        rfl
      · refine (each l).bind hitems fun _ _ _ => ?_
        exact ih.last fun _ _ _ => .pure trivial

theorem along_itemsUntil {close : TokenKind} (some : close ≠ .endOfInput)
    (each : ∀ l, Along g item l fun _ => True) :
    Along (.many g ++ .token close) (itemsUntil close item) l fun _ => True := by
  unfold itemsUntil
  exact looks_budget.bind fun _ _ => along_itemsWithin some each

theorem along_separatedWithin (productive : g.IsProductive)
    (each : ∀ l, Along g item l fun _ => True) :
    Along (g ++ .many (.token .comma ++ g)) (separatedWithin item n) l fun _ => True := by
  induction n generalizing l with
  | zero => exact along_outOfBudget
  | succ n ih =>
      rw [separatedWithin]
      refine (each l).bind rfl fun _ l' _ => .more_or_none ?_
      refine .accepts_bind (by decide) ?_ (fun _ _ _ _ => ?_) fun _ _ _ _ => .pure .empty trivial
      · show (true && (g.derivesBy _ && true) || _) = true
        rw [productive]
        rfl
      · exact ih.last fun _ _ _ => .pure trivial

theorem along_separated (productive : g.IsProductive)
    (each : ∀ l, Along g item l fun _ => True) :
    Along (g ++ .many (.token .comma ++ g)) (separated item) l fun _ => True := by
  unfold separated
  exact looks_budget.bind fun _ _ => along_separatedWithin productive each

end Repetitions

/-! ### Names -/

/-- A dot is consumed only if an identifier follows it.  If the text breaks off behind the dot, an
identifier may still follow. -/
theorem along_nameParts {n : Nat} : Along .nameTail (nameParts n) l fun _ => True := by
  induction n generalizing l with
  | zero => exact along_outOfBudget
  | succ n ih =>
      rw [nameParts]
      have hproductive : Phrase.nameTail.IsProductive := rfl
      refine (looks_isAt hproductive).bind ?_
      rintro b ⟨dot, rest, hcons, rfl⟩
      refine .ite (fun hdot => ?_) fun _ => .pure .none trivial
      replace hdot : dot.kind = .dot := of_decide_eq_true hdot
      have hviable : l.tokens.length ≤ 1 → Phrase.nameTail.Viable l.tokens := by
        intro hle
        rw [hcons, List.length_cons] at hle
        obtain rfl := List.eq_nil_of_length_eq_zero (Nat.le_zero.mp (Nat.le_of_succ_le_succ hle))
        have hpart : (Phrase.token .dot ++ .token .identifier).Viable ([dot] ++ []) :=
          .append_right (.terminal hdot) (Phrase.IsProductive.viable rfl)
        rw [hcons]
        exact hpart.many
      refine (looks_peek hviable).bind fun part hpart => ?_
      refine .ite (fun hkind => ?_) fun _ => .pure .none trivial
      -- The identifier is the token behind the dot, not the last token seen again.
      rw [hcons] at hpart
      obtain ⟨rest, rfl⟩ : ∃ rest', rest = part :: rest' := by
        rcases hpart with hpart | ⟨hle, hlast⟩
        · exact ⟨_, hpart⟩
        · obtain rfl : rest = [] := by simpa using hle
          rw [List.getLast?_singleton, Option.some.injEq] at hlast
          rw [← hlast, hdot] at hkind
          cases hkind
      refine .more (.assoc ?_)
      refine .next_bind ?_ hcons (isEnd_eq_false_of_kind hdot (by decide)) hdot
      refine .next_bind ?_ rfl (isEnd_eq_false_of_kind hkind (by decide)) hkind
      exact ih.last fun _ _ _ => .pure trivial

/-- A name that starts with a dot, or with an identifier for which a terminal stands. -/
theorem along_qualifiedName {grammar : Grammar} {what : String} {x : Terminal}
    (productive : (Phrase.terminal x).IsProductive)
    (admitted : ∀ t rest, l.tokens = t :: rest → t.kind = .identifier →
      x.Admits Token.HasValue t) :
    Along ((.token .dot ++ .token .identifier ||| .terminal x) ++ .nameTail)
      (qualifiedName grammar what) l fun _ => True := by
  suffices hround : Along (.token .dot ++ (.token .identifier ++ .nameTail) |||
      .terminal x ++ .nameTail) (qualifiedName grammar what) l fun _ => True by
    refine hround.weaken fun hderives => ?_
    rcases Derives.or_iff.mp hderives with h | h
    · obtain ⟨us, vs, rfl, hfirst, htail⟩ := Derives.append_iff.mp (Derives.append_assoc.mpr h)
      exact .both (.left hfirst) htail
    · obtain ⟨us, vs, rfl, hfirst, htail⟩ := Derives.append_iff.mp h
      exact .both (.right hfirst) htail
  have hrest {first : String} {rooted : Bool} (l' : Lexed) :
      Along .nameTail (do
        let parts ← nameParts (← budget)
        let names := first :: parts
        return dotted (if rooted then "" :: names else names)) l' fun _ => True := by
    refine looks_budget.bind fun n _ => ?_
    exact along_nameParts.last fun _ _ _ => .pure trivial
  unfold qualifiedName
  refine .accepts_bind (by decide) rfl (fun _ _ _ _ => ?_) fun t rest hcons _ => ?_
  · exact along_identifier.bind rfl fun _ l' _ => hrest l'
  · refine .bind (Q := fun _ => True) ?_ rfl fun _ l' _ => hrest l'
    unfold identifier expect
    rw [bind_assoc]
    refine (looks_peek_zero productive).bind ?_
    rintro u ⟨_, hu⟩
    obtain ⟨rfl, rfl⟩ := List.cons.inj (hcons.symm.trans hu)
    by_cases hkind : t.kind = .identifier
    · rw [if_pos hkind]
      refine .last (along_next hcons (isEnd_eq_false_of_kind hkind (by decide)) ?_) fun _ _ _ => ?_
      · exact admitted t rest hcons hkind
      · exact .pure trivial
    · rw [if_neg hkind]
      exact Failure.inPlace_head hcons rfl productive

theorem along_name {grammar : Grammar} {what : String} :
    Along (.category .name) (qualifiedName grammar what) l fun _ => True := by
  refine .category ((along_qualifiedName (x := .kind .identifier) rfl ?_).weaken fun h => ?_)
  · exact fun _ _ _ hkind => hkind
  · obtain ⟨us, vs, rfl, hfirst, htail⟩ := Derives.append_iff.mp h
    exact .both hfirst.optional_append htail

/-! ### Literals -/

/-- What is read from a token of the kind is its value.  If it has none, an error with a place is
one about the token. -/
def Decodes (kind : TokenKind) (decode : Token → Parser α) : Prop :=
  ∀ t, t.kind = kind →
    (∃ a, decode t = pure a ∧ t.HasValue) ∨
      ∃ failure, decode t = throw failure ∧ ∀ e, failure = .parse e → e.span = t.span

theorem decodes_decodeString : Decodes .string decodeString := by
  intro t hkind
  unfold decodeString
  split
  case h_1 cs hdecode =>
    refine .inl ⟨_, rfl, fun _ => ⟨String.ofList cs, ?_⟩, fun h => ?_⟩
    · rw [Token.stringValue, hdecode]
      rfl
    · rw [hkind] at h
      cases h
  case h_2 cause hdecode =>
    refine .inr ⟨_, rfl, ?_⟩
    rintro e heq
    cases heq
    rfl

theorem decodes_decodeInteger : Decodes .integer decodeInteger := by
  intro t hkind
  unfold decodeInteger
  split
  case h_1 n hread =>
    refine .inl ⟨n, rfl, fun h => ?_, fun _ => ⟨n, hread⟩⟩
    rw [hkind] at h
    cases h
  case h_2 e hread =>
    refine .inr ⟨_, rfl, ?_⟩
    rintro e heq
    cases heq

section Decoded

variable {kind : TokenKind} {decode : Token → Parser α} [∀ t, TokenDriven (decode t)] {t : Token}
  {rest : List Token}

theorem Decodes.along_next (decodes : Decodes kind decode) (some : kind ≠ .endOfInput)
    (cons : l.tokens = t :: rest) (eq : t.kind = kind) :
    Along (.literal kind) (next >>= decode) l fun _ => True := by
  have hnext := outcome_next cons (isEnd_eq_false_of_kind eq some)
  unfold Along
  rw [outcome_bind, hnext]
  rcases decodes t eq with ⟨a, hdecode, hvalue⟩ | ⟨failure, hdecode, hspan⟩
  · simp only [hdecode]
    rw [cons]
    exact ⟨.literal eq hvalue, rfl, trivial⟩
  · simp only [hdecode]
    cases failure with
    | parse e => exact Failure.inPlace_head cons (hspan e rfl) (decide_eq_true some)
    | _ => trivial

theorem Decodes.along_expect (decodes : Decodes kind decode) (some : kind ≠ .endOfInput)
    {grammar : Grammar} {what : String} :
    Along (.literal kind) (expect grammar kind what >>= decode) l fun _ => True := by
  have hproductive : (Phrase.literal kind).IsProductive := decide_eq_true some
  rw [expect, bind_assoc]
  refine (looks_peek_zero hproductive).bind ?_
  rintro t ⟨rest, hcons⟩
  by_cases hkind : t.kind = kind
  · rw [if_pos hkind]
    exact decodes.along_next some hcons hkind
  · rw [if_neg hkind]
    exact Failure.inPlace_head hcons rfl hproductive

end Decoded

theorem along_stringLiterals {n : Nat} :
    Along (.many (.literal .string)) (stringLiterals n) l fun _ => True := by
  induction n generalizing l with
  | zero => exact along_outOfBudget
  | succ n ih =>
      rw [stringLiterals]
      have hproductive : (Phrase.many (.literal .string)).IsProductive := rfl
      refine (looks_isAt hproductive).bind ?_
      rintro b ⟨t, rest, hcons, rfl⟩
      refine .ite (fun hkind => ?_) fun _ => .pure .none trivial
      have hfirst : Along (.literal .string) stringLiteral l fun _ => True :=
        decodes_decodeString.along_next (by decide) hcons (of_decide_eq_true hkind)
      refine .more (hfirst.bind rfl fun _ l' _ => ?_)
      exact ih.last fun _ _ _ => .pure trivial

theorem along_adjacentStrings {t : Token} {rest : List Token} (cons : l.tokens = t :: rest)
    (kind : t.kind = .string) :
    Along (.literal .string ++ .many (.literal .string)) adjacentStrings l fun _ => True := by
  have hfirst : Along (.literal .string) stringLiteral l fun _ => True :=
    decodes_decodeString.along_next (by decide) cons kind
  unfold adjacentStrings
  refine hfirst.bind rfl fun _ l' _ => looks_budget.bind fun _ _ => ?_
  exact along_stringLiterals.last fun _ _ _ => .pure trivial

theorem along_integerLiteral {t : Token} {rest : List Token} (cons : l.tokens = t :: rest)
    (kind : t.kind = .integer) : Along (.literal .integer) integerLiteral l fun _ => True :=
  decodes_decodeInteger.along_next (by decide) cons kind

theorem along_floatLiteral {t : Token} {rest : List Token} (cons : l.tokens = t :: rest)
    (kind : t.kind = .float) : Along (.token .float) floatLiteral l fun _ => True := by
  unfold floatLiteral
  exact (along_next_of_kind cons kind (by decide)).last fun _ _ _ => .pure trivial

end Parser

end Proto2

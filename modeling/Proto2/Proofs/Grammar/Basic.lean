import Proto2.Token.Basic

/-!
Grammars of token sequences.

A phrase describes token sequences by the usual means: a token of some kind, one phrase after
another, a choice, and repetition.  The categories of the schema language are defined by phrases
in terms of one another, and `Derives` is what they derive.  Nothing here says how a sequence is
to be recognized, and a sequence may have several derivations.

Some tokens are literals whose text is interpreted.  The grammar marks their places, and the
derivations are taken relative to a condition on the tokens that stand there; derivability in
the plain sense is derivability under no condition.
-/

namespace Proto2

/-- The categories of the schema language. -/
inductive Category where
  | name
  | constant
  | namePart
  | setting
  | value
  | list
  | aggregate
  | entry
  | key
  | bracketedSettings
  | optionStatement
  | field
  | range
  | extensionRanges
  | enumValue
  | enumeration
  | rpcType
  | rpc
  | service
  | extension
  | message
  | statement
  | package
  | file
deriving DecidableEq, Repr

/-- What stands for one token. -/
inductive Terminal where
  /-- A token of a kind. -/
  | kind (k : TokenKind)
  /-- A token of a kind whose text is interpreted. -/
  | literal (k : TokenKind)
  /-- An identifier that is one of the given words. -/
  | word (among : List String)
  /-- An identifier that is none of the given words. -/
  | identifierExcept (words : List String)

namespace Terminal

/-- Whether a token may stand for the terminal, given the condition on interpreted tokens. -/
def Admits (readable : Token → Prop) : Terminal → Token → Prop
  | kind k, t => t.kind = k
  | literal k, t => t.kind = k ∧ readable t
  | word among, t => t.kind = .identifier ∧ t.lexeme ∈ among
  | identifierExcept words, t => t.kind = .identifier ∧ t.lexeme ∉ words

end Terminal

/-- Descriptions of token sequences. -/
inductive Phrase where
  | empty
  | terminal (x : Terminal)
  | category (c : Category)
  | both (p q : Phrase)
  | either (p q : Phrase)
  | many (p : Phrase)

namespace Phrase

instance : Append Phrase := ⟨both⟩

instance : OrOp Phrase := ⟨either⟩

/-- A token of a kind. -/
def token (k : TokenKind) : Phrase :=
  terminal (.kind k)

/-- A token of a kind whose text is interpreted. -/
def literal (k : TokenKind) : Phrase :=
  terminal (.literal k)

/-- A word. -/
def word (w : String) : Phrase :=
  terminal (.word [w])

/-- A phrase or nothing. -/
def optional (p : Phrase) : Phrase :=
  p ||| empty

end Phrase

open Phrase in
/-- The phrases that define the categories. -/
def Category.rule : Category → Phrase
  | .name =>
    optional (token .dot) ++ token .identifier ++ many (token .dot ++ token .identifier)
  | .constant =>
    (token .dot ++ token .identifier ||| terminal (.identifierExcept ["true", "false"])) ++
      many (token .dot ++ token .identifier)
  | .namePart =>
    token .identifier ||| token .openParen ++ category .name ++ token .closeParen
  | .setting =>
    category .namePart ++ many (token .dot ++ category .namePart) ++ token .equals ++
      category .value
  | .value =>
    literal .string ++ many (literal .string) ||| terminal (.word ["true", "false"]) |||
      literal .integer ||| token .float ||| category .constant ||| category .list |||
      category .aggregate
  | .list =>
    token .openBracket ++
      many ((category .setting ||| category .value) ++ optional (token .comma)) ++
      token .closeBracket
  | .aggregate =>
    token .openBrace ++ many (category .entry ++ optional (token .comma ||| token .semicolon)) ++
      token .closeBrace
  | .entry =>
    category .key ++ (token .colon ++ category .value ||| category .list ||| category .aggregate)
  | .key => token .identifier ||| token .openBracket ++ category .name ++ token .closeBracket
  | .bracketedSettings =>
    token .openBracket ++ many (category .setting ++ optional (token .comma)) ++
      token .closeBracket
  | .optionStatement => word "option" ++ category .setting ++ token .semicolon
  | .field =>
    terminal (.word ["required", "optional", "repeated"]) ++ category .name ++
      token .identifier ++ token .equals ++ literal .integer ++
      optional (category .bracketedSettings) ++ token .semicolon
  | .range =>
    literal .integer ++ optional (word "to" ++ (literal .integer ||| word "max"))
  | .extensionRanges =>
    word "extensions" ++ category .range ++ many (token .comma ++ category .range) ++
      token .semicolon
  | .enumValue =>
    token .identifier ++ token .equals ++ literal .integer ++
      optional (category .bracketedSettings) ++ token .semicolon
  | .enumeration =>
    word "enum" ++ token .identifier ++ token .openBrace ++
      many (token .semicolon ||| category .optionStatement ||| category .enumValue) ++
      token .closeBrace
  | .rpcType => token .openParen ++ category .name ++ token .closeParen
  | .rpc =>
    word "rpc" ++ token .identifier ++ category .rpcType ++ word "returns" ++
      category .rpcType ++
      (token .semicolon |||
        token .openBrace ++ many (token .semicolon ||| category .optionStatement) ++
          token .closeBrace ++ optional (token .semicolon))
  | .service =>
    word "service" ++ token .identifier ++ token .openBrace ++
      many (token .semicolon ||| category .optionStatement ||| category .rpc) ++
      token .closeBrace
  | .extension =>
    word "extend" ++ category .name ++ token .openBrace ++
      many (token .semicolon ||| category .field) ++ token .closeBrace
  | .message =>
    word "message" ++ token .identifier ++ token .openBrace ++
      many (token .semicolon ||| category .field ||| category .message |||
        category .enumeration ||| category .extensionRanges ||| category .optionStatement |||
        category .extension) ++
      token .closeBrace
  | .statement =>
    token .semicolon ||| word "syntax" ++ token .equals ++ token .string ++ token .semicolon |||
      word "import" ++ optional (word "public") ++ literal .string ++ token .semicolon |||
      category .optionStatement ||| category .message ||| category .enumeration |||
      category .service ||| category .extension
  | .package => word "package" ++ category .name ++ token .semicolon
  | .file =>
    many (category .statement) ++ optional (category .package ++ many (category .statement))

/-- The token sequences that a phrase derives. -/
inductive Derives (readable : Token → Prop) : Phrase → List Token → Prop
  | empty : Derives readable .empty []
  | terminal {x : Terminal} {t : Token} (admitted : x.Admits readable t) :
      Derives readable (.terminal x) [t]
  | category {c : Category} {ts : List Token} (derived : Derives readable c.rule ts) :
      Derives readable (.category c) ts
  | both {p q : Phrase} {ts us : List Token} (first : Derives readable p ts)
      (second : Derives readable q us) : Derives readable (.both p q) (ts ++ us)
  | left {p q : Phrase} {ts : List Token} (derived : Derives readable p ts) :
      Derives readable (.either p q) ts
  | right {p q : Phrase} {ts : List Token} (derived : Derives readable q ts) :
      Derives readable (.either p q) ts
  | none {p : Phrase} : Derives readable (.many p) []
  | more {p : Phrase} {ts us : List Token} (first : Derives readable p ts)
      (others : Derives readable (.many p) us) : Derives readable (.many p) (ts ++ us)

namespace Derives

variable {readable readable' : Token → Prop} {p q : Phrase} {ts us : List Token}

@[simp] theorem empty_iff : Derives readable .empty ts ↔ ts = [] := by
  constructor
  · intro h
    cases h
    rfl
  · rintro rfl
    exact .empty

theorem terminal_iff {x : Terminal} :
    Derives readable (.terminal x) ts ↔ ∃ t, ts = [t] ∧ x.Admits readable t := by
  constructor
  · intro h
    cases h with
    | terminal admitted => exact ⟨_, rfl, admitted⟩
  · rintro ⟨t, rfl, h⟩
    exact .terminal h

@[simp] theorem token_iff {k : TokenKind} :
    Derives readable (.token k) ts ↔ ∃ t, ts = [t] ∧ t.kind = k :=
  terminal_iff

@[simp] theorem literal_iff {k : TokenKind} :
    Derives readable (.literal k) ts ↔ ∃ t, ts = [t] ∧ t.kind = k ∧ readable t :=
  terminal_iff

@[simp] theorem word_iff {w : String} :
    Derives readable (.word w) ts ↔ ∃ t, ts = [t] ∧ t.isWord w = true := by
  simp [Phrase.word, terminal_iff, Terminal.Admits, Token.isWord]

theorem category_iff {c : Category} :
    Derives readable (.category c) ts ↔ Derives readable c.rule ts := by
  constructor
  · intro h
    cases h
    assumption
  · exact .category

@[simp] theorem append_iff :
    Derives readable (p ++ q) ts ↔
      ∃ us vs, ts = us ++ vs ∧ Derives readable p us ∧ Derives readable q vs := by
  constructor
  · intro h
    cases h with
    | both first second => exact ⟨_, _, rfl, first, second⟩
  · rintro ⟨us, vs, rfl, first, second⟩
    exact .both first second

@[simp] theorem or_iff :
    Derives readable (p ||| q) ts ↔ Derives readable p ts ∨ Derives readable q ts := by
  constructor
  · intro h
    cases h with
    | left derived => exact .inl derived
    | right derived => exact .inr derived
  · rintro (h | h)
    · exact .left h
    · exact .right h

@[simp] theorem optional_iff :
    Derives readable p.optional ts ↔ Derives readable p ts ∨ ts = [] := by
  simp [Phrase.optional]

theorem many_iff :
    Derives readable (.many p) ts ↔
      ts = [] ∨ ∃ us vs, ts = us ++ vs ∧ Derives readable p us ∧
        Derives readable (.many p) vs := by
  constructor
  · intro h
    cases h with
    | none => exact .inl rfl
    | more first others => exact .inr ⟨_, _, rfl, first, others⟩
  · rintro (rfl | ⟨us, vs, rfl, first, others⟩)
    · exact .none
    · exact .more first others

/-- How phrases in a row are put together does not matter. -/
theorem append_assoc {r : Phrase} :
    Derives readable (p ++ q ++ r) ts ↔ Derives readable (p ++ (q ++ r)) ts := by
  constructor
  · intro h
    obtain ⟨_, ws, rfl, hpq, hr⟩ := append_iff.mp h
    obtain ⟨us, vs, rfl, hp, hq⟩ := append_iff.mp hpq
    rw [List.append_assoc]
    exact .both hp (.both hq hr)
  · intro h
    obtain ⟨us, _, rfl, hp, hqr⟩ := append_iff.mp h
    obtain ⟨vs, ws, rfl, hq, hr⟩ := append_iff.mp hqr
    rw [← List.append_assoc]
    exact .both (.both hp hq) hr

theorem append_empty_iff : Derives readable (p ++ .empty) ts ↔ Derives readable p ts := by
  simp

theorem optional_append (h : Derives readable (p ++ q ||| q) ts) :
    Derives readable (p.optional ++ q) ts := by
  rcases or_iff.mp h with h | h
  · obtain ⟨us, vs, rfl, hp, hq⟩ := append_iff.mp h
    exact .both (.left hp) hq
  · rw [← List.nil_append ts]
    exact .both (.right .empty) h

theorem of_append_many (h : Derives readable (p ++ .many p) ts) :
    Derives readable (.many p) ts := by
  obtain ⟨us, vs, rfl, first, others⟩ := append_iff.mp h
  exact .more first others

/-- Induction over a repetition. -/
theorem many_induction {motive : (ts : List Token) → Derives readable (.many p) ts → Prop}
    (none : motive [] .none)
    (more : ∀ us vs (first : Derives readable p us) (others : Derives readable (.many p) vs),
      motive vs others → motive (us ++ vs) (.more first others))
    (h : Derives readable (.many p) ts) : motive ts h := by
  suffices key : ∀ {q ts}, Derives readable q ts → q = .many p →
      ∀ h : Derives readable (.many p) ts, motive ts h from key h rfl h
  intro q ts hd
  induction hd with
  | none => exact fun _ _ => none
  | more first others _ ih =>
      rintro ⟨⟩ -
      exact more _ _ first others (ih rfl others)
  | _ => rintro ⟨⟩

/-- A weaker condition on the interpreted tokens derives at least as much. -/
theorem mono (h : Derives readable p ts) (weaker : ∀ t ∈ ts, readable t → readable' t) :
    Derives readable' p ts := by
  induction h with
  | empty => exact .empty
  | @terminal x t admitted =>
      refine .terminal ?_
      cases x with
      | literal k => exact ⟨admitted.1, weaker t (by simp) admitted.2⟩
      | kind k => exact admitted
      | word among => exact admitted
      | identifierExcept words => exact admitted
  | category _ ih => exact .category (ih weaker)
  | both _ _ ih₁ ih₂ =>
      exact .both (ih₁ fun t ht => weaker t (by simp [ht])) (ih₂ fun t ht => weaker t (by simp [ht]))
  | left _ ih => exact .left (ih weaker)
  | right _ ih => exact .right (ih weaker)
  | none => exact .none
  | more _ _ ih₁ ih₂ =>
      exact .more (ih₁ fun t ht => weaker t (by simp [ht])) (ih₂ fun t ht => weaker t (by simp [ht]))

end Derives

/-- The tokens begin with a sequence that a phrase derives, and go on with the given ones. -/
def Begins (readable : Token → Prop) (p : Phrase) (before after : List Token) : Prop :=
  ∃ ts, before = ts ++ after ∧ Derives readable p ts

namespace Begins

variable {readable : Token → Prop} {p q : Phrase} {t : Token} {ts us vs : List Token}

theorem terminal {x : Terminal} (admitted : x.Admits readable t) :
    Begins readable (.terminal x) (t :: ts) ts :=
  ⟨[t], rfl, .terminal admitted⟩

theorem token {k : TokenKind} (kind : t.kind = k) : Begins readable (.token k) (t :: ts) ts :=
  .terminal kind

theorem literal {k : TokenKind} (kind : t.kind = k) (h : readable t) :
    Begins readable (.literal k) (t :: ts) ts :=
  .terminal ⟨kind, h⟩

theorem word {w : String} (h : t.isWord w = true) : Begins readable (.word w) (t :: ts) ts :=
  ⟨[t], rfl, Derives.word_iff.mpr ⟨t, rfl, h⟩⟩

theorem category {c : Category} (h : Begins readable c.rule ts us) :
    Begins readable (.category c) ts us := by
  obtain ⟨d, rfl, derived⟩ := h
  exact ⟨d, rfl, .category derived⟩

theorem append (first : Begins readable p ts us) (second : Begins readable q us vs) :
    Begins readable (p ++ q) ts vs := by
  obtain ⟨d, rfl, hp⟩ := first
  obtain ⟨e, rfl, hq⟩ := second
  exact ⟨d ++ e, by simp, .both hp hq⟩

theorem left (h : Begins readable p ts us) : Begins readable (p ||| q) ts us := by
  obtain ⟨d, rfl, derived⟩ := h
  exact ⟨d, rfl, .left derived⟩

theorem right (h : Begins readable q ts us) : Begins readable (p ||| q) ts us := by
  obtain ⟨d, rfl, derived⟩ := h
  exact ⟨d, rfl, .right derived⟩

theorem some (h : Begins readable p ts us) : Begins readable p.optional ts us :=
  .left h

theorem skip : Begins readable p.optional ts ts :=
  ⟨[], rfl, Derives.optional_iff.mpr (.inr rfl)⟩

theorem none : Begins readable (.many p) ts ts :=
  ⟨[], rfl, .none⟩

theorem more (first : Begins readable p ts us) (others : Begins readable (.many p) us vs) :
    Begins readable (.many p) ts vs := by
  obtain ⟨d, rfl, hp⟩ := first
  obtain ⟨e, rfl, hq⟩ := others
  exact ⟨d ++ e, by simp, .more hp hq⟩

theorem derives (h : Begins readable p (ts ++ us) us) : Derives readable p ts := by
  obtain ⟨d, heq, derived⟩ := h
  rwa [List.append_cancel_right heq]

/-- What is so of all tokens is so of those that are left. -/
theorem forall_mem {P : Token → Prop} (h : Begins readable p ts us) (all : ∀ t ∈ ts, P t) :
    ∀ t ∈ us, P t := by
  obtain ⟨d, rfl, -⟩ := h
  exact fun t ht => all t (List.mem_append_right _ ht)

end Begins

end Proto2

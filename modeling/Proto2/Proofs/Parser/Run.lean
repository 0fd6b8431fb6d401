import Proto2.Parser.Basic

/-!
What a parser does to a list of tokens.

A parser runs on a stream, which also remembers what has been looked at and what was consumed
last.  Neither has a part in the outcome.  `TokenDriven` says so of a parser, and lets its runs
be described by lists of tokens alone: `Reads p ts a us` says that `p`, on the tokens `ts` of a
text without lexical errors, succeeds with `a` and leaves `us`.

The judgment has an equation for every way to put parsers together, so a run of a composed
parser is taken apart, or put together, by rewriting.
-/

namespace Proto2

namespace TokenStream

/-- What is left to read of a stream. -/
def left (s : TokenStream) : Lexed :=
  ⟨s.tokens, s.failure⟩

@[simp] theorem left_ofLexed (l : Lexed) : (ofLexed l).left = l := rfl

end TokenStream

namespace Parser

variable {α β : Type}

/-- The outcome of a run, without what the stream remembers. -/
def outcomeOf : EStateM.Result Failure TokenStream α → Except Failure (α × Lexed)
  | .ok a s => .ok (a, s.left)
  | .error e _ => .error e

theorem outcomeOf_eq_ok {x : EStateM.Result Failure TokenStream α} {a : α} {l : Lexed} :
    outcomeOf x = .ok (a, l) ↔ ∃ s, x = .ok a s ∧ s.left = l := by
  constructor
  · intro h
    cases x with
    | ok b s =>
        cases h
        exact ⟨s, rfl, rfl⟩
    | error e s => cases h
  · rintro ⟨s, rfl, rfl⟩
    rfl

theorem outcomeOf_eq_error {x : EStateM.Result Failure TokenStream α} {e : Failure} :
    outcomeOf x = .error e ↔ ∃ s, x = .error e s := by
  constructor
  · intro h
    cases x with
    | ok b s => cases h
    | error e s =>
        cases h
        exact ⟨s, rfl⟩
  · rintro ⟨s, rfl⟩
    rfl

/-- The outcome of a parser on what is left of a stream. -/
def outcome (p : Parser α) (l : Lexed) : Except Failure (α × Lexed) :=
  outcomeOf (p (.ofLexed l))

/-- The outcome of the parser depends on nothing but what is left of the stream, and a run that
succeeds takes tokens off its front and leaves the lexical error behind them where it is; without
the error it would have been the same. -/
class TokenDriven (p : Parser α) : Prop where
  outcome_eq : ∀ s, outcomeOf (p s) = p.outcome s.left
  failure_eq : ∀ s a s', p s = .ok a s' → s'.failure = s.failure
  suffix : ∀ s a s', p s = .ok a s' → s'.tokens <:+ s.tokens
  undisturbed : ∀ s a s', p s = .ok a s' →
    p { s with failure := none } = .ok a { s' with failure := none }

/-- The parser succeeds on the tokens of a text without lexical errors, and leaves the given
ones. -/
def Reads (p : Parser α) (ts : List Token) (a : α) (us : List Token) : Prop :=
  p.outcome ⟨ts, none⟩ = .ok (a, ⟨us, none⟩)

/-! ### Parsers put together -/

theorem run_bind (p : Parser α) (f : α → Parser β) (s : TokenStream) :
    (p >>= f) s =
      match p s with
      | .ok a s' => f a s'
      | .error e s' => .error e s' := by
  simp only [bind, EStateM.bind]
  cases p s <;> rfl

instance tokenDriven_pure (a : α) : TokenDriven (pure a) where
  outcome_eq _ := rfl
  failure_eq := by
    rintro s b s' h
    cases h
    rfl
  suffix := by
    rintro s b s' h
    cases h
    exact List.suffix_refl _
  undisturbed := by
    rintro s b s' h
    cases h
    rfl

instance tokenDriven_throw (e : Failure) : TokenDriven (throw e : Parser α) where
  outcome_eq _ := rfl
  failure_eq := by
    rintro s b s' h
    cases h
  suffix := by
    rintro s b s' h
    cases h
  undisturbed := by
    rintro s b s' h
    cases h

instance tokenDriven_bind (p : Parser α) (f : α → Parser β) [TokenDriven p]
    [∀ a, TokenDriven (f a)] : TokenDriven (p >>= f) where
  outcome_eq s := by
    have hs := TokenDriven.outcome_eq (p := p) s
    simp only [outcome, run_bind] at hs ⊢
    cases hp : p s <;> cases hl : p (.ofLexed s.left) <;> simp only [hp, hl, outcomeOf] at hs ⊢
    case ok.ok a s' b l' =>
      simp only [Except.ok.injEq, Prod.mk.injEq] at hs
      obtain ⟨rfl, hleft⟩ := hs
      have h₁ := TokenDriven.outcome_eq (p := f a) s'
      have h₂ := TokenDriven.outcome_eq (p := f a) l'
      rw [hleft] at h₁
      exact h₁.trans h₂.symm
    case error.error => simpa using hs
    all_goals cases hs
  failure_eq := by
    intro s b s' h
    rw [run_bind] at h
    cases hp : p s with
    | error e s₁ =>
        rw [hp] at h
        cases h
    | ok a s₁ =>
        rw [hp] at h
        exact (TokenDriven.failure_eq s₁ b s' h).trans (TokenDriven.failure_eq s a s₁ hp)
  suffix := by
    intro s b s' h
    rw [run_bind] at h
    cases hp : p s with
    | error e s₁ =>
        rw [hp] at h
        cases h
    | ok a s₁ =>
        rw [hp] at h
        exact (TokenDriven.suffix s₁ b s' h).trans (TokenDriven.suffix s a s₁ hp)
  undisturbed := by
    intro s b s' h
    rw [run_bind] at h ⊢
    cases hp : p s with
    | error e s₁ =>
        rw [hp] at h
        cases h
    | ok a s₁ =>
        rw [hp] at h
        rw [TokenDriven.undisturbed s a s₁ hp]
        exact TokenDriven.undisturbed s₁ b s' h

instance tokenDriven_ite (c : Prop) [Decidable c] (p q : Parser α) [TokenDriven p]
    [TokenDriven q] : TokenDriven (if c then p else q) := by
  split <;> infer_instance

@[simp] theorem reads_pure {a b : α} {ts us : List Token} :
    Reads (pure a) ts b us ↔ b = a ∧ us = ts := by
  constructor
  · intro h
    cases h
    exact ⟨rfl, rfl⟩
  · rintro ⟨rfl, rfl⟩
    rfl

@[simp] theorem reads_throw {e : Failure} {a : α} {ts us : List Token} :
    ¬ Reads (throw e) ts a us := by
  intro h
  cases h

/-- A run of two parsers in a row goes through what the first one leaves. -/
theorem reads_bind {p : Parser α} {f : α → Parser β} [TokenDriven p] [∀ a, TokenDriven (f a)]
    {ts us : List Token} {b : β} :
    Reads (p >>= f) ts b us ↔ ∃ a ms, Reads p ts a ms ∧ Reads (f a) ms b us := by
  simp only [Reads, outcome, run_bind]
  cases hp : p (.ofLexed ⟨ts, none⟩) with
  | error e s => simp [outcomeOf]
  | ok a s =>
      have hfail : s.failure = none := TokenDriven.failure_eq _ a s hp
      have hleft : s.left = ⟨s.tokens, none⟩ := by rw [TokenStream.left, hfail]
      have hf := TokenDriven.outcome_eq (p := f a) s
      rw [hleft] at hf
      constructor
      · intro h
        exact ⟨a, s.tokens, by rw [outcomeOf, hleft], by rw [← h, hf, outcome]⟩
      · rintro ⟨a', ms, h₁, h₂⟩
        simp only [outcomeOf, hleft, Except.ok.injEq, Prod.mk.injEq, Lexed.mk.injEq,
          and_true] at h₁
        obtain ⟨rfl, rfl⟩ := h₁
        rw [← h₂]
        exact hf

theorem reads_map {p : Parser α} {f : α → β} [TokenDriven p] {ts us : List Token} {b : β} :
    Reads (do return f (← p)) ts b us ↔ ∃ a, Reads p ts a us ∧ b = f a := by
  simp only [reads_bind, reads_pure]
  constructor
  · rintro ⟨a, _, h, rfl, rfl⟩
    exact ⟨a, h, rfl⟩
  · rintro ⟨a, h, rfl⟩
    exact ⟨a, us, h, rfl, rfl⟩

theorem outcome_bind (p : Parser α) (f : α → Parser β) [∀ a, TokenDriven (f a)] (l : Lexed) :
    (p >>= f).outcome l =
      match p.outcome l with
      | .ok (a, l') => (f a).outcome l'
      | .error e => .error e := by
  simp only [outcome, run_bind]
  cases p (.ofLexed l) with
  | error e s => rfl
  | ok a s => exact TokenDriven.outcome_eq s

theorem outcome_bind_of_reads {p : Parser α} {f : α → Parser β} [∀ a, TokenDriven (f a)]
    {ts us : List Token} {a : α} (h : Reads p ts a us) :
    (p >>= f).outcome ⟨ts, none⟩ = (f a).outcome ⟨us, none⟩ := by
  rw [outcome_bind, h]

theorem outcome_bind_of_error {p : Parser α} {f : α → Parser β} [∀ a, TokenDriven (f a)]
    {l : Lexed} {e : Failure} (h : p.outcome l = .error e) :
    (p >>= f).outcome l = .error e := by
  rw [outcome_bind, h]

/-- What a parser gives on any stream, it reads. -/
theorem TokenDriven.reads {p : Parser α} [TokenDriven p] {s s' : TokenStream} {a : α}
    (h : p s = .ok a s') : Reads p s.tokens a s'.tokens := by
  have hrun := TokenDriven.undisturbed s a s' h
  have houtcome := TokenDriven.outcome_eq (p := p) { s with failure := none }
  rw [hrun] at houtcome
  exact houtcome.symm

theorem reads_ite {c : Prop} [Decidable c] {p q : Parser α} {ts us : List Token} {a : α} :
    Reads (if c then p else q) ts a us ↔ (c ∧ Reads p ts a us) ∨ (¬ c ∧ Reads q ts a us) := by
  split <;> simp [*]

/-- A run reads one thing and leaves one rest. -/
theorem Reads.unique {p : Parser α} {ts us vs : List Token} {a b : α}
    (h₁ : Reads p ts a us) (h₂ : Reads p ts b vs) : a = b ∧ us = vs := by
  have h := h₁.symm.trans h₂
  simpa using h

/-! ### Looking at tokens and consuming them -/

theorem run_peek (n : Nat) (s : TokenStream) :
    peek n s =
      match s.tokens[n]? with
      | some t => .ok t { s with seen := max s.seen (n + 1) }
      | none =>
        match s.failure with
        | some e =>
          .error (.parse (.lexical e)) { s with seen := s.tokens.length, failure := none }
        | none =>
          match s.tokens.getLast? with
          | some t => .ok t { s with seen := s.tokens.length, failure := none }
          | none => .error .noToken { s with seen := s.tokens.length, failure := none } := by
  rw [peek, TokenStream.failureAt?, TokenStream.token?, TokenStream.lookedAt]
  by_cases h : s.tokens[n]?.isSome = true
  · obtain ⟨t, ht⟩ := Option.isSome_iff_exists.mp h
    simp [ht]
  · have hn : s.tokens[n]? = none := by simpa using h
    cases hf : s.failure <;> cases hl : s.tokens.getLast? <;> simp [hn]

instance tokenDriven_peek (n : Nat) : TokenDriven (peek n) where
  outcome_eq s := by
    simp only [outcome, run_peek, TokenStream.left, TokenStream.ofLexed]
    cases s.tokens[n]? with
    | some t => rfl
    | none => cases s.failure <;> cases s.tokens.getLast? <;> rfl
  failure_eq := by
    intro s t s' h
    rw [run_peek] at h
    cases hn : s.tokens[n]? <;> cases hf : s.failure <;> cases hl : s.tokens.getLast? <;>
      simp only [hn, hf, hl] at h <;> cases h <;> rfl
  suffix := by
    intro s t s' h
    rw [run_peek] at h
    cases hn : s.tokens[n]? <;> cases hf : s.failure <;> cases hl : s.tokens.getLast? <;>
      simp only [hn, hf, hl] at h <;> cases h <;> exact List.suffix_refl _
  undisturbed := by
    intro s t s' h
    rw [run_peek] at h ⊢
    cases hn : s.tokens[n]? <;> cases hf : s.failure <;> cases hl : s.tokens.getLast? <;>
      simp only [hn, hf, hl] at h ⊢ <;> cases h <;> rfl

instance tokenDriven_consume (t : Token) :
    TokenDriven (modify (·.consume t) : Parser PUnit) where
  outcome_eq s := by
    show Except.ok (PUnit.unit, (s.consume t).left) =
      Except.ok (PUnit.unit, (TokenStream.consume (.ofLexed s.left) t).left)
    simp only [TokenStream.consume]
    split <;> rfl
  failure_eq := by
    intro s a s' h
    cases h
    simp only [TokenStream.consume]
    split <;> rfl
  suffix := by
    intro s a s' h
    cases h
    simp only [TokenStream.consume]
    split
    · exact List.suffix_refl _
    · exact List.tail_suffix _
  undisturbed := by
    intro s a s' h
    cases h
    show EStateM.Result.ok PUnit.unit (TokenStream.consume { s with failure := none } t) = _
    simp only [TokenStream.consume]
    split <;> rfl

instance tokenDriven_budget : TokenDriven budget where
  outcome_eq _ := rfl
  failure_eq := by
    intro s a s' h
    cases h
    rfl
  suffix := by
    intro s a s' h
    cases h
    exact List.suffix_refl _
  undisturbed := by
    intro s a s' h
    cases h
    rfl

instance tokenDriven_next : TokenDriven next := by
  unfold next
  infer_instance

@[simp] theorem reads_peek {n : Nat} {ts us : List Token} {t : Token} :
    Reads (peek n) ts t us ↔ ts[n]?.or ts.getLast? = some t ∧ us = ts := by
  simp only [Reads, outcome, run_peek, TokenStream.ofLexed]
  cases ts[n]? <;> cases ts.getLast? <;>
    simp [outcomeOf, TokenStream.left, eq_comm]

theorem reads_peek_zero {ts us : List Token} {t : Token} :
    Reads (peek 0) ts t us ↔ us = ts ∧ ∃ rest, ts = t :: rest := by
  rw [reads_peek]
  cases ts <;> simp [and_comm]

@[simp] theorem reads_budget {n : Nat} {ts us : List Token} :
    Reads budget ts n us ↔ n = ts.length + 1 ∧ us = ts := by
  constructor
  · intro h
    cases h
    exact ⟨rfl, rfl⟩
  · rintro ⟨rfl, rfl⟩
    rfl

theorem reads_consume {t : Token} {u : PUnit} {ts us : List Token} :
    Reads (modify (·.consume t) : Parser PUnit) ts u us ↔
      us = if t.isEnd then ts else ts.tail := by
  show Except.ok (PUnit.unit, (TokenStream.consume (.ofLexed ⟨ts, none⟩) t).left) = _ ↔ _
  simp only [TokenStream.consume]
  split <;> simp [TokenStream.left, TokenStream.ofLexed, eq_comm]

theorem reads_next {ts us : List Token} {t : Token} :
    Reads next ts t us ↔ ∃ rest, ts = t :: rest ∧ us = if t.isEnd then ts else rest := by
  simp only [next, reads_bind, reads_pure, reads_peek_zero, reads_consume]
  constructor
  · rintro ⟨_, _, ⟨rfl, rest, rfl⟩, _, _, rfl, rfl, rfl⟩
    exact ⟨rest, rfl, rfl⟩
  · rintro ⟨rest, rfl, rfl⟩
    exact ⟨t, _, ⟨rfl, rest, rfl⟩, .unit, _, rfl, rfl, rfl⟩

theorem reads_next_cons {t u : Token} {ts us : List Token} (notEnd : t.isEnd = false) :
    Reads next (t :: ts) u us ↔ u = t ∧ us = ts := by
  rw [reads_next]
  constructor
  · rintro ⟨rest, ⟨⟩, rfl⟩
    simp [notEnd]
  · rintro ⟨rfl, rfl⟩
    exact ⟨us, rfl, by simp [notEnd]⟩

/-- What follows a token that is consumed starts behind it. -/
theorem reads_bind_next_cons {f : Token → Parser α} [∀ t, TokenDriven (f t)] {t : Token}
    {ts us : List Token} {a : α} (notEnd : t.isEnd = false) :
    Reads (next >>= f) (t :: ts) a us ↔ Reads (f t) ts a us := by
  simp only [reads_bind, reads_next_cons notEnd]
  constructor
  · rintro ⟨_, _, ⟨rfl, rfl⟩, h⟩
    exact h
  · exact fun h => ⟨t, ts, ⟨rfl, rfl⟩, h⟩

/-- What follows a look at a token starts from the same tokens. -/
theorem reads_bind_peek {n : Nat} {f : Token → Parser α} [∀ t, TokenDriven (f t)]
    {ts us : List Token} {a : α} :
    Reads (peek n >>= f) ts a us ↔
      ∃ t, ts[n]?.or ts.getLast? = some t ∧ Reads (f t) ts a us := by
  simp only [reads_bind, reads_peek]
  constructor
  · rintro ⟨t, _, ⟨ht, rfl⟩, h⟩
    exact ⟨t, ht, h⟩
  · rintro ⟨t, ht, h⟩
    exact ⟨t, ts, ⟨ht, rfl⟩, h⟩

theorem reads_bind_peek_cons {f : Token → Parser α} [∀ t, TokenDriven (f t)] {t : Token}
    {ts us : List Token} {a : α} :
    Reads (peek 0 >>= f) (t :: ts) a us ↔ Reads (f t) (t :: ts) a us := by
  simp [reads_bind_peek]

theorem reads_bind_budget {f : Nat → Parser α} [∀ n, TokenDriven (f n)] {ts us : List Token}
    {a : α} : Reads (budget >>= f) ts a us ↔ Reads (f (ts.length + 1)) ts a us := by
  simp only [reads_bind, reads_budget]
  constructor
  · rintro ⟨_, _, ⟨rfl, rfl⟩, h⟩
    exact h
  · intro h
    exact ⟨_, _, ⟨rfl, rfl⟩, h⟩

end Parser

end Proto2

import Proto2.Proofs.Parser.Run

/-!
What the elementary parsers read.

Each of them is matched with a statement about the tokens before and after it: an expected token
is the first one, an optional one may be, and the items of a body follow one another up to the
token that closes it.  The bounds on the number of rounds do not show in these statements,
because every round consumes a token.
-/

namespace Proto2

/-- The tokens start with one of the given kind. -/
def AtKind (kind : TokenKind) (ts : List Token) : Prop :=
  ∃ t us, ts = t :: us ∧ t.kind = kind

/-- The tokens start with one that is not of the given kind. -/
def NotAtKind (kind : TokenKind) (ts : List Token) : Prop :=
  ∃ t us, ts = t :: us ∧ t.kind ≠ kind

/-- The tokens start with one that is not the given word. -/
def NotAtWord (word : String) (ts : List Token) : Prop :=
  ∃ t us, ts = t :: us ∧ t.isWord word = false

@[simp] theorem notAtWord_cons {word : String} {t : Token} {ts : List Token} :
    NotAtWord word (t :: ts) ↔ t.isWord word = false := by
  simp [NotAtWord]

@[simp] theorem atKind_cons {kind : TokenKind} {t : Token} {ts : List Token} :
    AtKind kind (t :: ts) ↔ t.kind = kind := by
  simp [AtKind]

@[simp] theorem notAtKind_cons {kind : TokenKind} {t : Token} {ts : List Token} :
    NotAtKind kind (t :: ts) ↔ t.kind ≠ kind := by
  simp [NotAtKind]

@[simp] theorem not_atKind_nil {kind : TokenKind} : ¬ AtKind kind [] := by
  simp [AtKind]

@[simp] theorem not_notAtKind_nil {kind : TokenKind} : ¬ NotAtKind kind [] := by
  simp [NotAtKind]

theorem NotAtKind.not_atKind {kind : TokenKind} {ts : List Token} (h : NotAtKind kind ts) :
    ¬ AtKind kind ts := by
  obtain ⟨t, us, rfl, hk⟩ := h
  simpa using hk

/-- A token of the given kind is passed over if it comes first. -/
def SkipKind (kind : TokenKind) (before after : List Token) : Prop :=
  (∃ t, before = t :: after ∧ t.kind = kind) ∨ (before = after ∧ NotAtKind kind before)

theorem Token.kind_of_isWord {t : Token} {word : String} (h : t.isWord word = true) :
    t.kind = .identifier := by
  simp only [Token.isWord, Bool.and_eq_true, decide_eq_true_eq] at h
  exact h.1

/-- Things that follow one another in a list of tokens. -/
inductive Sequence {α : Type} (step : List Token → α → List Token → Prop) :
    List Token → List α → List Token → Prop
  | nil {ts : List Token} : Sequence step ts [] ts
  | cons {ts ms us : List Token} {a : α} {as : List α} (head : step ts a ms)
      (tail : Sequence step ms as us) : Sequence step ts (a :: as) us

namespace Sequence

variable {α : Type} {step step' : List Token → α → List Token → Prop}

theorem length_le (progress : ∀ ts a us, step ts a us → us.length < ts.length)
    {ts us : List Token} {as : List α} (h : Sequence step ts as us) :
    as.length + us.length ≤ ts.length := by
  induction h with
  | nil => simp
  | cons head tail ih =>
      have := progress _ _ _ head
      simp only [List.length_cons]
      omega

theorem mono (weaker : ∀ ts a us, step ts a us → step' ts a us) {ts us : List Token}
    {as : List α} (h : Sequence step ts as us) : Sequence step' ts as us := by
  induction h with
  | nil => exact .nil
  | cons head tail ih => exact .cons (weaker _ _ _ head) ih

theorem map {β : Type} {step'' : List Token → β → List Token → Prop} {f : α → β}
    (each : ∀ ts a us, step ts a us → step'' ts (f a) us) {ts us : List Token} {as : List α}
    (h : Sequence step ts as us) : Sequence step'' ts (as.map f) us := by
  induction h with
  | nil => exact .nil
  | cons head tail ih => exact .cons (each _ _ _ head) ih

theorem append {ts ms us : List Token} {as bs : List α} (h : Sequence step ts as ms)
    (h' : Sequence step ms bs us) : Sequence step ts (as ++ bs) us := by
  induction h with
  | nil => exact h'
  | cons head tail ih => exact .cons head (ih h')

/-- A condition on each of the things can be stated apart. -/
theorem and_iff {P : α → Prop} {ts us : List Token} {as : List α} :
    Sequence (fun ts a us => step ts a us ∧ P a) ts as us ↔
      Sequence step ts as us ∧ ∀ a ∈ as, P a := by
  constructor
  · intro h
    induction h with
    | nil => exact ⟨.nil, by simp⟩
    | cons head tail ih => exact ⟨.cons head.1 ih.1, by simpa using ⟨head.2, ih.2⟩⟩
  · rintro ⟨h, hP⟩
    induction h with
    | nil => exact .nil
    | cons head tail ih =>
        simp only [List.mem_cons, forall_eq_or_imp] at hP
        exact .cons ⟨head, hP.1⟩ (ih hP.2)

end Sequence

/-- Things with commas between them, in a list of tokens. -/
inductive Separated {α : Type} (step : List Token → α → List Token → Prop) :
    List Token → List α → List Token → Prop
  | last {ts us : List Token} {a : α} (head : step ts a us) (stop : NotAtKind .comma us) :
      Separated step ts [a] us
  | cons {ts ms us : List Token} {comma : Token} {a : α} {as : List α}
      (head : step ts a (comma :: ms)) (kind : comma.kind = .comma)
      (tail : Separated step ms as us) : Separated step ts (a :: as) us

theorem Separated.length_le {α : Type} {step : List Token → α → List Token → Prop}
    (progress : ∀ ts a us, step ts a us → us.length < ts.length)
    {ts us : List Token} {as : List α} (h : Separated step ts as us) :
    as.length + us.length ≤ ts.length := by
  induction h with
  | last head stop =>
      have := progress _ _ _ head
      simp only [List.length_cons, List.length_nil]
      omega
  | cons head kind tail ih =>
      have := progress _ _ _ head
      simp only [List.length_cons] at this ⊢
      omega

theorem Separated.mono {α : Type} {step step' : List Token → α → List Token → Prop}
    (weaker : ∀ ts a us, step ts a us → step' ts a us) {ts us : List Token} {as : List α}
    (h : Separated step ts as us) : Separated step' ts as us := by
  induction h with
  | last head stop => exact .last (weaker _ _ _ head) stop
  | cons head kind tail ih => exact .cons (weaker _ _ _ head) kind ih

theorem Separated.and_iff {α : Type} {step : List Token → α → List Token → Prop} {P : α → Prop}
    {ts us : List Token} {as : List α} :
    Separated (fun ts a us => step ts a us ∧ P a) ts as us ↔
      Separated step ts as us ∧ ∀ a ∈ as, P a := by
  constructor
  · intro h
    induction h with
    | last head stop => exact ⟨.last head.1 stop, by simpa using head.2⟩
    | cons head kind tail ih => exact ⟨.cons head.1 kind ih.1, by simpa using ⟨head.2, ih.2⟩⟩
  · rintro ⟨h, hP⟩
    induction h with
    | last head stop => exact .last ⟨head, hP _ (by simp)⟩ stop
    | cons head kind tail ih =>
        simp only [List.mem_cons, forall_eq_or_imp] at hP
        exact .cons ⟨head, hP.1⟩ kind (ih hP.2)

namespace Parser

variable {α : Type}

instance tokenDriven_fail (g : Grammar) (found : Token) (cause : GrammarCause) :
    TokenDriven (fail g found cause : Parser α) :=
  tokenDriven_throw _

@[simp] theorem not_reads_fail {g : Grammar} {found : Token} {cause : GrammarCause} {a : α}
    {ts us : List Token} : ¬ Reads (fail g found cause) ts a us :=
  reads_throw

instance tokenDriven_ofBuild (e : Except BuildError α) : TokenDriven (ofBuild e) := by
  cases e with
  | ok a => exact tokenDriven_pure a
  | error e => exact tokenDriven_throw _

@[simp] theorem reads_ofBuild {e : Except BuildError α} {a : α} {ts us : List Token} :
    Reads (ofBuild e) ts a us ↔ e = .ok a ∧ us = ts := by
  cases e with
  | ok b => simp [ofBuild, eq_comm]
  | error e => simp [ofBuild]

/-! ### Single tokens -/

instance tokenDriven_isAt (kind : TokenKind) : TokenDriven (isAt kind) := by
  unfold isAt
  infer_instance

instance tokenDriven_isAtWord (word : String) : TokenDriven (isAtWord word) := by
  unfold isAtWord
  infer_instance

instance tokenDriven_accept? (kind : TokenKind) : TokenDriven (accept? kind) := by
  unfold accept?
  infer_instance

instance tokenDriven_acceptWord? (word : String) : TokenDriven (acceptWord? word) := by
  unfold acceptWord?
  infer_instance

instance tokenDriven_accepts (kind : TokenKind) : TokenDriven (accepts kind) := by
  unfold accepts
  infer_instance

instance tokenDriven_acceptsWord (word : String) : TokenDriven (acceptsWord word) := by
  unfold acceptsWord
  infer_instance

instance tokenDriven_expect (g : Grammar) (kind : TokenKind) (what : String) :
    TokenDriven (expect g kind what) := by
  unfold expect
  infer_instance

instance tokenDriven_expectWord (g : Grammar) (word : String) :
    TokenDriven (expectWord g word) := by
  unfold expectWord
  infer_instance

instance tokenDriven_identifier (g : Grammar) (what : String) :
    TokenDriven (identifier g what) := by
  unfold identifier
  infer_instance

/-- A word is not the end of the input. -/
theorem isEnd_eq_false_of_isWord {t : Token} {word : String} (h : t.isWord word) :
    t.isEnd = false := by
  simp only [Token.isWord, Bool.and_eq_true, decide_eq_true_eq] at h
  simp [Token.isEnd, h.1]

theorem isEnd_eq_false_of_kind {t : Token} {kind : TokenKind} (h : t.kind = kind)
    (some : kind ≠ .endOfInput) : t.isEnd = false := by
  simpa [Token.isEnd, h] using some

theorem reads_next_of_kind {kind : TokenKind} (some : kind ≠ .endOfInput) {t u : Token}
    {ts us : List Token} (h : t.kind = kind) : Reads next (t :: ts) u us ↔ u = t ∧ us = ts :=
  reads_next_cons (isEnd_eq_false_of_kind h some)

theorem reads_next_of_isWord {word : String} {t u : Token} {ts us : List Token}
    (h : t.isWord word = true) : Reads next (t :: ts) u us ↔ u = t ∧ us = ts :=
  reads_next_cons (isEnd_eq_false_of_isWord h)

theorem reads_isAt {kind : TokenKind} {b : Bool} {ts us : List Token} :
    Reads (isAt kind) ts b us ↔
      us = ts ∧ ((b = true ∧ AtKind kind ts) ∨ (b = false ∧ NotAtKind kind ts)) := by
  simp only [isAt, reads_bind, reads_pure, reads_peek_zero]
  constructor
  · rintro ⟨t, _, ⟨rfl, rest, rfl⟩, rfl, rfl⟩
    by_cases h : t.kind = kind <;> simp [h]
  · rintro ⟨rfl, ⟨rfl, t, rest, rfl, h⟩ | ⟨rfl, t, rest, rfl, h⟩⟩
    all_goals exact ⟨t, _, ⟨rfl, rest, rfl⟩, by simp [h]⟩

/-- A choice by the kind of the next token. -/
theorem reads_if_isAt {kind : TokenKind} {p q : Parser α} [TokenDriven p] [TokenDriven q]
    {a : α} {ts us : List Token} :
    Reads (do if ← isAt kind then p else q) ts a us ↔
      (AtKind kind ts ∧ Reads p ts a us) ∨ (NotAtKind kind ts ∧ Reads q ts a us) := by
  simp only [reads_bind, reads_isAt]
  constructor
  · rintro ⟨b, _, ⟨rfl, ⟨rfl, h⟩ | ⟨rfl, h⟩⟩, hr⟩
    · exact .inl ⟨h, hr⟩
    · exact .inr ⟨h, by simpa using hr⟩
  · rintro (⟨h, hr⟩ | ⟨h, hr⟩)
    · exact ⟨true, ts, ⟨rfl, .inl ⟨rfl, h⟩⟩, hr⟩
    · exact ⟨false, ts, ⟨rfl, .inr ⟨rfl, h⟩⟩, by simpa using hr⟩

theorem reads_isAtWord {word : String} {b : Bool} {ts us : List Token} :
    Reads (isAtWord word) ts b us ↔ us = ts ∧ ∃ t rest, ts = t :: rest ∧ b = t.isWord word := by
  simp only [isAtWord, reads_bind, reads_pure, reads_peek_zero]
  constructor
  · rintro ⟨t, _, ⟨rfl, rest, rfl⟩, rfl, rfl⟩
    exact ⟨rfl, t, rest, rfl, rfl⟩
  · rintro ⟨rfl, t, rest, rfl, rfl⟩
    exact ⟨t, _, ⟨rfl, rest, rfl⟩, rfl, rfl⟩

theorem reads_accept? {kind : TokenKind} (some : kind ≠ .endOfInput) {o : Option Token}
    {ts us : List Token} :
    Reads (accept? kind) ts o us ↔
      (∃ t, o = .some t ∧ ts = t :: us ∧ t.kind = kind) ∨
        (o = none ∧ us = ts ∧ NotAtKind kind ts) := by
  rw [accept?, reads_if_isAt]
  simp only [reads_map, reads_pure]
  constructor
  · rintro (⟨⟨t, rest, rfl, h⟩, u, hu, rfl⟩ | ⟨h, rfl, rfl⟩)
    · obtain ⟨rfl, rfl⟩ := (reads_next_of_kind some h).mp hu
      exact .inl ⟨u, rfl, rfl, h⟩
    · exact .inr ⟨rfl, rfl, h⟩
  · rintro (⟨t, rfl, rfl, h⟩ | ⟨rfl, rfl, h⟩)
    · exact .inl ⟨⟨t, us, rfl, h⟩, t, (reads_next_of_kind some h).mpr ⟨rfl, rfl⟩, rfl⟩
    · exact .inr ⟨h, rfl, rfl⟩

theorem reads_accepts {kind : TokenKind} (some : kind ≠ .endOfInput) {b : Bool}
    {ts us : List Token} :
    Reads (accepts kind) ts b us ↔
      (b = true ∧ ∃ t, ts = t :: us ∧ t.kind = kind) ∨
        (b = false ∧ us = ts ∧ NotAtKind kind ts) := by
  simp only [accepts, reads_map, reads_accept? some]
  constructor
  · rintro ⟨o, ⟨t, rfl, rfl, h⟩ | ⟨rfl, rfl, h⟩, rfl⟩
    · exact .inl ⟨rfl, t, rfl, h⟩
    · exact .inr ⟨rfl, rfl, h⟩
  · rintro (⟨rfl, t, rfl, h⟩ | ⟨rfl, rfl, h⟩)
    · exact ⟨.some t, .inl ⟨t, rfl, rfl, h⟩, rfl⟩
    · exact ⟨none, .inr ⟨rfl, rfl, h⟩, rfl⟩

/-- A choice by a test that consumes the next token if that fits. -/
theorem reads_if_consumes {test : Parser Bool} {p q : Parser α} [TokenDriven test] [TokenDriven p]
    [TokenDriven q] {fits : Token → Prop} {other : Prop} {a : α} {ts us : List Token}
    (reads : ∀ {b ms}, Reads test ts b ms ↔
      (b = true ∧ ∃ t, ts = t :: ms ∧ fits t) ∨ (b = false ∧ ms = ts ∧ other)) :
    Reads (do if ← test then p else q) ts a us ↔
      (∃ t rest, ts = t :: rest ∧ fits t ∧ Reads p rest a us) ∨ (other ∧ Reads q ts a us) := by
  simp only [reads_bind, reads]
  constructor
  · rintro ⟨b, ms, ⟨rfl, t, rfl, h⟩ | ⟨rfl, rfl, h⟩, hr⟩
    · exact .inl ⟨t, ms, rfl, h, hr⟩
    · exact .inr ⟨h, by simpa using hr⟩
  · rintro (⟨t, rest, rfl, h, hr⟩ | ⟨h, hr⟩)
    · exact ⟨true, rest, .inl ⟨rfl, t, rfl, h⟩, hr⟩
    · exact ⟨false, ts, .inr ⟨rfl, rfl, h⟩, by simpa using hr⟩

/-- A choice by an optional token. -/
theorem reads_if_accepts {kind : TokenKind} (some : kind ≠ .endOfInput) {p q : Parser α}
    [TokenDriven p] [TokenDriven q] {a : α} {ts us : List Token} :
    Reads (do if ← accepts kind then p else q) ts a us ↔
      (∃ t rest, ts = t :: rest ∧ t.kind = kind ∧ Reads p rest a us) ∨
        (NotAtKind kind ts ∧ Reads q ts a us) :=
  reads_if_consumes (reads_accepts some)

theorem reads_acceptsWord {word : String} {b : Bool} {ts us : List Token} :
    Reads (acceptsWord word) ts b us ↔
      (b = true ∧ ∃ t, ts = t :: us ∧ t.isWord word = true) ∨
        (b = false ∧ us = ts ∧ NotAtWord word ts) := by
  simp only [acceptsWord, acceptWord?, reads_map, reads_bind (p := isAtWord word), reads_isAtWord,
    reads_ite, reads_pure]
  constructor
  · rintro ⟨o, ⟨_, _, ⟨rfl, t, rest, rfl, rfl⟩, ⟨hw, u, hnext, rfl⟩ | ⟨hw, rfl, rfl⟩⟩, rfl⟩
    · obtain ⟨rfl, rfl⟩ := (reads_next_of_isWord hw).mp hnext
      exact .inl ⟨rfl, u, rfl, hw⟩
    · exact .inr ⟨rfl, rfl, by simpa using hw⟩
  · rintro (⟨rfl, t, rfl, hw⟩ | ⟨rfl, rfl, t, rest, rfl, hw⟩)
    · exact ⟨.some t, ⟨true, _, ⟨rfl, t, us, rfl, hw.symm⟩,
        .inl ⟨rfl, t, (reads_next_of_isWord hw).mpr ⟨rfl, rfl⟩, rfl⟩⟩, rfl⟩
    · exact ⟨none, ⟨false, _, ⟨rfl, t, rest, rfl, hw.symm⟩, .inr ⟨by simp, rfl, rfl⟩⟩, rfl⟩

/-- A choice by a word. -/
theorem reads_if_acceptsWord {word : String} {p q : Parser α} [TokenDriven p] [TokenDriven q]
    {a : α} {ts us : List Token} :
    Reads (do if ← acceptsWord word then p else q) ts a us ↔
      (∃ t rest, ts = t :: rest ∧ t.isWord word = true ∧ Reads p rest a us) ∨
        (NotAtWord word ts ∧ Reads q ts a us) :=
  reads_if_consumes reads_acceptsWord

theorem reads_skip {kind : TokenKind} (some : kind ≠ .endOfInput) {ts us : List Token} :
    (∃ o, Reads (accept? kind) ts o us) ↔ SkipKind kind ts us := by
  simp only [reads_accept? some, SkipKind]
  constructor
  · rintro ⟨o, ⟨t, rfl, rfl, h⟩ | ⟨rfl, rfl, h⟩⟩
    · exact .inl ⟨t, rfl, h⟩
    · exact .inr ⟨rfl, h⟩
  · rintro (⟨t, rfl, h⟩ | ⟨rfl, h⟩)
    · exact ⟨_, .inl ⟨t, rfl, rfl, h⟩⟩
    · exact ⟨_, .inr ⟨rfl, rfl, h⟩⟩

theorem reads_expect {g : Grammar} {kind : TokenKind} {what : String}
    (some : kind ≠ .endOfInput) {t : Token} {ts us : List Token} :
    Reads (expect g kind what) ts t us ↔ ts = t :: us ∧ t.kind = kind := by
  simp only [expect, reads_bind, reads_peek_zero, reads_ite, not_reads_fail, and_false, or_false]
  constructor
  · rintro ⟨t', _, ⟨rfl, rest, rfl⟩, hk, hnext⟩
    obtain ⟨rfl, rfl⟩ := (reads_next_of_kind some hk).mp hnext
    exact ⟨rfl, hk⟩
  · rintro ⟨rfl, hk⟩
    exact ⟨t, _, ⟨rfl, us, rfl⟩, hk, (reads_next_of_kind some hk).mpr ⟨rfl, rfl⟩⟩

theorem reads_expectWord {g : Grammar} {word : String} {t : Token} {ts us : List Token} :
    Reads (expectWord g word) ts t us ↔ ts = t :: us ∧ t.isWord word = true := by
  simp only [expectWord, reads_bind, reads_peek_zero, reads_ite, not_reads_fail, and_false,
    or_false]
  constructor
  · rintro ⟨t', _, ⟨rfl, rest, rfl⟩, hw, hnext⟩
    obtain ⟨rfl, rfl⟩ := (reads_next_of_isWord hw).mp hnext
    exact ⟨rfl, hw⟩
  · rintro ⟨rfl, hw⟩
    exact ⟨t, _, ⟨rfl, us, rfl⟩, hw, (reads_next_of_isWord hw).mpr ⟨rfl, rfl⟩⟩

theorem reads_identifier {g : Grammar} {what name : String} {ts us : List Token} :
    Reads (identifier g what) ts name us ↔
      ∃ t, ts = t :: us ∧ t.kind = .identifier ∧ name = t.lexeme := by
  simp only [identifier, reads_map, reads_expect (by decide : TokenKind.identifier ≠ _), and_assoc]

/-! ### Repetitions -/

instance tokenDriven_itemsWithin (close : TokenKind) (item : Parser α) [TokenDriven item]
    (n : Nat) : TokenDriven (itemsWithin close item n) := by
  induction n with
  | zero =>
      unfold itemsWithin
      infer_instance
  | succ n ih =>
      unfold itemsWithin
      infer_instance

instance tokenDriven_itemsUntil (close : TokenKind) (item : Parser α) [TokenDriven item] :
    TokenDriven (itemsUntil close item) := by
  unfold itemsUntil
  infer_instance

instance tokenDriven_separatedWithin (item : Parser α) [TokenDriven item] (n : Nat) :
    TokenDriven (separatedWithin item n) := by
  induction n with
  | zero =>
      unfold separatedWithin
      infer_instance
  | succ n ih =>
      unfold separatedWithin
      infer_instance

instance tokenDriven_separated (item : Parser α) [TokenDriven item] :
    TokenDriven (separated item) := by
  unfold separated
  infer_instance

/-- Before the closing token, an item starts. -/
def itemStep (close : TokenKind) (item : Parser α) (ts : List Token) (a : α)
    (us : List Token) : Prop :=
  NotAtKind close ts ∧ Reads item ts a us

theorem reads_itemsWithin {close : TokenKind} (some : close ≠ .endOfInput) {item : Parser α}
    [TokenDriven item] {n : Nat} {ts us : List Token} {as : List α} :
    Reads (itemsWithin close item n) ts as us ↔
      as.length < n ∧
        ∃ c, c.kind = close ∧ Sequence (itemStep close item) ts as (c :: us) := by
  induction n generalizing ts as us with
  | zero => simp [itemsWithin]
  | succ n ih =>
      rw [itemsWithin, reads_if_accepts some]
      simp only [reads_bind, reads_pure, ih]
      constructor
      · rintro (⟨c, _, rfl, hc, rfl, rfl⟩ | ⟨hne, a, ms, ha, bs, _, ⟨hn, c, hc, hs⟩, rfl, rfl⟩)
        · exact ⟨Nat.succ_pos _, c, hc, .nil⟩
        · exact ⟨Nat.succ_lt_succ hn, c, hc, .cons ⟨hne, ha⟩ hs⟩
      · rintro ⟨hn, c, hc, hs⟩
        cases hs with
        | nil => exact .inl ⟨c, us, rfl, hc, rfl, rfl⟩
        | @cons _ ms _ a bs head tail =>
            exact .inr ⟨head.1, a, ms, head.2, bs, us,
              ⟨Nat.lt_of_succ_lt_succ hn, c, hc, tail⟩, rfl, rfl⟩

/-- Items up to a closing token: there are rounds enough when every item takes a token. -/
theorem reads_itemsUntil {close : TokenKind} (some : close ≠ .endOfInput) {item : Parser α}
    [TokenDriven item]
    (progress : ∀ ts a us, Reads item ts a us → us.length < ts.length)
    {ts us : List Token} {as : List α} :
    Reads (itemsUntil close item) ts as us ↔
      ∃ c, c.kind = close ∧ Sequence (itemStep close item) ts as (c :: us) := by
  simp only [itemsUntil, reads_bind, reads_budget, reads_itemsWithin some]
  constructor
  · rintro ⟨_, _, ⟨rfl, rfl⟩, -, h⟩
    exact h
  · rintro ⟨c, hc, hs⟩
    refine ⟨_, _, ⟨rfl, rfl⟩, ?_, c, hc, hs⟩
    have := hs.length_le fun ts a us h => progress ts a us h.2
    simp only [List.length_cons] at this
    omega

/-- Items up to a closing token behind one that is consumed first, made into one thing. -/
theorem reads_next_itemsUntil {β : Type} {close : TokenKind} (some : close ≠ .endOfInput)
    {item : Token → Parser α} [∀ t, TokenDriven (item t)] {make : List α → β} {opening : Token}
    (notEnd : opening.isEnd = false)
    (progress : ∀ ts a us, Reads (item opening) ts a us → us.length < ts.length)
    {ts us : List Token} {b : β} :
    Reads (do let opened ← next; return make (← itemsUntil close (item opened)))
        (opening :: ts) b us ↔
      ∃ as closing, b = make as ∧ closing.kind = close ∧
        Sequence (itemStep close (item opening)) ts as (closing :: us) := by
  rw [reads_bind_next_cons notEnd, reads_map]
  simp only [reads_itemsUntil some progress]
  constructor
  · rintro ⟨as, ⟨closing, hc, hs⟩, rfl⟩
    exact ⟨as, closing, rfl, hc, hs⟩
  · rintro ⟨as, closing, rfl, hc, hs⟩
    exact ⟨as, ⟨closing, hc, hs⟩, rfl⟩

theorem reads_separatedWithin {item : Parser α} [TokenDriven item] {n : Nat}
    {ts us : List Token} {as : List α} :
    Reads (separatedWithin item n) ts as us ↔ as.length ≤ n ∧ Separated (Reads item) ts as us := by
  induction n generalizing ts as us with
  | zero =>
      simp only [separatedWithin, reads_throw, false_iff, not_and]
      intro hn h
      cases h <;> simp at hn
  | succ n ih =>
      simp only [separatedWithin, reads_bind, reads_if_accepts (by decide : TokenKind.comma ≠ _),
        reads_pure, ih]
      constructor
      · rintro ⟨a, ms, ha, ⟨c, rest, rfl, hc, bs, _, ⟨hn, hs⟩, rfl, rfl⟩ | ⟨hne, rfl, rfl⟩⟩
        · exact ⟨Nat.succ_le_succ hn, .cons ha hc hs⟩
        · exact ⟨by simp, .last ha hne⟩
      · rintro ⟨hn, hs⟩
        cases hs with
        | last head stop => exact ⟨_, _, head, .inr ⟨stop, rfl, rfl⟩⟩
        | @cons _ ms _ c a bs head kind tail =>
            exact ⟨a, _, head, .inl ⟨c, ms, rfl, kind, bs, us,
              ⟨Nat.le_of_succ_le_succ hn, tail⟩, rfl, rfl⟩⟩

theorem reads_separated {item : Parser α} [TokenDriven item]
    (progress : ∀ ts a us, Reads item ts a us → us.length < ts.length)
    {ts us : List Token} {as : List α} :
    Reads (separated item) ts as us ↔ Separated (Reads item) ts as us := by
  simp only [separated, reads_bind, reads_budget, reads_separatedWithin]
  constructor
  · rintro ⟨_, _, ⟨rfl, rfl⟩, -, h⟩
    exact h
  · intro h
    have := h.length_le progress
    exact ⟨_, _, ⟨rfl, rfl⟩, by omega, h⟩

end Parser

end Proto2

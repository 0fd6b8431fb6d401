import Proto2.Proofs.Parser.Along
import Proto2.Proofs.Token.Brackets

/-!
What parsers pass over.

A parser that succeeds passes over the tokens up to where it leaves off.  They nest: the brackets
that wait before them are those that wait behind them, unless the parser opens or closes one.  The
end of the input is not among them, and mostly there is at least one, so that in a repetition every
round has fewer tokens before it and the rounds do not run out.  A parser that fails for want of a
closing bracket has passed over tokens that nest up to the end of the input, and names the bracket
that waits there.

None of this depends on where the tokens come from.
-/

namespace Proto2

/-- Behind some of the tokens the input ends, and the bracket is the last one that waits there. -/
def Brackets.EndsWithin (stack ts : List Token) (o e : Token) : Prop :=
  ∃ passed rest outer, ts = passed ++ e :: rest ∧ e.isEnd = true ∧
    unclosed stack passed = some (o :: outer)

/-- If the failure is that a bracket is not closed, it names the innermost one: on the given tokens,
where the given brackets wait, it is the last one that waits where the input ends. -/
def Failure.NamesInnermost (stack ts : List Token) : Failure → Prop
  | .parse (.grammar _ found (.unclosedBody opened)) =>
    ∃ o, Brackets.EndsWithin stack ts o found ∧ o.kind = .openBrace ∧ opened = o.span
  | .parse (.grammar _ found (.unbalanced bracket opened)) =>
    ∃ o, Brackets.EndsWithin stack ts o found ∧ bracket = o.lexeme ∧ opened = o.span
  | _ => True

theorem Failure.NamesInnermost.behind {stack stack' passed ts : List Token} {e : Failure}
    (nest : Brackets.unclosed stack passed = some stack') (h : e.NamesInnermost stack' ts) :
    e.NamesInnermost stack (passed ++ ts) := by
  have hbehind {o found : Token} (h : Brackets.EndsWithin stack' ts o found) :
      Brackets.EndsWithin stack (passed ++ ts) o found := by
    obtain ⟨passed', rest, outer, rfl, hend, hwaits⟩ := h
    refine ⟨passed ++ passed', rest, outer, by simp, hend, ?_⟩
    rw [Brackets.unclosed_append_of_eq nest, hwaits]
  unfold NamesInnermost at h ⊢
  split at h
  · obtain ⟨o, hwithin, hrest⟩ := h
    exact ⟨o, hbehind hwithin, hrest⟩
  · obtain ⟨o, hwithin, hrest⟩ := h
    exact ⟨o, hbehind hwithin, hrest⟩
  · trivial

namespace Parser

variable {α β : Type}

/-- Where the given brackets wait, the parser passes over tokens before the end of the input, or it
fails; its rounds do not run out, and it names the innermost bracket if that is not closed.  What
is passed over and which brackets wait behind it is described. -/
def Proceeds (stack : List Token) (p : Parser α) (l : Lexed)
    (Q : α → List Token → List Token → Prop) : Prop :=
  match p.outcome l with
  | .ok (a, l') => ∃ passed stack', l.tokens = passed ++ l'.tokens ∧
      (∀ t ∈ passed, t.isEnd = false) ∧ Brackets.unclosed stack passed = some stack' ∧
      Q a passed stack'
  | .error e => e ≠ .outOfBudget ∧ e.NamesInnermost stack l.tokens

/-- Where the first brackets wait, the parser passes over so many tokens at least, and behind them
the second ones wait. -/
def Passes (least : Nat) (stack after : List Token) (p : Parser α) (l : Lexed) : Prop :=
  Proceeds stack p l fun _ passed stack' => stack' = after ∧ least ≤ passed.length

/-- The parser looks at tokens and passes over none. -/
def Peeks (stack : List Token) (p : Parser α) (l : Lexed) (R : α → Prop) : Prop :=
  Proceeds stack p l fun a passed stack' => passed = [] ∧ stack' = stack ∧ R a

section

variable {stack after last : List Token} {l : Lexed} {p : Parser α} {f : α → Parser β}
  {Q : α → List Token → List Token → Prop} {R : α → Prop} {least n : Nat}

/-! ### Parsers put together -/

theorem map_prodMap_id (r : Except Failure (α × Lexed)) : r.map (Prod.map id id) = r := by
  cases r <;> rfl

namespace Proceeds

theorem mono {Q' : α → List Token → List Token → Prop} (h : Proceeds stack p l Q)
    (weaker : ∀ a passed stack', Q a passed stack' → Q' a passed stack') :
    Proceeds stack p l Q' := by
  unfold Proceeds at h ⊢
  split at h
  · obtain ⟨passed, stack', htokens, hends, hnest, hQ⟩ := h
    exact ⟨passed, stack', htokens, hends, hnest, weaker _ _ _ hQ⟩
  · exact h

theorem pure {a : α} (h : Q a [] stack) : Proceeds stack (pure a) l Q :=
  ⟨[], stack, rfl, List.forall_mem_nil _, rfl, h⟩

/-- What comes to some tokens, passing over those before them, and then does what another parser
does there, passes over what both do. -/
theorem behind {q : Parser β} {l' : Lexed} {passed stack' : List Token} {add : β → α}
    (tokens : l.tokens = passed ++ l'.tokens) (inText : ∀ t ∈ passed, t.isEnd = false)
    (nest : Brackets.unclosed stack passed = some stack')
    (outcome : p.outcome l = (q.outcome l').map (Prod.map add id))
    (h : Proceeds stack' q l' fun b passed' => Q (add b) (passed ++ passed')) :
    Proceeds stack p l Q := by
  unfold Proceeds at h ⊢
  rw [outcome]
  split at h
  · rename_i b l'' hq
    obtain ⟨passed', stack'', htokens, hends, hnest, hQ⟩ := h
    rw [hq]
    refine ⟨passed ++ passed', stack'', by rw [tokens, htokens, List.append_assoc]; rfl,
      List.forall_mem_append.mpr ⟨inText, hends⟩, ?_, hQ⟩
    rw [Brackets.unclosed_append_of_eq nest, hnest]
  · rename_i e hq
    rw [hq, tokens]
    exact ⟨h.1, h.2.behind nest⟩

/-- One parser after another passes over what both do. -/
theorem bind [∀ a, TokenDriven (f a)] {Q' : β → List Token → List Token → Prop}
    (h : Proceeds stack p l Q)
    (h' : ∀ a l' passed stack', l.tokens = passed ++ l'.tokens → Q a passed stack' →
      Proceeds stack' (f a) l' fun b passed' => Q' b (passed ++ passed')) :
    Proceeds stack (p >>= f) l Q' := by
  unfold Proceeds at h
  split at h
  · rename_i a l' hp
    obtain ⟨passed, stack', htokens, hends, hnest, hQ⟩ := h
    refine behind htokens hends hnest ?_ (h' a l' passed stack' htokens hQ)
    rw [outcome_bind, hp]
    exact (map_prodMap_id _).symm
  · rename_i e hp
    unfold Proceeds
    rw [outcome_bind, hp]
    exact h

end Proceeds

namespace Passes

theorem mono {m : Nat} (h : Passes n stack after p l) (le : m ≤ n) :
    Passes m stack after p l :=
  Proceeds.mono h fun _ _ _ h => ⟨h.1, Nat.le_trans le h.2⟩

theorem pure {a : α} : Passes 0 stack stack (pure a) l :=
  Proceeds.pure ⟨rfl, Nat.zero_le _⟩

theorem bind [∀ a, TokenDriven (f a)] (h : Passes n stack after p l)
    (h' : ∀ a l', l'.tokens.length + n ≤ l.tokens.length →
      Passes (least - n) after last (f a) l') : Passes least stack last (p >>= f) l := by
  refine Proceeds.bind h fun a l' passed stack' htokens hQ => ?_
  obtain ⟨rfl, hn⟩ := hQ
  refine Proceeds.mono (h' a l' ?_) fun b passed' stack'' hQ' => ⟨hQ'.1, ?_⟩
  · rw [htokens, List.length_append]
    omega
  · rw [List.length_append]
    have := hQ'.2
    omega

/-- A look at the tokens tells how to go on. -/
theorem peek_bind [∀ a, TokenDriven (f a)] (h : Peeks stack p l R)
    (h' : ∀ a l', l'.tokens = l.tokens → R a → Passes least stack last (f a) l') :
    Passes least stack last (p >>= f) l := by
  refine Proceeds.bind h ?_
  rintro a l' _ _ htokens ⟨rfl, rfl, hR⟩
  exact h' a l' htokens.symm hR

/-- A token that opens a bracket is passed over. -/
theorem enter {kind : TokenKind} {f : Token → Parser β} {p : Parser Token}
    [∀ a, TokenDriven (f a)]
    (h : Proceeds stack p l fun o passed stack' =>
      passed = [o] ∧ o.kind = kind ∧ stack' = o :: stack)
    (h' : ∀ o l', o.kind = kind → l'.tokens.length + 1 ≤ l.tokens.length →
      Passes (least - 1) (o :: stack) last (f o) l') : Passes least stack last (p >>= f) l := by
  refine Proceeds.bind h ?_
  rintro o l' _ _ htokens ⟨rfl, hkind, rfl⟩
  refine Proceeds.mono (h' o l' hkind ?_) fun b passed' stack'' hQ' => ⟨hQ'.1, ?_⟩
  · rw [htokens, List.length_append, List.length_singleton, Nat.add_comm]
  · rw [List.length_append, List.length_singleton]
    have := hQ'.2
    omega

theorem ite {c : Prop} [Decidable c] {q : Parser α} (h : c → Passes least stack after p l)
    (h' : ¬ c → Passes least stack after q l) :
    Passes least stack after (if c then p else q) l := by
  split
  case isTrue hc => exact h hc
  case isFalse hc => exact h' hc

theorem fail {g : Grammar} {found : Token} {cause : GrammarCause}
    (named : (Failure.parse (.grammar g found cause)).NamesInnermost stack l.tokens) :
    Passes least stack after (fail g found cause : Parser α) l :=
  ⟨by simp, named⟩

theorem ofBuild {built : Except BuildError α} : Passes 0 stack stack (ofBuild built) l := by
  cases built with
  | ok a => exact .pure
  | error e => exact ⟨by simp, trivial⟩

end Passes

namespace Peeks

theorem pure {a : α} (h : R a) : Peeks stack (pure a) l R :=
  Proceeds.pure ⟨rfl, rfl, h⟩

theorem bind [∀ a, TokenDriven (f a)] {R' : β → Prop} (h : Peeks stack p l R)
    (h' : ∀ a l', l'.tokens = l.tokens → R a → Peeks stack (f a) l' R') :
    Peeks stack (p >>= f) l R' := by
  refine Proceeds.bind h ?_
  rintro a l' _ _ htokens ⟨rfl, rfl, hR⟩
  exact h' a l' htokens.symm hR

theorem ite {c : Prop} [Decidable c] {q : Parser α} (h : c → Peeks stack p l R)
    (h' : ¬ c → Peeks stack q l R) : Peeks stack (if c then p else q) l R := by
  split
  case isTrue hc => exact h hc
  case isFalse hc => exact h' hc

end Peeks

/-! ### Looking ahead -/

/-- Behind the tokens the last one of them is seen. -/
theorem peeks_peek (n : Nat) :
    Peeks stack (peek n) l fun t =>
      l.tokens[n]? = some t ∨ l.tokens.length ≤ n ∧ l.tokens.getLast? = some t := by
  unfold Peeks Proceeds
  rw [outcome_peek]
  cases htoken : l.tokens[n]? with
  | some t => exact ⟨[], stack, rfl, List.forall_mem_nil _, rfl, rfl, rfl, .inl rfl⟩
  | none =>
      cases l.failure with
      | some e => exact ⟨by simp, trivial⟩
      | none =>
          cases hlast : l.tokens.getLast? with
          | none => exact ⟨by simp, trivial⟩
          | some t =>
              have hle := List.getElem?_eq_none_iff.mp htoken
              exact ⟨[], stack, rfl, List.forall_mem_nil _, rfl, rfl, rfl, .inr ⟨hle, rfl⟩⟩

theorem peeks_peek_zero :
    Peeks stack (peek 0) l fun t => ∃ rest, l.tokens = t :: rest := by
  refine (peeks_peek 0).mono fun t passed _ h => ⟨h.1, h.2.1, ?_⟩
  rcases h.2.2 with h | ⟨hle, hlast⟩
  · rw [← List.head?_eq_getElem?] at h
    exact List.head?_eq_some_iff.mp h
  · rw [List.length_eq_zero_iff.mp (Nat.le_zero.mp hle)] at hlast
    cases hlast

theorem peeks_budget : Peeks stack budget l fun n => n = l.tokens.length + 1 :=
  ⟨[], stack, rfl, List.forall_mem_nil _, rfl, rfl, rfl, rfl⟩

theorem peeks_isAt {kind : TokenKind} :
    Peeks stack (isAt kind) l fun b =>
      ∃ t rest, l.tokens = t :: rest ∧ b = decide (t.kind = kind) := by
  unfold isAt
  refine .bind peeks_peek_zero fun t _ _ h => ?_
  obtain ⟨rest, hcons⟩ := h
  exact .pure ⟨t, rest, hcons, rfl⟩

theorem peeks_isAtWord {word : String} :
    Peeks stack (isAtWord word) l fun b =>
      ∃ t rest, l.tokens = t :: rest ∧ b = t.isWord word := by
  unfold isAtWord
  refine .bind peeks_peek_zero fun t _ _ h => ?_
  obtain ⟨rest, hcons⟩ := h
  exact .pure ⟨t, rest, hcons, rfl⟩

/-! ### Single tokens -/

/-- A token of the kind may be passed over where the given brackets wait; those that wait behind it
are given by the token. -/
def Steps (kind : TokenKind) (stack : List Token) (after : Token → List Token) : Prop :=
  kind ≠ .endOfInput ∧ ∀ t, t.kind = kind → Brackets.step stack t = some (after t)

theorem steps_other {kind : TokenKind} (other : kind.isBracket = false)
    (inText : kind ≠ .endOfInput) : Steps kind stack fun _ => stack :=
  ⟨inText, fun _ h => Brackets.step_other (h ▸ other)⟩

theorem steps_open {kind : TokenKind} (opens : kind.closer?.isSome = true) :
    Steps kind stack fun t => t :: stack := by
  refine ⟨?_, fun _ h => Brackets.step_open (h ▸ opens)⟩
  rintro rfl
  cases opens

theorem steps_close {o : Token} {kind : TokenKind} (closes : o.kind.closer? = some kind) :
    Steps kind (o :: stack) fun _ => stack := by
  refine ⟨?_, fun _ h => Brackets.step_close (h ▸ closes)⟩
  rintro rfl
  cases hkind : o.kind <;> rw [hkind] at closes <;> cases closes

theorem proceeds_next {t : Token} {rest : List Token} {kind : TokenKind}
    {after : Token → List Token} (steps : Steps kind stack after) (cons : l.tokens = t :: rest)
    (eq : t.kind = kind) :
    Proceeds stack next l fun u passed stack' =>
      passed = [u] ∧ u.kind = kind ∧ stack' = after u := by
  have hend := isEnd_eq_false_of_kind eq steps.1
  unfold Proceeds
  rw [outcome_next cons hend]
  exact ⟨[t], after t, cons, by simpa using hend,
    Brackets.unclosed_singleton.trans (steps.2 t eq), rfl, eq, rfl⟩

theorem passes_next {t : Token} {rest : List Token} {kind : TokenKind}
    (steps : Steps kind stack fun _ => after) (cons : l.tokens = t :: rest) (eq : t.kind = kind) :
    Passes 1 stack after next l := by
  refine (proceeds_next steps cons eq).mono fun u passed stack' h => ?_
  obtain ⟨rfl, -, rfl⟩ := h
  exact ⟨rfl, Nat.le_refl 1⟩

theorem Passes.next_bind {t : Token} {rest : List Token} {kind : TokenKind} {f : Token → Parser β}
    [∀ a, TokenDriven (f a)] (steps : Steps kind stack fun _ => after)
    (cons : l.tokens = t :: rest) (eq : t.kind = kind)
    (h' : ∀ l', l'.tokens = rest → Passes (least - 1) after last (f t) l') :
    Passes least stack last (next >>= f) l := by
  refine Proceeds.bind (proceeds_next steps cons eq) ?_
  rintro u l' _ _ htokens ⟨rfl, -, rfl⟩
  obtain ⟨rfl, hrest⟩ := List.cons.inj (cons.symm.trans htokens)
  refine Proceeds.mono (h' l' hrest.symm) fun b passed' stack'' hQ' => ⟨hQ'.1, ?_⟩
  rw [List.length_append, List.length_singleton]
  have := hQ'.2
  omega

theorem passes_next_word {t : Token} {rest : List Token} {word : String}
    (cons : l.tokens = t :: rest) (isWord : t.isWord word = true) :
    Passes 1 stack stack next l :=
  passes_next (steps_other (by decide) (by decide)) cons (Token.kind_of_isWord isWord)

/-- An optional token is passed over, or nothing is. -/
theorem proceeds_accept? {kind : TokenKind} {after : Token → List Token}
    (steps : Steps kind stack after) :
    Proceeds stack (accept? kind) l fun o passed stack' =>
      (∃ t, o = some t ∧ passed = [t] ∧ t.kind = kind ∧ stack' = after t) ∨
        (o = none ∧ passed = [] ∧ stack' = stack) := by
  unfold accept?
  refine .bind peeks_isAt ?_
  rintro b l' _ _ htokens ⟨rfl, rfl, t, rest, hcons, rfl⟩
  split
  case isTrue hkind =>
    refine .bind (proceeds_next steps (htokens.symm.trans hcons) (of_decide_eq_true hkind)) ?_
    rintro u l'' _ _ - ⟨rfl, hu, rfl⟩
    exact .pure (.inl ⟨u, rfl, by simp, hu, rfl⟩)
  case isFalse => exact .pure (.inr ⟨rfl, by simp, rfl⟩)

theorem proceeds_accepts {kind : TokenKind} {after : Token → List Token}
    (steps : Steps kind stack after) :
    Proceeds stack (accepts kind) l fun b passed stack' =>
      (b = true ∧ ∃ t, passed = [t] ∧ t.kind = kind ∧ stack' = after t) ∨
        (b = false ∧ passed = [] ∧ stack' = stack) := by
  unfold accepts
  refine .bind (proceeds_accept? steps) ?_
  rintro o l' passed stack' - (⟨t, rfl, rfl, hkind, rfl⟩ | ⟨rfl, rfl, rfl⟩)
  · exact .pure (.inl ⟨rfl, t, by simp, hkind, rfl⟩)
  · exact .pure (.inr ⟨rfl, by simp, rfl⟩)

theorem passes_accept? {kind : TokenKind} (steps : Steps kind stack fun _ => stack) :
    Passes 0 stack stack (accept? kind) l := by
  refine (proceeds_accept? steps).mono fun o passed stack' h => ⟨?_, Nat.zero_le _⟩
  rcases h with ⟨t, -, -, -, rfl⟩ | ⟨-, -, rfl⟩ <;> rfl

theorem passes_accepts {kind : TokenKind} (steps : Steps kind stack fun _ => stack) :
    Passes 0 stack stack (accepts kind) l := by
  unfold accepts
  exact .bind (passes_accept? steps) fun _ _ _ => .pure

theorem passes_acceptsWord {word : String} : Passes 0 stack stack (acceptsWord word) l := by
  unfold acceptsWord
  refine .bind (n := 0) ?_ fun _ _ _ => .pure
  unfold acceptWord?
  refine .peek_bind peeks_isAtWord ?_
  rintro b l' htokens ⟨t, rest, hcons, rfl⟩
  refine .ite (fun hword => ?_) fun _ => .pure
  exact .bind (passes_next_word (htokens.trans hcons) hword) fun _ _ _ => .pure

theorem proceeds_expect {g : Grammar} {kind : TokenKind} {what : String}
    {after : Token → List Token} (steps : Steps kind stack after) :
    Proceeds stack (expect g kind what) l fun t passed stack' =>
      passed = [t] ∧ t.kind = kind ∧ stack' = after t := by
  unfold expect
  refine .bind peeks_peek_zero ?_
  rintro t l' _ _ htokens ⟨rfl, rfl, rest, hcons⟩
  split
  case isTrue hkind => exact proceeds_next steps (htokens.symm.trans hcons) hkind
  case isFalse => exact ⟨by simp, trivial⟩

theorem passes_expect {g : Grammar} {kind : TokenKind} {what : String}
    (steps : Steps kind stack fun _ => after) : Passes 1 stack after (expect g kind what) l := by
  refine (proceeds_expect steps).mono fun t passed stack' h => ?_
  obtain ⟨rfl, -, rfl⟩ := h
  exact ⟨rfl, Nat.le_refl 1⟩

theorem passes_expectWord {g : Grammar} {word : String} :
    Passes 1 stack stack (expectWord g word) l := by
  unfold expectWord
  refine .peek_bind peeks_peek_zero ?_
  rintro t l' htokens ⟨rest, hcons⟩
  exact .ite (fun hword => passes_next_word (htokens.trans hcons) hword) fun _ => .fail trivial

theorem passes_identifier {g : Grammar} {what : String} :
    Passes 1 stack stack (identifier g what) l := by
  unfold identifier
  exact .bind (passes_expect (steps_other (by decide) (by decide))) fun _ _ _ => .pure

/-! ### Loops -/

/-- From some tokens one comes to others that are left of them by passing over so many at least, and
not over the end of the input. -/
def Onward (least : Nat) (ts us : List Token) : Prop :=
  ∃ passed, ts = passed ++ us ∧ (∀ t ∈ passed, t.isEnd = false) ∧ least ≤ passed.length

namespace Onward

variable {m : Nat} {ts us vs : List Token}

theorem trans (h : Onward m ts us) (h' : Onward n us vs) : Onward (m + n) ts vs := by
  obtain ⟨passed, rfl, hends, hm⟩ := h
  obtain ⟨passed', rfl, hends', hn⟩ := h'
  refine ⟨passed ++ passed', by rw [List.append_assoc],
    List.forall_mem_append.mpr ⟨hends, hends'⟩, ?_⟩
  rw [List.length_append]
  exact Nat.add_le_add hm hn

theorem mono (h : Onward n ts us) (le : m ≤ n) : Onward m ts us := by
  obtain ⟨passed, htokens, hends, hn⟩ := h
  exact ⟨passed, htokens, hends, Nat.le_trans le hn⟩

theorem of_append {passed : List Token} (tokens : ts = passed ++ us)
    (inText : ∀ t ∈ passed, t.isEnd = false) : Onward 0 ts us :=
  ⟨passed, tokens, inText, Nat.zero_le _⟩

theorem length_le (h : Onward n ts us) : us.length + n ≤ ts.length := by
  obtain ⟨passed, rfl, -, hn⟩ := h
  rw [List.length_append]
  omega

theorem cons {t : Token} (inText : t.isEnd = false) : Onward 1 (t :: ts) ts :=
  ⟨[t], rfl, by simpa using inText, Nat.le_refl 1⟩

theorem drop {t : Token} {i : Nat} (seen : ts[i]? = some t) (inText : t.isEnd = false) :
    Onward 1 (ts.drop i) (ts.drop (i + 1)) := by
  obtain ⟨hlt, rfl⟩ := List.getElem?_eq_some_iff.mp seen
  rw [List.drop_eq_getElem_cons hlt]
  exact cons inText

end Onward

/-- A parser that goes round and round.  It is given a bound on its rounds and what it carries from
one round to the next, and has some tokens ahead of it. -/
structure Loop (σ α : Type) where
  run : Nat → σ → Parser α
  ahead : σ → Lexed → List Token

/-- How a round of the loop ends: the loop is over, whatever rounds there are left, or another round
follows, with fewer of the tokens ahead that there were at the start of this one. -/
inductive Loop.Round {σ : Type} (L : Loop σ α) (base after start stack : List Token) (l : Lexed)
    (p : Nat → Parser α) : Prop
  | stops (same : ∀ n, (p n).outcome l = (p 0).outcome l) (passes : Passes 0 stack after (p 0) l)
  | again {s : σ} {l' : Lexed} {passed : List Token} (add : α → α)
      (tokens : l.tokens = passed ++ l'.tokens) (inText : ∀ t ∈ passed, t.isEnd = false)
      (nest : Brackets.unclosed stack passed = some base)
      (further : Onward 1 start (L.ahead s l'))
      (goesOn : ∀ n, (p n).outcome l = ((L.run n s).outcome l').map (Prod.map add id))

namespace Loop

variable {σ : Type} {L : Loop σ α} {base start : List Token} {s : σ}

namespace Round

theorem const (h : Passes 0 stack after p l) : L.Round base after start stack l fun _ => p :=
  .stops (fun _ => rfl) h

/-- Another round follows, and the loop adds to the result of those to come. -/
theorem next (add : α → α) (further : Onward 1 start (L.ahead s l)) :
    L.Round base after start base l fun n => L.run n s >>= fun a => Pure.pure (add a) := by
  refine .again add (List.nil_append _).symm (List.forall_mem_nil _) rfl further fun n => ?_
  rw [outcome_bind]
  cases (L.run n s).outcome l <;> rfl

theorem next_of_eq (further : Onward 1 start (L.ahead s l)) :
    L.Round base after start base l fun n => L.run n s := by
  refine .again id (List.nil_append _).symm (List.forall_mem_nil _) rfl further fun n => ?_
  cases (L.run n s).outcome l <;> rfl

section

variable {q : Parser β} {g : β → Nat → Parser α} [∀ b n, TokenDriven (g b n)]

theorem proceeds_bind {Q : β → List Token → List Token → Prop} (h : Proceeds stack q l Q)
    (h' : ∀ b l' passed stack', l.tokens = passed ++ l'.tokens → (∀ t ∈ passed, t.isEnd = false) →
      Q b passed stack' → L.Round base after start stack' l' (g b)) :
    L.Round base after start stack l fun n => q >>= fun b => g b n := by
  unfold Proceeds at h
  split at h
  case h_1 b l' hq =>
    obtain ⟨passed, stack', htokens, hends, hnest, hQ⟩ := h
    have houtcome (n : Nat) : (q >>= fun b => g b n).outcome l = (g b n).outcome l' := by
      rw [outcome_bind, hq]
    cases h' b l' passed stack' htokens hends hQ with
    | stops same passes =>
        refine .stops (fun n => by rw [houtcome, houtcome, same]) ?_
        refine Proceeds.behind htokens hends hnest ((houtcome 0).trans (map_prodMap_id _).symm) ?_
        exact Proceeds.mono passes fun _ _ _ h => ⟨h.1, Nat.zero_le _⟩
    | @again s l'' passed' add tokens inText nest further goesOn =>
        refine .again add (by rw [htokens, tokens, List.append_assoc])
          (List.forall_mem_append.mpr ⟨hends, inText⟩) ?_ further
          (fun n => by rw [houtcome, goesOn])
        rw [Brackets.unclosed_append_of_eq hnest, nest]
  case h_2 e hq =>
    have houtcome (n : Nat) : (q >>= fun b => g b n).outcome l = .error e := by
      rw [outcome_bind, hq]
    refine .stops (fun n => by rw [houtcome, houtcome]) ?_
    unfold Passes Proceeds
    rw [houtcome]
    exact h

theorem bind {mid : List Token} (h : Passes n stack mid q l)
    (h' : ∀ b l', Onward n l.tokens l'.tokens → L.Round base after start mid l' (g b)) :
    L.Round base after start stack l fun n => q >>= fun b => g b n := by
  refine proceeds_bind h fun b l' passed stack' htokens hends hQ => ?_
  obtain ⟨rfl, hn⟩ := hQ
  exact h' b l' ⟨passed, htokens, hends, hn⟩

theorem peek_bind {R : β → Prop} (h : Peeks stack q l R)
    (h' : ∀ b l', l'.tokens = l.tokens → R b → L.Round base after start stack l' (g b)) :
    L.Round base after start stack l fun n => q >>= fun b => g b n := by
  refine proceeds_bind h ?_
  rintro b l' _ _ htokens - ⟨rfl, rfl, hR⟩
  exact h' b l' htokens.symm hR

theorem next_bind {t : Token} {rest mid : List Token} {kind : TokenKind}
    {g : Token → Nat → Parser α} [∀ b n, TokenDriven (g b n)]
    (steps : Steps kind stack fun _ => mid) (cons : l.tokens = t :: rest) (eq : t.kind = kind)
    (h' : ∀ l', l'.tokens = rest → L.Round base after start mid l' (g t)) :
    L.Round base after start stack l fun n => Parser.next >>= fun b => g b n := by
  refine proceeds_bind (proceeds_next steps cons eq) ?_
  rintro u l' _ _ htokens - ⟨rfl, -, rfl⟩
  obtain ⟨rfl, hrest⟩ := List.cons.inj (cons.symm.trans htokens)
  exact h' l' hrest.symm

end

theorem ite {c : Prop} [Decidable c] {q q' : Nat → Parser α}
    (h : c → L.Round base after start stack l q) (h' : ¬ c → L.Round base after start stack l q') :
    L.Round base after start stack l fun n => if c then q n else q' n := by
  split
  case isTrue hc => exact h hc
  case isFalse hc => exact h' hc

end Round

/-- The rounds do not run out if there are more of them than tokens ahead, because every round but
the last leaves fewer. -/
theorem passes (each : ∀ s l', l'.tokens.length ≤ l.tokens.length →
      L.Round base after (L.ahead s l') base l' fun n => L.run (n + 1) s)
    (rounds : (L.ahead s l).length < n) : Passes 0 base after (L.run n s) l := by
  induction n generalizing s l with
  | zero => omega
  | succ n ih =>
      cases each s l (Nat.le_refl _) with
      | stops same passes =>
          unfold Passes Proceeds
          rw [same]
          exact passes
      | @again s' l' passed add tokens inText nest further goesOn =>
          have hle := (Onward.of_append tokens inText).length_le
          have hfurther := further.length_le
          have hrest := ih (s := s') (fun s'' l'' h => each s'' l'' (h.trans hle)) (by omega)
          refine Proceeds.behind tokens inText nest (goesOn n) ?_
          exact Proceeds.mono hrest fun _ _ _ h => ⟨h.1, Nat.zero_le _⟩

/-- Beyond what is enough, the bound on the rounds makes no difference. -/
theorem outcome_eq {m : Nat} (each : ∀ s l', l'.tokens.length ≤ l.tokens.length →
      L.Round base after (L.ahead s l') base l' fun n => L.run (n + 1) s)
    (rounds : (L.ahead s l).length < n) (le : n ≤ m) :
    (L.run m s).outcome l = (L.run n s).outcome l := by
  induction n generalizing s l m with
  | zero => omega
  | succ n ih =>
      obtain ⟨m, rfl⟩ : ∃ k, m = k + 1 := ⟨m - 1, by omega⟩
      cases each s l (Nat.le_refl _) with
      | stops same passes => rw [same n, same m]
      | @again s' l' passed add tokens inText nest further goesOn =>
          have hle := (Onward.of_append tokens inText).length_le
          have hfurther := further.length_le
          rw [goesOn n, goesOn m,
            ih (fun s'' l'' h => each s'' l'' (h.trans hle)) (by omega) (by omega)]

end Loop

/-! ### Items -/

section Items

variable {item : Parser α} [TokenDriven item]

/-- The loop that reads items up to a closing bracket. -/
def itemsLoop (close : TokenKind) (item : Parser α) : Loop Unit (List α) where
  run n _ := itemsWithin close item n
  ahead _ l := l.tokens

/-- Behind an opening bracket, items are passed over and the bracket that closes it is. -/
theorem round_itemsLoop {o : Token} {close : TokenKind} (closes : o.kind.closer? = some close)
    (each : ∀ l', l'.tokens = l.tokens → Passes 1 (o :: stack) (o :: stack) item l') :
    (itemsLoop close item).Round (o :: stack) stack l.tokens (o :: stack) l fun n =>
      itemsWithin close item (n + 1) := by
  simp only [itemsWithin]
  refine .proceeds_bind (proceeds_accepts (steps_close closes)) ?_
  rintro b l₁ passed _ htokens - (⟨rfl, t, rfl, -, rfl⟩ | ⟨rfl, rfl, rfl⟩)
  · exact .const .pure
  · refine .bind (each l₁ htokens.symm) fun a l₂ h₂ => ?_
    rw [htokens]
    exact .next (s := ()) (a :: ·) h₂

theorem passes_itemsUntil {o : Token} {close : TokenKind} (closes : o.kind.closer? = some close)
    (each : ∀ l', l'.tokens.length ≤ l.tokens.length →
      Passes 1 (o :: stack) (o :: stack) item l') :
    Passes 0 (o :: stack) stack (itemsUntil close item) l := by
  unfold itemsUntil
  refine .peek_bind peeks_budget fun n l₁ h₁ hn => ?_
  refine Loop.passes (L := itemsLoop close item) (s := ()) (fun _ l₂ h₂ => ?_) ?_
  · exact round_itemsLoop closes fun l₃ h₃ => each l₃ (by rw [h₃, ← h₁]; exact h₂)
  · show l₁.tokens.length < n
    rw [h₁]
    omega

/-- The loop that reads items with commas between them. -/
def separatedLoop (item : Parser α) : Loop Unit (List α) where
  run n _ := separatedWithin item n
  ahead _ l := l.tokens

theorem round_separatedLoop (each : Passes 1 stack stack item l) :
    (separatedLoop item).Round stack stack l.tokens stack l fun n =>
      separatedWithin item (n + 1) := by
  simp only [separatedWithin]
  refine .bind each fun a l₁ h₁ => ?_
  refine .bind (passes_accepts (steps_other (by decide) (by decide))) fun b l₂ h₂ => ?_
  refine .ite (fun _ => ?_) fun _ => .const .pure
  exact .next (s := ()) (a :: ·) (h₁.trans h₂)

theorem passes_separated
    (each : ∀ l', l'.tokens.length ≤ l.tokens.length → Passes 1 stack stack item l') :
    Passes 0 stack stack (separated item) l := by
  unfold separated
  refine .peek_bind peeks_budget fun n l₁ h₁ hn => ?_
  refine Loop.passes (L := separatedLoop item) (s := ()) (fun _ l₂ h₂ => ?_) ?_
  · exact round_separatedLoop (each l₂ (by rw [← h₁]; exact h₂))
  · show l₁.tokens.length < n
    rw [h₁]
    omega

end Items

/-! ### Names -/

/-- The loop that reads the parts of a name behind the first one. -/
def namePartsLoop : Loop Unit (List String) where
  run n _ := nameParts n
  ahead _ l := l.tokens

/-- A dot is passed over together with the identifier behind it. -/
theorem round_namePartsLoop :
    namePartsLoop.Round stack stack l.tokens stack l fun n => nameParts (n + 1) := by
  simp only [nameParts]
  refine .peek_bind peeks_isAt ?_
  rintro b l₁ h₁ ⟨dot, rest, hcons, rfl⟩
  refine .ite (fun hdot => ?_) fun _ => .const .pure
  have hdot' : dot.kind = .dot := of_decide_eq_true hdot
  refine .peek_bind (peeks_peek 1) fun part l₂ h₂ hpart => ?_
  refine .ite (fun hpart' => ?_) fun _ => .const .pure
  rw [h₁, hcons] at h₂ hpart
  -- If the dot were the last token, it would be seen in place of the identifier.
  obtain ⟨rest, rfl⟩ : ∃ rest', rest = part :: rest' := by
    cases rest with
    | nil =>
        obtain rfl : dot = part := by simpa using hpart
        exact absurd (hdot'.symm.trans hpart') (by decide)
    | cons u rest =>
        obtain rfl : u = part := by simpa using hpart
        exact ⟨rest, rfl⟩
  refine .next_bind (steps_other (by decide) (by decide)) h₂ hdot' fun l₃ h₃ => ?_
  refine .next_bind (steps_other (by decide) (by decide)) h₃ hpart' fun l₄ h₄ => ?_
  have hfirst : Onward 1 (dot :: part :: rest) (part :: rest) :=
    .cons (isEnd_eq_false_of_kind hdot' (by decide))
  have hsecond : Onward 1 (part :: rest) rest :=
    .cons (isEnd_eq_false_of_kind hpart' (by decide))
  rw [hcons]
  refine .next (s := ()) (part.lexeme :: ·) ?_
  show Onward 1 (dot :: part :: rest) l₄.tokens
  rw [h₄]
  exact (hfirst.trans hsecond).mono (by decide)

theorem passes_nameParts {n : Nat} (rounds : l.tokens.length < n) :
    Passes 0 stack stack (nameParts n) l :=
  Loop.passes (L := namePartsLoop) (s := ()) (fun _ _ _ => round_namePartsLoop) rounds

theorem passes_qualifiedName {g : Grammar} {what : String} :
    Passes 1 stack stack (qualifiedName g what) l := by
  unfold qualifiedName
  refine .bind (passes_accepts (steps_other (by decide) (by decide))) fun _ l₁ h₁ => ?_
  refine .bind passes_identifier fun _ l₂ h₂ => ?_
  refine .peek_bind peeks_budget fun n l₃ h₃ hn => ?_
  exact .bind (passes_nameParts (by rw [h₃]; omega)) fun _ _ _ => .pure

/-! ### Literals -/

theorem passes_decodeString (t : Token) : Passes 0 stack stack (decodeString t) l := by
  unfold decodeString
  split
  · exact .pure
  · exact ⟨by simp, trivial⟩

theorem passes_decodeInteger (t : Token) : Passes 0 stack stack (decodeInteger t) l := by
  unfold decodeInteger
  split
  · exact .pure
  · exact ⟨by simp, trivial⟩

section Literals

variable {t : Token} {rest : List Token}

theorem passes_stringLiteral (cons : l.tokens = t :: rest) (kind : t.kind = .string) :
    Passes 1 stack stack stringLiteral l := by
  unfold stringLiteral
  exact .next_bind (steps_other (by decide) (by decide)) cons kind fun _ _ => passes_decodeString t

theorem passes_integerLiteral (cons : l.tokens = t :: rest) (kind : t.kind = .integer) :
    Passes 1 stack stack integerLiteral l := by
  unfold integerLiteral
  exact .next_bind (steps_other (by decide) (by decide)) cons kind fun _ _ => passes_decodeInteger t

theorem passes_floatLiteral (cons : l.tokens = t :: rest) (kind : t.kind = .float) :
    Passes 1 stack stack floatLiteral l := by
  unfold floatLiteral
  exact .next_bind (steps_other (by decide) (by decide)) cons kind fun _ _ => .pure

/-- The loop that reads adjacent strings behind the first one. -/
def stringsLoop : Loop Unit (List String) where
  run n _ := stringLiterals n
  ahead _ l := l.tokens

theorem round_stringsLoop :
    stringsLoop.Round stack stack l.tokens stack l fun n => stringLiterals (n + 1) := by
  simp only [stringLiterals]
  refine .peek_bind peeks_isAt ?_
  rintro b l₁ h₁ ⟨t, rest, hcons, rfl⟩
  refine .ite (fun hkind => ?_) fun _ => .const .pure
  rw [← h₁] at hcons ⊢
  refine .bind (passes_stringLiteral hcons (of_decide_eq_true hkind)) fun text l₂ h₂ => ?_
  exact .next (s := ()) (text :: ·) h₂

theorem passes_stringLiterals {n : Nat} (rounds : l.tokens.length < n) :
    Passes 0 stack stack (stringLiterals n) l :=
  Loop.passes (L := stringsLoop) (s := ()) (fun _ _ _ => round_stringsLoop) rounds

theorem passes_adjacentStrings (cons : l.tokens = t :: rest) (kind : t.kind = .string) :
    Passes 1 stack stack adjacentStrings l := by
  unfold adjacentStrings
  refine .bind (passes_stringLiteral cons kind) fun _ l₁ _ => ?_
  refine .peek_bind peeks_budget fun n l₂ h₂ hn => ?_
  exact .bind (passes_stringLiterals (by rw [h₂]; omega)) fun _ _ _ => .pure

end Literals

end

end Parser

end Proto2

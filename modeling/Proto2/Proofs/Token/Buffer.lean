import Proto2.Proofs.Parser.Run

/-!
The stream of tokens as a buffer that is filled on demand.

Nothing has to be read before someone looks at it.  A `TokenBuffer` holds the tokens that have
been looked at and are not consumed yet; the supply behind it reads one more token each time it
is asked for one, until that is the end of the input or cannot be read.

The stream that has been given all tokens of the text at once is a view of such a buffer: what
the buffer does when it is looked at or a token is consumed is what the stream does, and the
tokens the stream counts as seen are those in the buffer.
-/

namespace Proto2

/-- What a lexer has still to read. -/
inductive Supply where
  /-- Nothing, because the end of the input or a lexical error has been met. -/
  | exhausted
  /-- The text from a place on, the token before it ending on the given line. -/
  | behind (lastLine : Nat) (c : Cursor)

/-- What a lexer gives when it is asked for a token. -/
inductive Pulled where
  | nothing
  | error (e : LexicalError)
  | token (t : Token) (rest : Supply)

namespace Supply

/-- Reads one token. -/
def pull (file : String) : Supply → Pulled
  | exhausted => .nothing
  | behind lastLine c =>
    match Gap.read file c with
    | .error e => .error e
    | .ok (pieces, c') =>
      let comments := Gap.attached lastLine pieces
      match c'.rest with
      | [] => .token ⟨.endOfInput, "", c'.span file 0, comments⟩ exhausted
      | ch :: cs =>
        match Lexeme.scan ch cs with
        | .error e => .error ⟨c'.span file e.length, e.cause⟩
        | .ok s =>
          let after := c'.advance s.length
          .token ⟨s.kind, String.ofList s.lexeme, c'.span file s.length, comments⟩
            (behind after.position.line after)

/-- Everything that is still to be read. -/
def lexed (file : String) : Supply → Lexed
  | exhausted => ⟨[], none⟩
  | behind lastLine c => .readFrom file lastLine c

/-- What is still to be read starts with the token that is read next. -/
theorem lexed_eq (file : String) (s : Supply) :
    s.lexed file =
      match s.pull file with
      | .nothing => ⟨[], none⟩
      | .error e => ⟨[], some e⟩
      | .token t rest => (rest.lexed file).push t := by
  cases s with
  | exhausted => rfl
  | behind lastLine c =>
      rw [lexed, Lexed.readFrom, pull]
      split
      · rename_i gap
        rw [gap]
      · rename_i gap
        rw [gap]
        dsimp only
        split
        · rename_i rest
          rw [rest]
          rfl
        · rename_i rest
          rw [rest]
          dsimp only
          split <;> rename_i scanned <;> rw [scanned]
          rfl

end Supply

/-- Tokens read ahead of the one who consumes them. -/
structure TokenBuffer where
  /-- The tokens that have been looked at and are not consumed. -/
  tokens : List Token
  supply : Supply
  /-- The token consumed last. -/
  last : Option Token

namespace TokenBuffer

variable (file : String)

/-- The buffer before anything of a text is read. -/
def ofText (source : List Char) : TokenBuffer :=
  ⟨[], .behind 0 ⟨source, .start⟩, none⟩

/-- Reads so many tokens more, or as many as there are. -/
def fill : Nat → EStateM Failure TokenBuffer Unit
  | 0 => pure ()
  | n + 1 => fun b =>
    match b.supply.pull file with
    | .nothing => .ok () b
    | .error e => .error (.parse (.lexical e)) { b with supply := .exhausted }
    | .token t rest => fill n { b with tokens := b.tokens ++ [t], supply := rest }

/-- The token so many places ahead; behind the last one that can be read, that one. -/
def peek (n : Nat) : EStateM Failure TokenBuffer Token := fun b =>
  match fill file (n + 1 - b.tokens.length) b with
  | .error e b' => .error e b'
  | .ok _ b' =>
    match b'.tokens[n]?.or b'.tokens.getLast? with
    | some t => .ok t b'
    | none => .error .noToken b'

/-- Consumes a token.  The end of the input stays in the buffer. -/
def next : EStateM Failure TokenBuffer Token := do
  let t ← peek file 0
  modify fun b => { b with tokens := if t.isEnd then b.tokens else b.tokens.tail, last := some t }
  return t

/-- The stream of everything that is in the buffer or still to be read. -/
def stream (b : TokenBuffer) : TokenStream :=
  ⟨b.tokens ++ (b.supply.lexed file).tokens, b.tokens.length, (b.supply.lexed file).failure, b.last⟩

theorem stream_ofText (source : List Char) : (ofText source).stream file = .ofText file source :=
  rfl

/-- A run with the stream in place of the buffer. -/
def onStream {α : Type} :
    EStateM.Result Failure TokenBuffer α → EStateM.Result Failure TokenStream α
  | .ok a b => .ok a (b.stream file)
  | .error e b => .error e (b.stream file)

variable {file}

theorem fill_of_le {n : Nat} {b : TokenBuffer} (h : n ≤ (b.supply.lexed file).tokens.length) :
    ∃ rest, fill file n b = .ok () ⟨b.tokens ++ (b.supply.lexed file).tokens.take n, rest, b.last⟩ ∧
      rest.lexed file = ⟨(b.supply.lexed file).tokens.drop n, (b.supply.lexed file).failure⟩ := by
  induction n generalizing b with
  | zero => exact ⟨b.supply, by simp [fill]; rfl, rfl⟩
  | succ n ih =>
      rw [fill]
      rw [Supply.lexed_eq] at h ⊢
      cases hpull : b.supply.pull file <;> simp only [hpull] at h ⊢
      case token t rest =>
        obtain ⟨rest', hfill, hrest⟩ :=
          ih (b := { b with tokens := b.tokens ++ [t], supply := rest }) (Nat.le_of_succ_le_succ h)
        exact ⟨rest', by simpa using hfill, hrest⟩
      all_goals exact absurd h (Nat.not_succ_le_zero n)

theorem fill_of_lt {n : Nat} {b : TokenBuffer} (h : (b.supply.lexed file).tokens.length < n) :
    ∃ rest, rest.lexed file = ⟨[], none⟩ ∧
      fill file n b =
        let b' := ⟨b.tokens ++ (b.supply.lexed file).tokens, rest, b.last⟩
        match (b.supply.lexed file).failure with
        | none => .ok () b'
        | some e => .error (.parse (.lexical e)) b' := by
  induction n generalizing b with
  | zero => exact absurd h (Nat.not_lt_zero _)
  | succ n ih =>
      rw [fill]
      rw [Supply.lexed_eq] at h ⊢
      cases hpull : b.supply.pull file <;> simp only [hpull] at h ⊢
      case nothing => exact ⟨b.supply, by rw [Supply.lexed_eq, hpull], by simp⟩
      case error e => exact ⟨.exhausted, rfl, by simp⟩
      case token t rest =>
        obtain ⟨rest', hrest, hfill⟩ :=
          ih (b := { b with tokens := b.tokens ++ [t], supply := rest }) (Nat.lt_of_succ_lt_succ h)
        exact ⟨rest', hrest, by simpa using hfill⟩

/-- A look ahead reads what is missing in the buffer, and gives what the stream gives. -/
theorem onStream_peek (n : Nat) (b : TokenBuffer) :
    onStream file (peek file n b) = Parser.peek n (b.stream file) := by
  rw [Parser.run_peek, peek]
  by_cases h : n + 1 - b.tokens.length ≤ (b.supply.lexed file).tokens.length
  · obtain ⟨rest, hfill, hrest⟩ := fill_of_le h
    rw [hfill]
    -- The buffer has the token now, and holds the same tokens as the stream up to it.
    have hlength : n < (b.stream file).tokens.length := by
      simp only [stream, List.length_append]
      omega
    have held : (b.tokens ++ (b.supply.lexed file).tokens.take (n + 1 - b.tokens.length))[n]? =
        (b.stream file).tokens[n]? := by
      rw [stream]
      simp only [List.getElem?_append, List.getElem?_take]
      split
      · rfl
      · rw [if_pos (by omega)]
    simp only [held, List.getElem?_eq_getElem hlength]
    simp only [Option.some_or, onStream, stream, hrest, List.append_assoc, List.take_append_drop,
      List.length_append, List.length_take, EStateM.Result.ok.injEq, TokenStream.mk.injEq,
      true_and, and_true]
    omega
  · obtain ⟨rest, hrest, hfill⟩ := fill_of_lt (Nat.lt_of_not_le h)
    have hn : (b.stream file).tokens[n]? = none := by
      simp only [stream, List.getElem?_eq_none_iff, List.length_append]
      omega
    rw [hfill, hn]
    cases hfailure : (b.supply.lexed file).failure with
    | some e => simp [onStream, stream, hrest, hfailure]
    | none =>
        have held : (b.tokens ++ (b.supply.lexed file).tokens)[n]? = none := hn
        have hstream : (b.stream file).failure = none := hfailure
        simp only [held, Option.none_or, hstream]
        rw [show (b.stream file).tokens = b.tokens ++ (b.supply.lexed file).tokens from rfl]
        cases (b.tokens ++ (b.supply.lexed file).tokens).getLast? <;>
          simp [onStream, stream, hrest]

theorem ne_nil_of_peek {n : Nat} {b b' : TokenBuffer} {t : Token}
    (h : peek file n b = .ok t b') : b'.tokens ≠ [] := by
  rw [peek] at h
  cases hfill : fill file (n + 1 - b.tokens.length) b <;> rw [hfill] at h
  case ok u b₁ =>
    dsimp only at h
    cases hheld : b₁.tokens[n]?.or b₁.tokens.getLast? <;> rw [hheld] at h <;> cases h
    rintro hnil
    simp [hnil] at hheld
  case error => cases h

/-- Consuming a token from the buffer consumes it from the stream. -/
theorem onStream_next (b : TokenBuffer) :
    onStream file (next file b) = Parser.next (b.stream file) := by
  have hnext : next file b =
      match peek file 0 b with
      | .ok t b' =>
        .ok t { b' with tokens := if t.isEnd then b'.tokens else b'.tokens.tail, last := some t }
      | .error e b' => .error e b' := by
    simp only [next, bind, EStateM.bind]
    cases peek file 0 b <;> rfl
  rw [hnext, Parser.next, Parser.run_bind, ← onStream_peek]
  cases hpeek : peek file 0 b with
  | error e b' => rfl
  | ok t b' =>
      obtain ⟨u, us, htokens⟩ := List.exists_cons_of_ne_nil (ne_nil_of_peek hpeek)
      show EStateM.Result.ok _ _ = EStateM.Result.ok _ _
      congr 1
      simp only [stream, TokenStream.consume]
      split <;> simp [htokens]

end TokenBuffer

end Proto2

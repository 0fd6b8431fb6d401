import Proto2.Proofs.Parser.Basic
import Proto2.Proofs.Token.Lexed

/-!
The stream of tokens as a place in a fixed list.

A reader could have all tokens of a text in its hands from the start and keep nothing but its
place among them.  `Walk` is such a reader: what it answers is said in terms of the list and the
place.  The stream, which looks at tokens only as far as it is asked to and drops those that are
consumed, answers the same, whatever it is asked and in whichever order; only behind a lexical
error, which the list keeps and the stream does not, are the two apart.

`Agrees` compares one run of a parser with one run on the list.  It has a rule for every way to
put the runs together, so what the parsers of the stream do follows from what they are made of.
-/

namespace Proto2

/-- The token at a place of the list.  Behind the end of the input stands the end again, behind
the tokens before a lexical error that error. -/
def Lexed.token (l : Lexed) (i : Nat) : Except Failure Token :=
  match l.failure with
  | none => l.tokens[min i (l.tokens.length - 1)]?.elim (.error .noToken) .ok
  | some e => l.tokens[i]?.elim (.error (.parse (.lexical e))) .ok

/-- Where a reader stands: how many tokens it has consumed, and which one last. -/
structure Place where
  consumed : Nat
  last : Option Token
deriving DecidableEq, Repr

namespace Place

/-- The place before the first token. -/
def start : Place := ⟨0, none⟩

/-- The place after the token there, which is given, is consumed.  The end of the input is never
used up. -/
def after (q : Place) (t : Token) : Place :=
  ⟨if t.isEnd then q.consumed else q.consumed + 1, some t⟩

/-- The place behind identifiers that each have a dot before them. -/
def skip (q : Place) (parts : List Token) : Place :=
  ⟨q.consumed + 2 * parts.length, parts.getLast?.or q.last⟩

end Place

/-- The identifiers that a name goes on with: as many as there are, each behind a dot. -/
def nameTail : List Token → List Token
  | dot :: part :: ts =>
    if dot.kind = .dot ∧ part.kind = .identifier then part :: nameTail ts else []
  | _ => []

/-- A reader of a fixed list of tokens. -/
abbrev Walk := EStateM Failure Place

namespace Walk

variable (l : Lexed)

/-- The token so many places ahead. -/
def look (n : Nat) : Walk Token := fun q =>
  match l.token (q.consumed + n) with
  | .ok t => .ok t q
  | .error e => .error e q

/-- Consumes a token. -/
def take : Walk Token := do
  let t ← look l 0
  modify (·.after t)
  return t

/-- Whether the token that comes next is as asked for. -/
def isNext (fits : Token → Bool) : Walk Bool := do
  return fits (← look l 0)

/-- Consumes the token that comes next if it is as asked for. -/
def takeIf (fits : Token → Bool) : Walk (Option Token) := do
  if ← isNext l fits then
    return some (← take l)
  else
    return none

/-- Consumes the token that comes next, which must be as asked for. -/
def require (g : Grammar) (what : String) (fits : Token → Bool) : Walk Token := do
  let t ← look l 0
  if fits t then
    take l
  else
    throw (.parse (.grammar g t (.expected what)))

/-- Consumes a token of a kind. -/
def expect (g : Grammar) (kind : TokenKind) (what : String) : Walk Token :=
  require l g (Parser.expectation kind what) (·.kind = kind)

/-- Makes sure that a name ends here, which shows in the token that comes next, and if that is a
dot, in the one behind it. -/
def nameEnd : Walk Unit := do
  if ← isNext l (·.kind = .dot) then
    let _ ← look l 1

/-- Consumes what a name goes on with. -/
def nameRest : Walk (List String) := do
  let parts := nameTail (l.tokens.drop (← get).consumed)
  modify (·.skip parts)
  nameEnd l
  return parts.map (·.lexeme)

/-- Consumes a name; the result is the name as written. -/
def qualifiedName (g : Grammar) (what : String) : Walk String := do
  let dot ← takeIf l (·.kind = .dot)
  let first ← expect l g .identifier what
  let parts ← nameRest l
  let names := first.lexeme :: parts
  return dotted (if dot.isSome then "" :: names else names)

end Walk

/-! ### One run on the stream and one on the list -/

/-- The stream holds what is left of the list behind the place. -/
structure TokenStream.IsBehind (s : TokenStream) (l : Lexed) (q : Place) : Prop where
  tokens : s.tokens = l.tokens.drop q.consumed
  last : s.last = q.last

/-- The stream is behind the place, and can go on as the list does. -/
structure TokenStream.IsAt (s : TokenStream) (l : Lexed) (q : Place) : Prop
    extends s.IsBehind l q where
  failure : s.failure = l.failure
  inside : l.failure = none → q.consumed < l.tokens.length

/-- The failure is a lexical error. -/
def Failure.IsLexical : Failure → Prop
  | .parse (.lexical _) => True
  | _ => False

namespace Walk

variable {l : Lexed} {α β : Type}

/-- The runs have the same result and end at the same place.  The stream can go on from there
unless the lexical error behind the tokens has surfaced. -/
def Agrees (l : Lexed) :
    EStateM.Result Failure TokenStream α → EStateM.Result Failure Place α → Prop
  | .ok a s, .ok b q => a = b ∧ s.IsAt l q
  | .error e s, .error f q =>
    e = f ∧ s.IsBehind l q ∧ (¬ f.IsLexical ∧ s.IsAt l q ∨ f.IsLexical ∧ l.failure ≠ none)
  | _, _ => False

theorem run_bind (w : Walk α) (f : α → Walk β) (q : Place) :
    (w >>= f) q =
      match w q with
      | .ok a q' => f a q'
      | .error e q' => .error e q' := by
  simp only [bind, EStateM.bind]
  cases w q <;> rfl

theorem Agrees.bind {p : Parser α} {w : Walk α} {f : α → Parser β} {h : α → Walk β}
    {s : TokenStream} {q : Place} (first : Agrees l (p s) (w q))
    (next : ∀ a s' q', s'.IsAt l q' → w q = .ok a q' → Agrees l (f a s') (h a q')) :
    Agrees l ((p >>= f) s) ((w >>= h) q) := by
  rw [Parser.run_bind, run_bind]
  cases hp : p s <;> cases hw : w q <;> rw [hp, hw] at first
  case ok.ok a s' b q' =>
    obtain ⟨rfl, isAt⟩ := first
    exact next a s' q' isAt hw
  case error.error => exact first
  all_goals exact first.elim

theorem agrees_pure {s : TokenStream} {q : Place} (isAt : s.IsAt l q) (a : α) :
    Agrees l ((pure a : Parser α) s) ((pure a : Walk α) q) :=
  ⟨rfl, isAt⟩

theorem agrees_throw {s : TokenStream} {q : Place} (isAt : s.IsAt l q) {e : Failure}
    (h : ¬ e.IsLexical) : Agrees l ((throw e : Parser α) s) ((throw e : Walk α) q) :=
  ⟨rfl, isAt.toIsBehind, .inl ⟨h, isAt⟩⟩

theorem agrees_peek {s : TokenStream} {q : Place} (isAt : s.IsAt l q) (n : Nat) :
    Agrees l (Parser.peek n s) (look l n q) := by
  have htoken : s.tokens[n]? = l.tokens[q.consumed + n]? := by
    rw [isAt.tokens, List.getElem?_drop]
  rw [Parser.run_peek, look, Lexed.token, isAt.failure]
  cases hfailure : l.failure with
  | some e =>
      cases hn : l.tokens[q.consumed + n]? with
      | some t =>
          rw [htoken, hn]
          exact ⟨rfl, ⟨isAt.tokens, isAt.last⟩, hfailure.symm, isAt.inside⟩
      | none =>
          rw [htoken, hn]
          exact ⟨rfl, ⟨isAt.tokens, isAt.last⟩, .inr ⟨trivial, by simp [hfailure]⟩⟩
  | none =>
      have inside := isAt.inside hfailure
      by_cases hn : q.consumed + n < l.tokens.length
      · have hmin : min (q.consumed + n) (l.tokens.length - 1) = q.consumed + n := by omega
        rw [htoken, hmin, List.getElem?_eq_getElem hn]
        exact ⟨rfl, ⟨isAt.tokens, isAt.last⟩, hfailure.symm, isAt.inside⟩
      · -- Behind the end both give the last token of the list.
        have hmin : min (q.consumed + n) (l.tokens.length - 1) = l.tokens.length - 1 := by omega
        have hlast : s.tokens.getLast? = l.tokens[l.tokens.length - 1]? := by
          rw [isAt.tokens, List.getLast?_drop, if_neg (by omega), List.getLast?_eq_getElem?]
        rw [htoken, hmin, hlast, List.getElem?_eq_none (by omega),
          List.getElem?_eq_getElem (by omega)]
        exact ⟨rfl, ⟨isAt.tokens, isAt.last⟩, hfailure.symm, isAt.inside⟩

/-- A list of tokens whose last one is the end of the input, unless a lexical error follows. -/
def Ends (l : Lexed) : Prop :=
  l.failure = none → ∃ e, l.tokens.getLast? = some e ∧ e.isEnd = true

theorem ends_ofText (file : String) (source : List Char) : Ends (Lexed.ofText file source) := by
  intro hnone
  obtain ⟨ts, e, htokens, isEnd⟩ := Lexed.exists_tokensOf hnone
  exact ⟨e, by simp [htokens], isEnd⟩

/-- A token that is not the end of the input is not the last one. -/
theorem Ends.succ_lt {l : Lexed} (ends : Ends l) (hnone : l.failure = none) {i : Nat} {t : Token}
    (token : l.tokens[i]? = some t) (notEnd : t.isEnd = false) : i + 1 < l.tokens.length := by
  obtain ⟨e, hlast, isEnd⟩ := ends hnone
  obtain ⟨hlt, -⟩ := List.getElem?_eq_some_iff.mp token
  have hne : i ≠ l.tokens.length - 1 := by
    rintro rfl
    rw [← List.getLast?_eq_getElem?, hlast] at token
    cases token
    rw [notEnd] at isEnd
    cases isEnd
  omega

theorem token_eq_ok {l : Lexed} {i : Nat} {t : Token}
    (inside : l.failure = none → i < l.tokens.length) (h : l.token i = .ok t) :
    l.tokens[i]? = some t := by
  rw [Lexed.token] at h
  cases hfailure : l.failure with
  | some e =>
      rw [hfailure] at h
      cases hi : l.tokens[i]? <;> simp [hi] at h
      rw [h]
  | none =>
      have := inside hfailure
      have hmin : min i (l.tokens.length - 1) = i := by omega
      rw [hfailure, hmin] at h
      cases hi : l.tokens[i]? <;> simp [hi] at h
      rw [h]

theorem look_eq_ok {n : Nat} {q q' : Place} {t : Token} (h : look l n q = .ok t q') :
    q' = q ∧ l.token (q.consumed + n) = .ok t := by
  rw [look] at h
  cases htoken : l.token (q.consumed + n) <;> rw [htoken] at h <;> cases h
  exact ⟨rfl, rfl⟩

theorem isNext_eq_ok {fits : Token → Bool} {q q' : Place} {b : Bool}
    (h : isNext l fits q = .ok b q') :
    q' = q ∧ ∃ t, l.token q.consumed = .ok t ∧ b = fits t := by
  rw [isNext, run_bind] at h
  cases hlook : look l 0 q <;> rw [hlook] at h <;> cases h
  obtain ⟨rfl, htoken⟩ := look_eq_ok hlook
  exact ⟨rfl, _, htoken, rfl⟩

theorem take_eq_ok {q q' : Place} {t : Token} (h : take l q = .ok t q') :
    q' = q.after t ∧ l.token q.consumed = .ok t := by
  rw [take, run_bind] at h
  cases hlook : look l 0 q <;> rw [hlook] at h <;> cases h
  obtain ⟨rfl, htoken⟩ := look_eq_ok hlook
  exact ⟨rfl, htoken⟩

theorem isAt_consume (ends : Ends l) {s : TokenStream} {q : Place} {t : Token}
    (isAt : s.IsAt l q) (token : l.tokens[q.consumed]? = some t) :
    (s.consume t).IsAt l (q.after t) := by
  rw [TokenStream.consume, Place.after]
  cases ht : t.isEnd with
  | true => exact ⟨⟨isAt.tokens, rfl⟩, isAt.failure, isAt.inside⟩
  | false =>
      exact ⟨⟨by simp [isAt.tokens], rfl⟩, isAt.failure, fun hnone => ends.succ_lt hnone token ht⟩

theorem agrees_next (ends : Ends l) {s : TokenStream} {q : Place} (isAt : s.IsAt l q) :
    Agrees l (Parser.next s) (take l q) := by
  refine (agrees_peek isAt 0).bind fun t s' q' isAt' hlook => ?_
  obtain ⟨rfl, htoken⟩ := look_eq_ok hlook
  exact ⟨rfl, isAt_consume ends isAt' (token_eq_ok isAt.inside htoken)⟩

theorem agrees_ite {c c' : Prop} [Decidable c] [Decidable c'] {p p' : Parser α} {w w' : Walk α}
    {s : TokenStream} {q : Place} (same : c ↔ c') (yes : c → Agrees l (p s) (w q))
    (no : ¬ c → Agrees l (p' s) (w' q)) :
    Agrees l ((if c then p else p') s) ((if c' then w else w') q) := by
  by_cases h : c
  · rw [if_pos h, if_pos (same.mp h)]
    exact yes h
  · rw [if_neg h, if_neg fun h' => h (same.mpr h')]
    exact no h

/-! ### Runs on a list that is known -/

theorem token_of_drop {i n : Nat} {t : Token} (h : (l.tokens.drop i)[n]? = some t) :
    l.token (i + n) = .ok t := by
  rw [List.getElem?_drop] at h
  obtain ⟨hlt, rfl⟩ := List.getElem?_eq_some_iff.mp h
  rw [Lexed.token]
  cases l.failure with
  | some e => simp [hlt]
  | none =>
      have hmin : min (i + n) (l.tokens.length - 1) = i + n := by omega
      simp [hmin, hlt]

theorem look_of_drop {n : Nat} {q : Place} {t : Token}
    (h : (l.tokens.drop q.consumed)[n]? = some t) : look l n q = .ok t q := by
  rw [look, token_of_drop h]

theorem look_of_failure {n : Nat} {q : Place} {e : LexicalError} (hfailure : l.failure = some e)
    (h : (l.tokens.drop q.consumed)[n]? = none) :
    look l n q = .error (.parse (.lexical e)) q := by
  rw [List.getElem?_drop] at h
  simp [look, Lexed.token, hfailure, h]

theorem isNext_of_drop (fits : Token → Bool) {q : Place} {t : Token} {ts : List Token}
    (h : l.tokens.drop q.consumed = t :: ts) : isNext l fits q = .ok (fits t) q := by
  rw [isNext, run_bind, look_of_drop (by rw [h]; rfl)]
  rfl

theorem isNext_of_failure (fits : Token → Bool) {q : Place} {e : LexicalError}
    (hfailure : l.failure = some e) (h : l.tokens.drop q.consumed = []) :
    isNext l fits q = .error (.parse (.lexical e)) q := by
  rw [isNext, run_bind, look_of_failure hfailure (by rw [h]; rfl)]

theorem take_of_drop {q : Place} {t : Token} {ts : List Token}
    (h : l.tokens.drop q.consumed = t :: ts) : take l q = .ok t (q.after t) := by
  rw [take, run_bind, look_of_drop (by rw [h]; rfl)]
  rfl

theorem drop_after {q : Place} {t : Token} {ts : List Token}
    (hdrop : l.tokens.drop q.consumed = t :: ts) (ht : t.isEnd = false) :
    l.tokens.drop (q.after t).consumed = ts := by
  simp [Place.after, ht, ← List.tail_drop, hdrop]

theorem skip_cons (q : Place) {dot part : Token} (parts : List Token)
    (hdot : dot.isEnd = false) (hpart : part.isEnd = false) :
    q.skip (part :: parts) = ((q.after dot).after part).skip parts := by
  have hlast : (part :: parts).getLast?.or q.last = parts.getLast?.or (some part) := by
    cases h : parts.getLast? <;> simp [List.getLast?_cons, h]
  simp only [Place.skip, Place.after, hdot, hpart, hlast, List.length_cons, Bool.false_eq_true,
    if_false, Place.mk.injEq, and_true]
  omega

theorem run_nameRest {q : Place} {parts : List Token}
    (tail : nameTail (l.tokens.drop q.consumed) = parts) :
    nameRest l q =
      (nameEnd l >>= fun _ => pure (parts.map (·.lexeme)) : Walk (List String)) (q.skip parts) := by
  subst tail
  rfl

/-- A part of a name is consumed with the dot before it. -/
theorem nameRest_cons {q : Place} {dot part : Token} {ts : List Token}
    (hdrop : l.tokens.drop q.consumed = dot :: part :: ts) (hdot : dot.kind = .dot)
    (hpart : part.kind = .identifier) :
    nameRest l q =
      (do
        let _ ← take l
        let part ← take l
        let parts ← nameRest l
        return part.lexeme :: parts : Walk (List String)) q := by
  have hdotEnd := Parser.isEnd_eq_false_of_kind hdot (by decide)
  have hpartEnd := Parser.isEnd_eq_false_of_kind hpart (by decide)
  have hdrop₁ := drop_after hdrop hdotEnd
  have hdrop₂ := drop_after hdrop₁ hpartEnd
  have htail : nameTail (l.tokens.drop q.consumed) = part :: nameTail ts := by
    rw [hdrop, nameTail, if_pos ⟨hdot, hpart⟩]
  rw [run_nameRest htail, skip_cons q _ hdotEnd hpartEnd]
  simp only [run_bind, take_of_drop hdrop, take_of_drop hdrop₁,
    run_nameRest (congrArg nameTail hdrop₂)]
  cases nameEnd l (((q.after dot).after part).skip (nameTail ts)) <;> rfl

/-- The rest of a name, part after part. -/
theorem nameRest_eq (ends : Ends l) {q : Place}
    (inside : l.failure = none → q.consumed < l.tokens.length) :
    nameRest l q =
      (do
        if ← isNext l (·.kind = .dot) then
          if (← look l 1).kind = .identifier then
            let _ ← take l
            let part ← take l
            let parts ← nameRest l
            return part.lexeme :: parts
          else
            return []
        else
          return [] : Walk (List String)) q := by
  -- Where the name does not go on, only what is looked at counts.
  have stop (htail : nameTail (l.tokens.drop q.consumed) = []) :
      nameRest l q = (nameEnd l >>= fun _ => pure [] : Walk (List String)) q :=
    run_nameRest htail
  cases hdrop : l.tokens.drop q.consumed with
  | nil =>
      cases hfailure : l.failure with
      | none =>
          have := inside hfailure
          rw [List.drop_eq_nil_iff] at hdrop
          omega
      | some e =>
          have hnext := isNext_of_failure (·.kind = .dot) hfailure hdrop
          rw [stop (by rw [hdrop]; rfl)]
          simp only [nameEnd, run_bind, hnext]
  | cons t ts =>
      have hnext := isNext_of_drop (·.kind = .dot) hdrop
      by_cases hdot : t.kind = .dot
      · cases ts with
        | nil =>
            cases hfailure : l.failure with
            | none =>
                -- The dot would be the last token.
                have htoken : l.tokens[q.consumed]? = some t := by
                  rw [← List.head?_drop, hdrop]
                  rfl
                have hlt := ends.succ_lt hfailure htoken
                  (Parser.isEnd_eq_false_of_kind hdot (by decide))
                have hlength := congrArg List.length hdrop
                simp only [List.length_drop, List.length_singleton] at hlength
                omega
            | some e =>
                have hlook : look l 1 q = _ := look_of_failure hfailure (by rw [hdrop]; rfl)
                rw [stop (by rw [hdrop]; rfl)]
                simp only [nameEnd, run_bind, hnext, hdot, hlook, decide_true, if_true]
        | cons part us =>
            have hlook : look l 1 q = .ok part q := look_of_drop (by rw [hdrop]; rfl)
            by_cases hpart : part.kind = .identifier
            · rw [nameRest_cons hdrop hdot hpart, run_bind (isNext l _), hnext]
              simp only [hdot, decide_true, if_true]
              rw [run_bind (look l 1), hlook]
              simp only [hpart, if_true]
            · rw [stop (by rw [hdrop, nameTail, if_neg fun h => hpart h.2])]
              simp only [nameEnd, run_bind, hnext, hdot, hlook, hpart, decide_true, if_true,
                if_false]
              rfl
      · have htail : nameTail (l.tokens.drop q.consumed) = [] := by
          cases ts with
          | nil => rw [hdrop]; rfl
          | cons part us => rw [hdrop, nameTail, if_neg fun h => hdot h.1]
        rw [stop htail]
        simp only [nameEnd, run_bind, hnext, hdot, decide_false, Bool.false_eq_true, if_false]
        rfl

/-! ### Parsers of the stream -/

theorem agrees_isAt {s : TokenStream} {q : Place} (isAt : s.IsAt l q) (kind : TokenKind) :
    Agrees l (Parser.isAt kind s) (isNext l (·.kind = kind) q) :=
  (agrees_peek isAt 0).bind fun t _ _ isAt' _ => agrees_pure isAt' (decide (t.kind = kind))

theorem agrees_isAtWord {s : TokenStream} {q : Place} (isAt : s.IsAt l q) (word : String) :
    Agrees l (Parser.isAtWord word s) (isNext l (·.isWord word) q) :=
  (agrees_peek isAt 0).bind fun t _ _ isAt' _ => agrees_pure isAt' (t.isWord word)

/-- A dot that is consumed leaves fewer tokens. -/
theorem length_drop_lt {q q₁ q₂ : Place} {t dot part : Token}
    (inside : l.failure = none → q.consumed < l.tokens.length)
    (token : l.token q.consumed = .ok t) (kind : t.kind = .dot)
    (first : take l q = .ok dot q₁) (second : take l q₁ = .ok part q₂) :
    (l.tokens.drop q₂.consumed).length < (l.tokens.drop q.consumed).length := by
  obtain ⟨rfl, hdot⟩ := take_eq_ok first
  obtain ⟨rfl, -⟩ := take_eq_ok second
  rw [token] at hdot
  cases hdot
  have hlt := (List.getElem?_eq_some_iff.mp (token_eq_ok inside token)).1
  simp only [Place.after, Parser.isEnd_eq_false_of_kind kind (by decide), Bool.false_eq_true, if_false,
    List.length_drop]
  split <;> omega

theorem agrees_nameParts (ends : Ends l) {n : Nat} :
    ∀ {s : TokenStream} {q : Place}, s.IsAt l q → (l.tokens.drop q.consumed).length < n →
      Agrees l (Parser.nameParts n s) (nameRest l q) := by
  induction n with
  | zero => exact fun _ hn => absurd hn (Nat.not_lt_zero _)
  | succ n ih =>
      intro s q isAt hn
      rw [nameRest_eq ends isAt.inside, Parser.nameParts]
      refine (agrees_isAt isAt .dot).bind fun b s₁ q₁ isAt₁ hb => ?_
      refine agrees_ite .rfl (fun hyes => ?_) fun _ => agrees_pure isAt₁ _
      refine (agrees_peek isAt₁ 1).bind fun ahead s₂ q₂ isAt₂ hahead => ?_
      refine agrees_ite .rfl (fun _ => ?_) fun _ => agrees_pure isAt₂ _
      refine (agrees_next ends isAt₂).bind fun dot s₃ q₃ isAt₃ hdot => ?_
      refine (agrees_next ends isAt₃).bind fun part s₄ q₄ isAt₄ hpart => ?_
      obtain ⟨rfl, t, htoken, rfl⟩ := isNext_eq_ok hb
      obtain ⟨rfl, -⟩ := look_eq_ok hahead
      have hlt := length_drop_lt isAt.inside htoken (by simpa using hyes) hdot hpart
      exact (ih isAt₄ (by omega)).bind fun parts _ _ isAt₅ _ => agrees_pure isAt₅ _

theorem agrees_takeIf (ends : Ends l) {s : TokenStream} {q : Place} {p : Parser Bool}
    {fits : Token → Bool} (test : Agrees l (p s) (isNext l fits q)) :
    Agrees l ((do if ← p then return some (← Parser.next) else return none : Parser _) s)
      (takeIf l fits q) :=
  test.bind fun _ _ _ isAt _ =>
    agrees_ite .rfl (fun _ => (agrees_next ends isAt).bind fun _ _ _ isAt' _ => agrees_pure isAt' _)
      fun _ => agrees_pure isAt _

theorem agrees_accept? (ends : Ends l) {s : TokenStream} {q : Place} (isAt : s.IsAt l q)
    (kind : TokenKind) : Agrees l (Parser.accept? kind s) (takeIf l (·.kind = kind) q) :=
  agrees_takeIf ends (agrees_isAt isAt kind)

theorem agrees_acceptWord? (ends : Ends l) {s : TokenStream} {q : Place} (isAt : s.IsAt l q)
    (word : String) : Agrees l (Parser.acceptWord? word s) (takeIf l (·.isWord word) q) :=
  agrees_takeIf ends (agrees_isAtWord isAt word)

theorem agrees_require (ends : Ends l) {s : TokenStream} {q : Place} (isAt : s.IsAt l q)
    (g : Grammar) (what : String) {fits : Token → Bool} {c : Token → Prop} [DecidablePred c]
    (same : ∀ t, c t ↔ fits t = true) :
    Agrees l
      ((do
        let t ← Parser.peek 0
        if c t then Parser.next else Parser.fail g t (.expected what) : Parser Token) s)
      (require l g what fits q) :=
  (agrees_peek isAt 0).bind fun t _ _ isAt' _ =>
    agrees_ite (same t) (fun _ => agrees_next ends isAt') fun _ => agrees_throw isAt' id

theorem agrees_expect (ends : Ends l) {s : TokenStream} {q : Place} (isAt : s.IsAt l q)
    (g : Grammar) (kind : TokenKind) (what : String) :
    Agrees l (Parser.expect g kind what s) (expect l g kind what q) :=
  agrees_require ends isAt g _ fun t => by simp

theorem agrees_expectWord (ends : Ends l) {s : TokenStream} {q : Place} (isAt : s.IsAt l q)
    (g : Grammar) (word : String) :
    Agrees l (Parser.expectWord g word s) (require l g ("'" ++ word ++ "'") (·.isWord word) q) :=
  agrees_require ends isAt g _ fun _ => .rfl

theorem agrees_qualifiedName (ends : Ends l) {s : TokenStream} {q : Place} (isAt : s.IsAt l q)
    (g : Grammar) (what : String) :
    Agrees l (Parser.qualifiedName g what s) (qualifiedName l g what q) := by
  simp only [Parser.qualifiedName, Parser.accepts, Parser.identifier, bind_assoc, pure_bind]
  refine (agrees_accept? ends isAt .dot).bind fun dot s₁ q₁ isAt₁ _ => ?_
  refine (agrees_expect ends isAt₁ g .identifier what).bind fun first s₂ q₂ isAt₂ _ => ?_
  have budget : (l.tokens.drop q₂.consumed).length < s₂.tokens.length + 1 := by
    rw [isAt₂.tokens]
    exact Nat.lt_succ_self _
  exact (agrees_nameParts ends isAt₂ budget).bind fun parts _ _ isAt₃ _ => agrees_pure isAt₃ _

end Walk

end Proto2

import Proto2.Proofs.Layout.Lays
import Proto2.Proofs.Layout.Lexed
import Proto2.Proofs.Token.Gap

/-!
Lines of text, with block comments above some of them.

A pen writes comments on lines of their own, but a block comment may take several lines.
`Inscribes p cs ws q` says that a lexer that has come to the state `p` reads the tokens `ws` from
the text and comes to the state `q`, so texts of both kinds may stand behind one another.
`LaysLines ls R` says of some lines what `Lays` says of a piece of text.
-/

namespace Proto2

/-- Lines, each with its end. -/
def Text.ended (ls : List (List Char)) : List Char :=
  ls.flatMap (· ++ ['\n'])

theorem Text.ended_singleton (l : List Char) : ended [l] = l ++ ['\n'] :=
  List.flatMap_singleton _ l

theorem Text.ended_append (ls ms : List (List Char)) : ended (ls ++ ms) = ended ls ++ ended ms :=
  List.flatMap_append

theorem Text.unlines_append_nil (ls : List (List Char)) : unlines (ls ++ [[]]) = ended ls := by
  induction ls with
  | nil => rfl
  | cons l ls ih =>
      rw [List.cons_append, unlines, List.intercalate_cons_of_ne_nil (by simp), ← unlines, ih]
      rfl

/-- The text bears the tokens, and what stands behind it is read on from the second state. -/
def Inscribes (p : Pen) (cs : List Char) (ws : List Written) (q : Pen) : Prop :=
  ∀ file ds vs, Lexed.Bears file q ds vs → Lexed.Bears file p (cs ++ ds) (ws ++ vs)

namespace Inscribes

variable {p q r : Pen} {cs ds : List Char} {ws vs : List Written}

theorem nil (p : Pen) : Inscribes p [] [] p :=
  fun _ _ _ h => h

theorem append (h : Inscribes p cs ws q) (h' : Inscribes q ds vs r) :
    Inscribes p (cs ++ ds) (ws ++ vs) r := by
  intro file es us rest
  rw [List.append_assoc, List.append_assoc]
  exact h _ _ _ (h' _ _ _ rest)

theorem writes (h : Writes p cs ws q) (free : q.last = none) : Inscribes p cs ws q := by
  intro file ds vs rest
  refine .writes h (fun c _ k hk => ?_) rest
  rw [free] at hk
  cases hk

/-- A block comment at the start of a line. -/
theorem block {body : List Char} (fresh : p.fresh = true) (noSlash : '/' ∉ body) :
    Inscribes p ('/' :: '*' :: body ++ ['*', '/', '\n']) []
      (.under (p.comments ++ [(true, String.ofList ('/' :: '*' :: body ++ ['*', '/']))])) := by
  intro file ds vs rest
  have hclosed := Gap.closedLength?_append noSlash ('\n' :: ds)
  have hlength : ('/' :: '*' :: (body ++ ['*', '/'])).length = 2 + (body.length + 2) := by
    simp only [List.length_cons, List.length_append, List.length_nil]
    omega
  have hnext : Gap.next ('/' :: '*' :: (body ++ '*' :: '/' :: '\n' :: ds)) =
      .comment true ('/' :: '*' :: (body ++ ['*', '/'])).length := by
    rw [hlength, Gap.next, hclosed]
  have htext : body ++ '*' :: '/' :: '\n' :: ds = body ++ ['*', '/'] ++ '\n' :: ds := by simp
  rw [htext] at hnext
  have hbears : Lexed.Bears file p ('/' :: '*' :: (body ++ ['*', '/']) ++ '\n' :: ds) vs :=
    .comment fresh rfl hnext (by simpa using rest)
  simpa using hbears

/-- The tokens of a text are those it bears. -/
theorem tokensOf (h : Inscribes .line cs ws q) (file : String) :
    ∃ ts e, TokensOf file cs ts e ∧ ts.map Token.written = ws := by
  have hbears := h file [] [] .nil
  rw [List.append_nil, List.append_nil] at hbears
  exact hbears.tokensOf

end Inscribes

/-! ### Spaces at the start of a line -/

theorem Writes.spaces {p q : Pen} {cs : List Char} {ws : List Written} (h : Writes p cs ws q)
    (n : Nat) : Writes p (List.replicate n ' ' ++ cs) ws q := by
  induction n with
  | zero => exact h
  | succ n ih => exact ih.after_space

theorem Lays.spaces {p q : Pen} {cs : List Char} {R : List Token → List Token → Prop}
    (h : Lays p cs q R) (n : Nat) : Lays p (List.replicate n ' ' ++ cs) q R := by
  obtain ⟨ws, hw, hR⟩ := h
  exact ⟨ws, hw.spaces n, hR⟩

/-! ### Remarks -/

/-- The lines have comments that wait for the token behind them, and nothing else. -/
def IsRemark (ls : List (List Char)) : Prop :=
  ∃ comments, Inscribes .line (Text.ended ls) [] (.under comments)

namespace IsRemark

theorem nil : IsRemark [] :=
  ⟨[], .nil .line⟩

/-- Line comments, one below the other. -/
theorem lines {ls : List (List Char)}
    (h : ∀ l ∈ ls, ∃ n body, l = List.replicate n ' ' ++ '/' :: '/' :: body ∧ '\n' ∉ body) :
    IsRemark ls := by
  suffices key : ∀ waiting, ∃ comments,
      Inscribes (.under waiting) (Text.ended ls) [] (.under comments) from key []
  -- Below each line one more comment waits.
  induction ls with
  | nil => exact fun waiting => ⟨waiting, .nil _⟩
  | cons l ls ih =>
      intro waiting
      obtain ⟨n, body, rfl, oneLine⟩ := h l (by simp)
      have hline : Writes (.under waiting)
          (List.replicate n ' ' ++ ('/' :: '/' :: body ++ '\n' :: [])) [] _ :=
        .spaces (.comment rfl oneLine (.refl _)) n
      obtain ⟨comments, hrest⟩ := ih (fun l hl => h l (by simp [hl])) _
      refine ⟨comments, ?_⟩
      have hall := (Inscribes.writes hline rfl).append hrest
      simpa [Text.ended] using hall

/-- A block comment, on however many lines. -/
theorem block {ls : List (List Char)} (n : Nat) (body : List Char)
    (text : Text.ended ls = List.replicate n ' ' ++ ('/' :: '*' :: body ++ ['*', '/', '\n']))
    (noSlash : '/' ∉ body) : IsRemark ls := by
  have hspaces : Writes .line (List.replicate n ' ' ++ []) [] .line := .spaces (.refl _) n
  rw [List.append_nil] at hspaces
  have hall := (Inscribes.writes hspaces rfl).append (.block rfl noSlash)
  exact ⟨_, text ▸ hall⟩

end IsRemark

/-! ### Lines that bear tokens -/

/-- Some lines bear tokens, which are related to what stands behind them. -/
def LaysLines (ls : List (List Char)) (R : List Token → List Token → Prop) : Prop :=
  ∃ ws, Inscribes .line (Text.ended ls) ws .line ∧
    ∀ ts us, ts.map Token.written = ws → R (ts ++ us) us

namespace LaysLines

variable {ls ms : List (List Char)} {l : List Char} {R S : List Token → List Token → Prop}

theorem mono (h : LaysLines ls R) (imp : ∀ ts us, R ts us → S ts us) : LaysLines ls S := by
  obtain ⟨ws, hw, hR⟩ := h
  exact ⟨ws, hw, fun ts us hts => imp _ _ (hR ts us hts)⟩

theorem of_eq (h : LaysLines ls R) (text : ms = ls) : LaysLines ms R :=
  text ▸ h

theorem nil : LaysLines [] fun ts us => ts = us :=
  ⟨[], .nil .line, fun ts us hts => by rw [List.map_eq_nil_iff.mp hts, List.nil_append]⟩

theorem append (h : LaysLines ls R) (h' : LaysLines ms S) :
    LaysLines (ls ++ ms) fun ts us => ∃ ns, R ts ns ∧ S ns us := by
  obtain ⟨ws, hw, hR⟩ := h
  obtain ⟨vs, hv, hS⟩ := h'
  refine ⟨ws ++ vs, by rw [Text.ended_append]; exact hw.append hv, fun ts us hts => ?_⟩
  obtain ⟨ts, ns, rfl, hts, hns⟩ := List.map_eq_append_iff.mp hts
  exact ⟨ns ++ us, by rw [List.append_assoc]; exact hR ts _ hts, hS ns us hns⟩

/-- A line below its remarks. -/
theorem documented {doc : List (List Char)} (remark : IsRemark doc)
    (h : ∀ comments, Lays (.under comments) (l ++ ['\n']) .line R) :
    LaysLines (doc ++ [l]) R := by
  obtain ⟨comments, hdoc⟩ := remark
  obtain ⟨ws, hw, hR⟩ := h comments
  refine ⟨ws, ?_, hR⟩
  rw [Text.ended_append, Text.ended_singleton]
  exact hdoc.append (.writes hw rfl)

theorem single (h : Lays .line (l ++ ['\n']) .line R) : LaysLines [l] R := by
  obtain ⟨ws, hw, hR⟩ := h
  refine ⟨ws, ?_, hR⟩
  rw [Text.ended_singleton]
  exact .writes hw rfl

/-- An empty line bears no tokens. -/
theorem empty : LaysLines [[]] fun ts us => ts = us :=
  single (.newline (.done _))

end LaysLines

/-! ### Lines that bear items -/

variable {α β : Type} {At : List Token → α → List Token → Prop} {P Q : List α → Prop}
  {ls ms : List (List Char)}

/-- Some lines bear tokens in which items stand, one after the other, and together they have a
property. -/
def LaysBody (At : List Token → α → List Token → Prop) (P : List α → Prop)
    (ls : List (List Char)) : Prop :=
  LaysLines ls fun ts us => ∃ as, Sequence At ts as us ∧ P as

namespace LaysBody

theorem mono (h : LaysBody At P ls) (imp : ∀ as, P as → Q as) : LaysBody At Q ls := by
  refine LaysLines.mono h ?_
  rintro ts us ⟨as, has, hP⟩
  exact ⟨as, has, imp as hP⟩

theorem nil (h : P []) : LaysBody At P [] := by
  refine LaysLines.nil.mono ?_
  rintro ts us rfl
  exact ⟨[], .nil, h⟩

/-- One item, with a property that all items are to have. -/
theorem one {R : α → Prop} (h : LaysLines ls fun ts us => ∃ a, At ts a us ∧ R a) :
    LaysBody At (fun as => ∀ a ∈ as, R a) ls := by
  refine h.mono ?_
  rintro ts us ⟨a, ha, hR⟩
  exact ⟨[a], .cons ha .nil, List.forall_mem_singleton.mpr hR⟩

theorem append {R : List α → Prop} (h : LaysBody At P ls) (h' : LaysBody At Q ms)
    (both : ∀ as bs, P as → Q bs → R (as ++ bs)) : LaysBody At R (ls ++ ms) := by
  refine (LaysLines.append h h').mono ?_
  rintro ts us ⟨ns, ⟨as, has, hP⟩, bs, hbs, hQ⟩
  exact ⟨as ++ bs, has.append hbs, both as bs hP hQ⟩

/-- What stands behind the items may be asked for. -/
theorem closed (h : LaysBody At P ls) (closing : TokenKind) : LaysLines ls fun ts us =>
    AtKind closing us → ∃ as, Sequence At ts as us ∧ P as :=
  LaysLines.mono h fun _ _ hbody _ => hbody

/-- Items of one kind as items of another. -/
theorem map {At' : List Token → β → List Token → Prop} {f : α → β}
    (each : ∀ ts a us, At ts a us → At' ts (f a) us) (h : LaysBody At P ls) :
    LaysBody At' (fun bs => ∃ as, bs = as.map f ∧ P as) ls := by
  refine LaysLines.mono h ?_
  rintro ts us ⟨as, has, hP⟩
  exact ⟨as.map f, has.map each, as, rfl, hP⟩

end LaysBody

end Proto2

import Proto2.Proofs.Schema.Bodies
import Proto2.Proofs.Schema.Rules

/-!
Reading declarations that may be refused.

`Builds p ts ns a us` says that on the tokens `ts` the parser `p` builds the declarations `ns`
one after the other: it stops at the first of them that breaks a rule, with the error that is due
to it, and otherwise succeeds with `a` and leaves `us`.  A parser that builds nothing reads, and
parsers in a row build what each of them builds.
-/

namespace Proto2

/-- The error that is due to the first of the declarations that breaks a rule. -/
def firstViolation? (ns : List Node) : Option ModelError :=
  ns.findSome? Node.violation?

@[simp] theorem firstViolation?_nil : firstViolation? [] = none := rfl

theorem firstViolation?_append (ns ns' : List Node) :
    firstViolation? (ns ++ ns') = (firstViolation? ns).or (firstViolation? ns') :=
  List.findSome?_append

theorem firstViolation?_eq_none {ns : List Node} :
    firstViolation? ns = none ↔ ∀ n ∈ ns, n.Obeys := by
  simp only [firstViolation?, List.findSome?_eq_none_iff, Node.violation?_eq_none]

/-- The error is due to a declaration before which all of them obey the rules. -/
theorem firstViolation?_eq_some {ns : List Node} {e : ModelError} :
    firstViolation? ns = some e ↔
      ∃ before n after, ns = before ++ n :: after ∧ n.Violates e ∧ ∀ m ∈ before, m.Obeys := by
  simp only [firstViolation?, List.findSome?_eq_some_iff, Node.violation?_eq_some,
    Node.violation?_eq_none]

namespace Parser

variable {α β : Type}

/-- The parser builds the declarations: it is refused at the first that breaks a rule, and
succeeds if there is none. -/
def Builds (p : Parser α) (ts : List Token) (ns : List Node) (a : α) (us : List Token) : Prop :=
  p.outcome ⟨ts, none⟩ =
    match firstViolation? ns with
    | some e => .error (.build (.ofModelError e))
    | none => .ok (a, ⟨us, none⟩)

/-! ### Parsers put together -/

namespace Builds

variable {p : Parser α} {f : α → Parser β} [∀ a, TokenDriven (f a)] {ts ms us : List Token}
  {ns ns' : List Node} {a : α} {b : β}

/-- What is read is built from nothing. -/
theorem of_reads (h : Reads p ts a us) : Builds p ts [] a us :=
  h

/-- One parser after another. -/
theorem bind (h : Builds p ts ns a ms) (h' : Builds (f a) ms ns' b us) :
    Builds (p >>= f) ts (ns ++ ns') b us := by
  rw [Builds, outcome_bind, h, firstViolation?_append]
  cases firstViolation? ns with
  | some e => rfl
  | none => exact h'

/-- What comes behind what is read. -/
theorem after (h : Reads p ts a ms) (h' : Builds (f a) ms ns b us) :
    Builds (p >>= f) ts ns b us :=
  bind (of_reads h) h'

/-- What is read behind what is built. -/
theorem before (h : Builds p ts ns a ms) (h' : Reads (f a) ms b us) :
    Builds (p >>= f) ts ns b us := by
  rw [← List.append_nil ns]
  exact bind h (of_reads h')

theorem ite_pos {c : Prop} [Decidable c] {p q : Parser α} (hc : c) (h : Builds p ts ns a us) :
    Builds (if c then p else q) ts ns a us := by
  rwa [if_pos hc]

theorem ite_neg {c : Prop} [Decidable c] {p q : Parser α} (hc : ¬ c) (h : Builds q ts ns a us) :
    Builds (if c then p else q) ts ns a us := by
  rwa [if_neg hc]

theorem ofBuild {n : Node} {built : Except BuildError α} (h : built = n.built a) :
    Builds (Parser.ofBuild built) ts [n] a ts := by
  rw [h, Builds, firstViolation?, List.findSome?_singleton, Node.built]
  cases n.violation? <;> rfl

end Builds

/-! ### Repetitions -/

section Repetitions

variable {item : Parser α} [TokenDriven item] {ts us : List Token} {n : Nat}

/-- Items up to a closing token, each with what is built in it. -/
theorem Builds.itemsWithin {close : TokenKind} (some : close ≠ .endOfInput) {c : Token}
    {xs : List (α × List Node)} (rounds : xs.length < n) (closing : c.kind = close)
    (h : Sequence (fun ts x us => NotAtKind close ts ∧ Builds item ts x.2 x.1 us) ts xs (c :: us)) :
    Builds (itemsWithin close item n) ts (xs.flatMap (·.2)) (xs.map (·.1)) us := by
  induction xs generalizing n ts with
  | nil =>
      cases h
      obtain ⟨n, rfl⟩ : ∃ m, n = m + 1 := ⟨n - 1, by simp at rounds; omega⟩
      rw [Parser.itemsWithin]
      exact .after ((reads_accepts some).mpr (.inl ⟨rfl, c, rfl, closing⟩))
        (.of_reads (reads_pure.mpr ⟨rfl, rfl⟩))
  | cons x xs ih =>
      cases h with
      | cons head tail =>
          obtain ⟨n, rfl⟩ : ∃ m, n = m + 1 := ⟨n - 1, by omega⟩
          rw [Parser.itemsWithin]
          have hrest := ih (n := n) (by simpa using rounds) tail
          exact .after ((reads_accepts some).mpr (.inr ⟨rfl, rfl, head.1⟩))
            (.bind head.2 (.before hrest (reads_pure.mpr ⟨rfl, rfl⟩)))

theorem Builds.separatedWithin {node : α → Node} {as : List α} (rounds : as.length ≤ n)
    (h : Separated (fun ts a us => Builds item ts [node a] a us) ts as us) :
    Builds (separatedWithin item n) ts (as.map node) as us := by
  induction h generalizing n with
  | last head stop =>
      obtain ⟨n, rfl⟩ : ∃ m, n = m + 1 := ⟨n - 1, by simp at rounds; omega⟩
      rw [Parser.separatedWithin]
      exact .before head (reads_bind.mpr ⟨false, _,
        (reads_accepts (by decide)).mpr (.inr ⟨rfl, rfl, stop⟩), reads_pure.mpr ⟨rfl, rfl⟩⟩)
  | @cons ts ms us comma a as head kind tail ih =>
      obtain ⟨n, rfl⟩ : ∃ m, n = m + 1 := ⟨n - 1, by simp at rounds; omega⟩
      rw [Parser.separatedWithin]
      have hrest := ih (n := n) (by simpa using rounds)
      rw [List.map_cons, ← List.singleton_append]
      exact .bind head (.after ((reads_accepts (by decide)).mpr (.inl ⟨rfl, comma, rfl, kind⟩))
        (.before hrest (reads_pure.mpr ⟨rfl, rfl⟩)))

/-- Items with commas between them, in each of which one declaration is built. -/
theorem Builds.separated {node : α → Node} {At : List Token → α → List Token → Prop}
    (progress : ∀ ts a us, At ts a us → us.length < ts.length)
    (each : ∀ ts a us, At ts a us → Builds item ts [node a] a us) {as : List α}
    (h : Separated At ts as us) : Builds (separated item) ts (as.map node) as us := by
  have := h.length_le progress
  exact .after (reads_budget.mpr ⟨rfl, rfl⟩) (.separatedWithin (by omega) (h.mono each))

end Repetitions

/-- At its first token, a semicolon or a word, an item is built, with what is built in it, and takes
a token at least. -/
def BuildsAt (item : Token → Parser α) (before : List Token) (x : α × List Node)
    (after : List Token) : Prop :=
  ∃ t rest, before = t :: rest ∧ (t.kind = .semicolon ∨ t.kind = .identifier) ∧
    after.length < before.length ∧ Builds (item t) before x.2 x.1 after

theorem BuildsAt.of_isItem {At : List Token → α → List Token → Prop} (isItem : IsItem At)
    {item : Token → Parser α} {ts us : List Token} {a : α} {ns : List Node} (h : At ts a us)
    (builds : ∀ t rest, ts = t :: rest → Builds (item t) (t :: rest) ns a us) :
    BuildsAt item ts (a, ns) us := by
  obtain ⟨t, rest, rfl, hk⟩ := isItem.start h
  exact ⟨t, rest, rfl, hk, isItem.progress h, builds t rest rfl⟩

section Bodies

variable {opened c : Token} {item : Token → Parser α} [∀ t, TokenDriven (item t)]
  {ts us : List Token}

/-- The items of a body, each with what is built in it. -/
theorem Builds.bodyItems {xs : List (α × List Node)} (closing : c.kind = .closeBrace)
    (h : Sequence (BuildsAt item) ts xs (c :: us)) :
    Builds (bodyItems opened item) ts (xs.flatMap (·.2)) (xs.map (·.1)) us := by
  have hlen : xs.length + (c :: us).length ≤ ts.length :=
    h.length_le fun ts x us ⟨_, _, _, _, hlt, _⟩ => hlt
  have hsteps : Sequence (fun ts x us => NotAtKind .closeBrace ts ∧ Builds (do
      let t ← peek 0
      if t.isEnd then
        fail .schema t (.unclosedBody opened.span)
      else
        item t) ts x.2 x.1 us) ts xs (c :: us) := by
    refine h.mono fun ts x us hat => ?_
    obtain ⟨t, rest, rfl, hk, -, hbuilds⟩ := hat
    have hend : ¬ t.isEnd = true := by rcases hk with hk | hk <;> simp [Token.isEnd, hk]
    refine ⟨by rcases hk with hk | hk <;> simp [hk], ?_⟩
    exact .after (reads_peek_zero.mpr ⟨rfl, rest, rfl⟩) (.ite_neg hend hbuilds)
  rw [Parser.bodyItems, itemsUntil]
  exact .after (reads_budget.mpr ⟨rfl, rfl⟩)
    (.itemsWithin (by decide) (by simp only [List.length_cons] at hlen; omega) closing hsteps)

/-- The items of a body, if each of them says what is built in it. -/
theorem Builds.bodyItems_of_nodes {At : List Token → α → List Token → Prop} (isItem : IsItem At)
    (nodes : α → List Node)
    (each : ∀ {t ts a us}, At (t :: ts) a us → Builds (item t) (t :: ts) (nodes a) a us)
    {as : List α} (closing : c.kind = .closeBrace) (h : Sequence At ts as (c :: us)) :
    Builds (Parser.bodyItems opened item) ts (as.flatMap nodes) as us := by
  have hpairs : Sequence (BuildsAt item) ts (as.map fun a => (a, nodes a)) (c :: us) := by
    refine Sequence.map (fun ts a us h => .of_isItem isItem h ?_) h
    rintro t rest rfl
    exact each h
  have hbody : Builds (Parser.bodyItems opened item) _ _ _ _ := .bodyItems closing hpairs
  simpa [List.flatMap_map, Function.comp_def] using hbody

end Bodies

end Parser

end Proto2

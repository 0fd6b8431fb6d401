import Mathlib.Data.List.Forall2
import Proto2.Proofs.Parser.Walk

/-!
Reading in any order.

A reader is asked one thing after the other, and goes on behind an answer that is an error.  What
the stream answers is compared with what the list does, step by step from the agreement of single
runs, and from there over all steps up to the first lexical error.
-/

namespace Proto2

/-- What a reader can be asked to do. -/
inductive ReadStep where
  | peek (n : Nat)
  | next
  | last
  | isAt (kind : TokenKind)
  | isAtWord (word : String)
  | accept (kind : TokenKind)
  | acceptWord (word : String)
  | expect (kind : TokenKind) (what : String)
  | expectWord (word : String)
  | qualifiedName (what : String)
deriving DecidableEq, Repr

/-- What a reader answers. -/
inductive Answer where
  | token (t : Token)
  | token? (t : Option Token)
  | bool (b : Bool)
  | name (s : String)
deriving DecidableEq, Repr

namespace ReadStep

/-- The step on the stream, for the reader of a grammar. -/
def onStream (g : Grammar) : ReadStep → Parser Answer
  | peek n => .token <$> Parser.peek n
  | next => .token <$> Parser.next
  | last => .token? <$> Parser.last?
  | isAt kind => .bool <$> Parser.isAt kind
  | isAtWord word => .bool <$> Parser.isAtWord word
  | accept kind => .token? <$> Parser.accept? kind
  | acceptWord word => .token? <$> Parser.acceptWord? word
  | expect kind what => .token <$> Parser.expect g kind what
  | expectWord word => .token <$> Parser.expectWord g word
  | qualifiedName what => .name <$> Parser.qualifiedName g what

/-- The step on the list. -/
def onList (g : Grammar) (l : Lexed) : ReadStep → Walk Answer
  | peek n => .token <$> Walk.look l n
  | next => .token <$> Walk.take l
  | last => (.token? ·.last) <$> get
  | isAt kind => .bool <$> Walk.isNext l (·.kind = kind)
  | isAtWord word => .bool <$> Walk.isNext l (·.isWord word)
  | accept kind => .token? <$> Walk.takeIf l (·.kind = kind)
  | acceptWord word => .token? <$> Walk.takeIf l (·.isWord word)
  | expect kind what => .token <$> Walk.expect l g kind what
  | expectWord word => .token <$> Walk.require l g ("'" ++ word ++ "'") (·.isWord word)
  | qualifiedName what => .name <$> Walk.qualifiedName l g what

end ReadStep

/-- The answer that a run gives, and the state after it. -/
def answered {σ : Type} : EStateM.Result Failure σ Answer → Except Failure Answer × σ
  | .ok a s => (.ok a, s)
  | .error e s => (.error e, s)

/-- The answers to the steps one after the other.  A step that fails leaves the reader to the
next one. -/
def answers {σ : Type} (step : ReadStep → EStateM Failure σ Answer) :
    List ReadStep → σ → List (Except Failure Answer × σ)
  | [], _ => []
  | r :: rs, s => answered (step r s) :: answers step rs (answered (step r s)).2

@[simp] theorem length_answers {σ : Type} (step : ReadStep → EStateM Failure σ Answer)
    (steps : List ReadStep) (s : σ) : (answers step steps s).length = steps.length := by
  induction steps generalizing s with
  | nil => rfl
  | cons r steps ih => rw [answers, List.length_cons, ih, List.length_cons]

namespace Walk

variable {l : Lexed}

/-- A step on the stream does what it does on the list. -/
theorem agrees_step (ends : Ends l) {s : TokenStream} {q : Place} (isAt : s.IsAt l q)
    (g : Grammar) (r : ReadStep) : Agrees l (r.onStream g s) (r.onList g l q) := by
  have map {α : Type} {p : Parser α} {w : Walk α} (f : α → Answer) (h : Agrees l (p s) (w q)) :
      Agrees l ((f <$> p) s) ((f <$> w) q) := by
    rw [map_eq_pure_bind, map_eq_pure_bind]
    exact h.bind fun a _ _ isAt' _ => agrees_pure isAt' (f a)
  cases r with
  | peek n => exact map _ (agrees_peek isAt n)
  | next => exact map _ (agrees_next ends isAt)
  | last => exact ⟨by rw [isAt.last], isAt⟩
  | isAt kind => exact map _ (agrees_isAt isAt kind)
  | isAtWord word => exact map _ (agrees_isAtWord isAt word)
  | accept kind => exact map _ (agrees_accept? ends isAt kind)
  | acceptWord word => exact map _ (agrees_acceptWord? ends isAt word)
  | expect kind what => exact map _ (agrees_expect ends isAt g kind what)
  | expectWord word => exact map _ (agrees_expectWord ends isAt g word)
  | qualifiedName what => exact map _ (agrees_qualifiedName ends isAt g what)

/-- The answers are the same, and so is the state: the stream holds what is left of the list, and
the token consumed last. -/
def SameAnswer (l : Lexed) (asked : Except Failure Answer × TokenStream)
    (given : Except Failure Answer × Place) : Prop :=
  asked.1 = given.1 ∧ asked.2.IsBehind l given.2

/-- The answer is a lexical error. -/
def Surfaces (given : Except Failure Answer × Place) : Prop :=
  ∃ e, given.1 = .error e ∧ e.IsLexical

/-- A step has the same answer on both sides.  Unless it is the lexical error behind the tokens,
both can go on. -/
theorem Agrees.answered {x : EStateM.Result Failure TokenStream Answer}
    {y : EStateM.Result Failure Place Answer} (h : Agrees l x y) :
    SameAnswer l (answered x) (answered y) ∧
      (¬ Surfaces (answered y) ∧ (answered x).2.IsAt l (answered y).2 ∨
        Surfaces (answered y) ∧ l.failure ≠ none) := by
  cases x <;> cases y
  case ok.ok a s b q =>
    obtain ⟨rfl, isAt⟩ := h
    refine ⟨⟨rfl, isAt.toIsBehind⟩, .inl ⟨?_, isAt⟩⟩
    rintro ⟨e, he, -⟩
    cases he
  case error.error e s f q =>
    obtain ⟨rfl, isBehind, ⟨notLexical, isAt⟩ | ⟨lexical, hsome⟩⟩ := h
    · refine ⟨⟨rfl, isBehind⟩, .inl ⟨?_, isAt⟩⟩
      rintro ⟨f, hf, lexical⟩
      cases hf
      exact notLexical lexical
    · exact ⟨⟨rfl, isBehind⟩, .inr ⟨⟨e, rfl, lexical⟩, hsome⟩⟩
  all_goals exact h.elim

/-- No lexical error surfaces where none stands behind the tokens. -/
theorem not_surfaces (ends : Ends l) (hnone : l.failure = none) (g : Grammar)
    (steps : List ReadStep) {s : TokenStream} {q : Place} (isAt : s.IsAt l q) :
    ∀ given ∈ answers (·.onList g l) steps q, ¬ Surfaces given := by
  induction steps generalizing s q with
  | nil => exact fun _ => (nomatch ·)
  | cons r steps ih =>
      obtain ⟨-, ⟨notLexical, isAt'⟩ | ⟨-, hsome⟩⟩ := (agrees_step ends isAt g r).answered
      · intro given hgiven
        rcases List.mem_cons.mp hgiven with rfl | hgiven
        · exact notLexical
        · exact ih isAt' given hgiven
      · exact absurd hnone hsome

/-- Up to the first lexical error, and that one included, the stream answers as the list does. -/
theorem sameAnswers (ends : Ends l) (g : Grammar) (steps : List ReadStep) (i : Nat)
    {s : TokenStream} {q : Place} (isAt : s.IsAt l q)
    (before : ∀ given ∈ (answers (·.onList g l) steps q).take i, ¬ Surfaces given) :
    List.Forall₂ (SameAnswer l) ((answers (·.onStream g) steps s).take (i + 1))
      ((answers (·.onList g l) steps q).take (i + 1)) := by
  induction steps generalizing s q i with
  | nil => exact .nil
  | cons r steps ih =>
      obtain ⟨same, next⟩ := (agrees_step ends isAt g r).answered
      rw [answers, answers, List.take_succ_cons, List.take_succ_cons]
      refine .cons same ?_
      cases i with
      | zero => exact .nil
      | succ i =>
          rw [answers, List.take_succ_cons] at before
          have notLexical := before _ (List.mem_cons_self ..)
          have isAt' := (next.resolve_right fun h => notLexical h.1).2
          exact ih i isAt' fun given hgiven => before given (List.mem_cons_of_mem _ hgiven)

theorem isAt_start (ends : Ends l) : (TokenStream.ofLexed l).IsAt l .start where
  tokens := rfl
  last := rfl
  failure := rfl
  inside hnone := by
    obtain ⟨e, hlast, -⟩ := ends hnone
    exact List.length_pos_of_ne_nil fun h => by simp [h] at hlast

end Walk

/-- Whatever a reader is asked, in whichever order, it answers as one does that has all the tokens
of the text before it and keeps its place among them.  If the text has a lexical error, this holds
of all steps up to the one that meets it, which ends as it ends there. -/
theorem stream_answers_as_list (file : String) (source : List Char) (g : Grammar)
    (steps : List ReadStep) :
    let l := Lexed.ofText file source
    let asked := answers (·.onStream g) steps (.ofText file source)
    let given := answers (·.onList g l) steps .start
    (l.failure = none → List.Forall₂ (Walk.SameAnswer l) asked given) ∧
      ∀ i, (∀ r ∈ given.take i, ¬ Walk.Surfaces r) →
        List.Forall₂ (Walk.SameAnswer l) (asked.take (i + 1)) (given.take (i + 1)) := by
  intro l asked given
  have ends : Walk.Ends l := Walk.ends_ofText file source
  have start := Walk.isAt_start ends
  have upTo := fun i => Walk.sameAnswers ends g steps i start
  refine ⟨fun hnone => ?_, upTo⟩
  have whole := upTo steps.length fun r hr =>
    Walk.not_surfaces ends hnone g steps start r (List.mem_of_mem_take hr)
  rwa [List.take_of_length_le (by simp), List.take_of_length_le (by simp)] at whole

end Proto2

import Proto2.Token.Basic

/-!
Brackets and how they nest.

Braces and square brackets are matched from left to right: an opening one waits on a stack, and a
closing one has to close the one that waits on top of it.  What is left on the stack behind a text
are its unclosed brackets, the innermost on top.
-/

namespace Proto2

/-- The kind of the bracket that closes one of this kind. -/
def TokenKind.closer? : TokenKind → Option TokenKind
  | .openBrace => some .closeBrace
  | .openBracket => some .closeBracket
  | _ => none

/-- Whether the kind is one of those that are matched with each other. -/
def TokenKind.isBracket (kind : TokenKind) : Bool :=
  kind = .openBrace || kind = .closeBrace || kind = .openBracket || kind = .closeBracket

namespace Brackets

/-- The brackets that wait to be closed, behind one more token.  There are none if the token closes
another bracket than the last one of them. -/
def step (stack : List Token) (t : Token) : Option (List Token) :=
  if t.kind.closer?.isSome then some (t :: stack)
  else if t.kind.isBracket then
    match stack with
    | o :: rest => if o.kind.closer? = some t.kind then some rest else none
    | [] => none
  else some stack

/-- The brackets that wait to be closed behind some tokens, given those before them. -/
def unclosed (stack : List Token) (ts : List Token) : Option (List Token) :=
  ts.foldlM step stack

/-- The bracket is the last one in the text that is not closed: brackets before it may be, and those
behind it are closed by one another. -/
def IsInnermost (text : List Token) (o : Token) : Prop :=
  ∃ before behind outer, text = before ++ o :: behind ∧ o.kind.closer?.isSome ∧
    unclosed [] before = some outer ∧ unclosed [] behind = some []

variable {stack rest ts us : List Token} {o c t : Token}

/-! ### One token -/

theorem step_open (opens : t.kind.closer?.isSome = true) : step stack t = some (t :: stack) := by
  unfold step
  rw [if_pos opens]

theorem step_close (closes : o.kind.closer? = some c.kind) : step (o :: stack) c = some stack := by
  obtain ⟨hopen, hbracket⟩ : c.kind.closer?.isSome = false ∧ c.kind.isBracket = true := by
    generalize c.kind = closer at closes
    cases hkind : o.kind <;> rw [hkind] at closes <;> cases closes <;> decide
  simp [step, hopen, hbracket, closes]

theorem step_other (other : t.kind.isBracket = false) : step stack t = some stack := by
  have hopen : t.kind.closer?.isSome = false := by
    revert other
    cases t.kind <;> decide
  simp [step, hopen, other]

/-- A token opens a bracket, closes the last one, or is no bracket. -/
theorem step_cases (h : step stack t = some rest) :
    (t.kind.closer?.isSome = true ∧ rest = t :: stack) ∨
      (∃ o, o.kind.closer? = some t.kind ∧ stack = o :: rest) ∨
      (t.kind.isBracket = false ∧ rest = stack) := by
  unfold step at h
  split at h
  case isTrue hopen =>
    cases h
    exact .inl ⟨hopen, rfl⟩
  split at h
  case isTrue =>
    split at h
    case h_1 o rest' =>
      split at h <;> cases h
      rename_i closes
      exact .inr (.inl ⟨o, closes, rfl⟩)
    case h_2 => cases h
  case isFalse hother =>
    cases h
    exact .inr (.inr ⟨by simpa using hother, rfl⟩)

/-! ### Several tokens -/

theorem unclosed_append :
    unclosed stack (ts ++ us) = (unclosed stack ts).bind fun stack' => unclosed stack' us :=
  List.foldlM_append

theorem unclosed_singleton : unclosed stack [t] = step stack t := by
  simp [unclosed, List.foldlM]

theorem unclosed_append_of_eq {stack' : List Token} (h : unclosed stack ts = some stack') :
    unclosed stack (ts ++ us) = unclosed stack' us := by
  rw [unclosed_append, h, Option.bind_some]

/-- Brackets that wait below those that are matched stay where they are. -/
theorem unclosed_frame {stack' : List Token} (h : unclosed stack ts = some stack')
    (below : List Token) : unclosed (stack ++ below) ts = some (stack' ++ below) := by
  induction ts generalizing stack with
  | nil =>
      cases h
      rfl
  | cons t ts ih =>
      rw [← List.singleton_append, unclosed_append, Option.bind_eq_some_iff] at h ⊢
      obtain ⟨mid, hstep, hrest⟩ := h
      refine ⟨mid ++ below, ?_, ih hrest⟩
      rw [unclosed_singleton] at hstep ⊢
      obtain ⟨hopen, rfl⟩ | ⟨o, closes, rfl⟩ | ⟨hother, rfl⟩ := step_cases hstep
      · exact step_open hopen
      · exact step_close closes
      · exact step_other hother

/-- The last bracket that waits stands somewhere in the text, and those behind it are closed. -/
theorem exists_of_unclosed (h : unclosed [] ts = some (o :: rest)) :
    ∃ before behind, ts = before ++ o :: behind ∧ o.kind.closer?.isSome = true ∧
      unclosed [] before = some rest ∧ unclosed [] behind = some [] := by
  -- Behind a closing bracket, the search goes on before the bracket that it closes.
  induction hlength : ts.length using Nat.strongRecOn generalizing ts o rest with
  | ind n ih =>
      subst hlength
      rcases List.eq_nil_or_concat ts with rfl | ⟨ts, t, heq⟩
      · cases h
      · rw [List.concat_eq_append] at heq
        subst heq
        have hlt : ts.length < (ts ++ [t]).length := by simp
        rw [unclosed_append, Option.bind_eq_some_iff] at h
        obtain ⟨mid, hmid, hstep⟩ := h
        rw [unclosed_singleton] at hstep
        obtain ⟨hopen, heq⟩ | ⟨u, closes, rfl⟩ | ⟨hother, rfl⟩ := step_cases hstep
        · obtain ⟨rfl, rfl⟩ := List.cons.inj heq
          exact ⟨ts, [], rfl, hopen, hmid, rfl⟩
        · obtain ⟨before, inside, rfl, -, hbefore, hinside⟩ := ih _ hlt hmid rfl
          have hlt' : before.length < (before ++ u :: inside ++ [t]).length := by simp
          obtain ⟨first, behind, rfl, hopen, hfirst, hbehind⟩ := ih _ hlt' hbefore rfl
          refine ⟨first, behind ++ (u :: inside ++ [t]), by simp, hopen, hfirst, ?_⟩
          have hopened : unclosed [] [u] = some [u] :=
            unclosed_singleton.trans (step_open (by rw [closes]; rfl))
          have hframed : unclosed [u] inside = some [u] := unclosed_frame hinside [u]
          rw [unclosed_append_of_eq hbehind, ← List.singleton_append, List.append_assoc,
            unclosed_append_of_eq hopened, unclosed_append_of_eq hframed, unclosed_singleton,
            step_close closes]
        · obtain ⟨before, behind, rfl, hopen, hbefore, hbehind⟩ := ih _ hlt hmid rfl
          refine ⟨before, behind ++ [t], by simp, hopen, hbefore, ?_⟩
          rw [unclosed_append_of_eq hbehind, unclosed_singleton, step_other hother]

/-- The innermost unclosed bracket is the one on top of those that wait behind the text. -/
theorem isInnermost_iff : IsInnermost ts o ↔ ∃ outer, unclosed [] ts = some (o :: outer) := by
  constructor
  · rintro ⟨before, behind, outer, rfl, hopen, hbefore, hbehind⟩
    have hopened : unclosed outer [o] = some (o :: outer) :=
      unclosed_singleton.trans (step_open hopen)
    refine ⟨outer, ?_⟩
    rw [unclosed_append_of_eq hbefore, ← List.singleton_append, unclosed_append_of_eq hopened]
    exact unclosed_frame hbehind (o :: outer)
  · rintro ⟨outer, h⟩
    obtain ⟨before, behind, htext, hopen, hbefore, hbehind⟩ := exists_of_unclosed h
    exact ⟨before, behind, outer, htext, hopen, hbefore, hbehind⟩

/-- There is at most one innermost unclosed bracket. -/
theorem IsInnermost.unique {u : Token} (h : IsInnermost ts o) (h' : IsInnermost ts u) : o = u := by
  obtain ⟨outer, ho⟩ := isInnermost_iff.mp h
  obtain ⟨outer', hu⟩ := isInnermost_iff.mp h'
  exact (List.cons.inj (Option.some.inj (ho.symm.trans hu))).1

end Brackets

end Proto2

import Proto2.Proofs.Schema.Passage
import Proto2.Proofs.Token.Continued

/-!
Parsing comes to an end.

Every round of the lexer takes a character or is the last one.  Every round of a loop of the parser
passes over a token or is the last one, and so does every value, setting and message that is read
inside another, whatever tokens there are.  The end of the input is never passed over.  So the loops
end, and the bounds on their rounds, which grow with the number of tokens, are not used up.
-/

namespace Proto2

/-! ### The lexer -/

namespace Lexed

/-- A round of the lexer, at a place in a gap: the text ends, or the lexer stops with an error, or
it goes on where less of the text is left, with a token read or a piece of the gap passed. -/
def Advances (file : String) (lastLine : Nat) (waiting : List Comment) (c : Cursor) : Prop :=
  (c.rest = [] ∧ resume file lastLine waiting c =
      ⟨[⟨.endOfInput, "", c.span file 0, waiting⟩], none⟩) ∨
    (∃ e, resume file lastLine waiting c = ⟨[], some e⟩) ∨
    ∃ n lastLine' waiting' ts, (c.advance n).rest.length < c.rest.length ∧ ts.length ≤ 1 ∧
      resume file lastLine waiting c = (resume file lastLine' waiting' (c.advance n)).behind ts

variable {file : String} {lastLine : Nat} {waiting : List Comment} {c : Cursor}

/-- Where a token starts, the text ends, or a token is read, or none can be. -/
theorem advances_of_next_done (h : Gap.next c.rest = .done) :
    Advances file lastLine waiting c := by
  obtain ⟨rest, position⟩ := c
  unfold Advances
  rw [resume_of_next_done h]
  cases rest with
  | nil => exact .inl ⟨rfl, rfl⟩
  | cons ch cs =>
      cases hscan : Lexeme.scan ch cs with
      | error e => exact .inr (.inl ⟨_, by simp only [readAt, hscan]; rfl⟩)
      | ok s =>
          have hpos := Lexeme.scan_length_pos hscan
          rw [readAt_of_scan hscan]
          refine .inr (.inr ⟨s.length, _, _, [_], ?_, Nat.le_refl 1, rfl⟩)
          rw [Cursor.length_rest_advance, List.length_cons]
          omega

/-- One round per piece of a gap, and one per token. -/
theorem advances (file : String) (lastLine : Nat) (waiting : List Comment) (c : Cursor) :
    Advances file lastLine waiting c := by
  cases h : Gap.next c.rest with
  | done => exact advances_of_next_done h
  | unterminated =>
      refine .inr (.inl ?_)
      rw [resume, Gap.readFrom_of_next_unterminated h]
      exact ⟨_, rfl⟩
  | blanks n =>
      have hpos := Gap.next_blanks_pos h
      refine .inr (.inr ⟨n, lastLine, _, [], ?_, Nat.zero_le 1, resume_of_next_blanks h⟩)
      rw [Cursor.length_rest_advance]
      omega
  | comment block n =>
      have hpos := Gap.next_comment_pos h
      refine .inr (.inr ⟨n, lastLine, _, [], ?_, Nat.zero_le 1, resume_of_next_comment h⟩)
      rw [Cursor.length_rest_advance]
      omega

end Lexed

namespace Parser

/-! ### The loops of the parser -/

/-- A round of the loop.  Whatever rounds are left after it, the loop is over, with a result or an
error, or it goes on with fewer of the tokens ahead; what was passed over is not the end of the
input. -/
def Loop.Advances {σ α : Type} (L : Loop σ α) (s : σ) (l : Lexed) : Prop :=
  (∃ r, r ≠ .error .outOfBudget ∧ ∀ n, (L.run (n + 1) s).outcome l = r) ∨
    ∃ s' l' add, Onward 0 l.tokens l'.tokens ∧ Onward 1 (L.ahead s l) (L.ahead s' l') ∧
      ∀ n, (L.run (n + 1) s).outcome l = ((L.run n s').outcome l').map (Prod.map add id)

theorem Passes.ne_outOfBudget {α : Type} {n : Nat} {stack after : List Token} {p : Parser α}
    {l : Lexed} (h : Passes n stack after p l) : p.outcome l ≠ .error .outOfBudget := by
  intro hout
  rw [Passes, Proceeds, hout] at h
  exact h.1 rfl

theorem Loop.Round.advances {σ α : Type} {L : Loop σ α} {base after : List Token} {s : σ}
    {l : Lexed} (h : L.Round base after (L.ahead s l) base l fun n => L.run (n + 1) s) :
    L.Advances s l := by
  cases h with
  | stops same passes => exact .inl ⟨_, passes.ne_outOfBudget, same⟩
  | @again s' l' passed add tokens inText nest further goesOn =>
      exact .inr ⟨s', l', add, .of_append tokens inText, further, goesOn⟩

/-- The loops of the parser: that over the items of a file, those over bodies, over what stands
between brackets or commas, over names and adjacent strings, and the one that looks for a setting.
Where values or messages nest, the depth that is left to them is more than the given size. -/
inductive IsLoop (size : Nat) : {σ α : Type} → Loop σ α → Prop
  | file : IsLoop size fileLoop
  | message {opened : Token} {scope : Scope} {name : String} {depth : Nat}
      (kind : opened.kind = .openBrace) (deep : size < depth) :
      IsLoop size (itemsLoop .closeBrace
        (bodyStep opened (messageItem (messageWithin depth) scope name)))
  | enumeration {opened : Token} {name : String} (kind : opened.kind = .openBrace) :
      IsLoop size (itemsLoop .closeBrace (bodyStep opened (enumItem name)))
  | service {opened : Token} {name : String} (kind : opened.kind = .openBrace) :
      IsLoop size (itemsLoop .closeBrace (bodyStep opened (serviceItem name)))
  | rpc {opened : Token} {name : String} (kind : opened.kind = .openBrace) :
      IsLoop size (itemsLoop .closeBrace (bodyStep opened (rpcItem name)))
  | extension {opened : Token} {name : String} (kind : opened.kind = .openBrace) :
      IsLoop size (itemsLoop .closeBrace (bodyStep opened (extendItem name)))
  | extensionRanges {doc : String} : IsLoop size (separatedLoop (extensionRange doc))
  | bracketedSettings {opened : Token} (kind : opened.kind = .openBracket) :
      IsLoop size (itemsLoop .closeBracket (settingStep opened))
  | list {opened : Token} {depth : Nat} (kind : opened.kind = .openBracket) (deep : size < depth) :
      IsLoop size (itemsLoop .closeBracket (listStep (valueWithin depth) opened))
  | aggregate {opened : Token} {depth : Nat} (kind : opened.kind = .openBrace)
      (deep : size < depth) :
      IsLoop size (itemsLoop .closeBrace (entryStep (valueWithin depth) opened))
  | nameParts : IsLoop size namePartsLoop
  | moreNameParts : IsLoop size morePartsLoop
  | stringLiterals : IsLoop size stringsLoop
  | lookahead : IsLoop size lookaheadLoop

/-- A body, between braces. -/
theorem round_bodyLoop {α : Type} {opened : Token} {item : Token → Parser α}
    [∀ t, TokenDriven (item t)] {l : Lexed} (kind : opened.kind = .openBrace)
    (each : ∀ l' t rest, l'.tokens.length ≤ l.tokens.length → l'.tokens = t :: rest →
      Passes 1 [opened] [opened] (item t) l') :
    (itemsLoop .closeBrace (bodyStep opened item)).Round [opened] [] l.tokens [opened] l fun n =>
      itemsWithin .closeBrace (bodyStep opened item) (n + 1) := by
  refine round_itemsLoop (by rw [kind]; rfl) fun l₁ h₁ => ?_
  refine passes_bodyStep kind fun l₂ t rest h₂ hcons => each l₂ t rest ?_ hcons
  rwa [h₁] at h₂

theorem IsLoop.round {size : Nat} {σ α : Type} {L : Loop σ α} (h : IsLoop size L) :
    ∃ base after, ∀ s l, l.tokens.length ≤ size →
      L.Round base after (L.ahead s l) base l fun n => L.run (n + 1) s := by
  cases h with
  | file => exact ⟨[], [], fun _ _ _ => round_fileLoop⟩
  | message kind deep =>
      exact ⟨_, _, fun _ l hl => round_bodyLoop kind fun l₁ t rest h₁ hcons =>
        passes_messageItem hcons (passes_messageWithin (by omega))⟩
  | enumeration kind =>
      exact ⟨_, _, fun _ l hl => round_bodyLoop kind fun l₁ t rest h₁ hcons =>
        passes_enumItem hcons⟩
  | service kind =>
      exact ⟨_, _, fun _ l hl => round_bodyLoop kind fun l₁ t rest h₁ hcons =>
        passes_serviceItem hcons⟩
  | rpc kind =>
      exact ⟨_, _, fun _ l hl => round_bodyLoop kind fun l₁ t rest h₁ hcons =>
        passes_rpcItem hcons⟩
  | extension kind =>
      exact ⟨_, _, fun _ l hl => round_bodyLoop kind fun l₁ t rest h₁ hcons =>
        passes_extendItem hcons⟩
  | extensionRanges => exact ⟨[], [], fun _ _ _ => round_separatedLoop passes_extensionRange⟩
  | @bracketedSettings opened kind =>
      exact ⟨[opened], [], fun _ _ _ =>
        round_itemsLoop (by rw [kind]; rfl) fun _ _ => passes_settingStep⟩
  | @list opened depth kind deep =>
      exact ⟨[opened], [], fun _ l hl => round_itemsLoop (by rw [kind]; rfl) fun l₁ h₁ =>
        passes_listStep fun l₂ h₂ => passes_valueWithin (by rw [h₁] at h₂; omega)⟩
  | @aggregate opened depth kind deep =>
      exact ⟨[opened], [], fun _ l hl => round_itemsLoop (by rw [kind]; rfl) fun l₁ h₁ =>
        passes_entryStep fun l₂ h₂ => passes_valueWithin (by rw [h₁] at h₂; omega)⟩
  | nameParts => exact ⟨[], [], fun _ _ _ => round_namePartsLoop⟩
  | moreNameParts => exact ⟨[], [], fun _ _ _ => round_morePartsLoop⟩
  | stringLiterals => exact ⟨[], [], fun _ _ _ => round_stringsLoop⟩
  | lookahead => exact ⟨[], [], fun _ _ _ => round_lookaheadLoop⟩

/-! ### What nests -/

/-- Whatever is read at the tokens, it fails, or at least one token is passed over. -/
def StepsOnward {α : Type} (p : Parser α) (l : Lexed) : Prop :=
  match p.outcome l with
  | .ok (_, l') => Onward 1 l.tokens l'.tokens
  | .error e => e ≠ .outOfBudget

theorem Passes.stepsOnward {α : Type} {stack after : List Token} {p : Parser α} {l : Lexed}
    (h : Passes 1 stack after p l) : StepsOnward p l := by
  unfold Passes Proceeds at h
  unfold StepsOnward
  cases hout : p.outcome l with
  | ok r =>
      rw [hout] at h
      obtain ⟨passed, -, htokens, hends, -, -, hle⟩ := h
      exact ⟨passed, htokens, hends, hle⟩
  | error e =>
      rw [hout] at h
      exact h.1

/-- The parsers that are called for what nests: values, settings and messages, to a depth that is
more than the given size or is set at the first of them. -/
inductive IsCall (size : Nat) : {α : Type} → Parser α → Prop
  | valueWithin {depth : Nat} (deep : size < depth) : IsCall size (valueWithin depth)
  | settingWith {depth : Nat} (deep : size < depth) : IsCall size (settingWith (valueWithin depth))
  | messageWithin {depth : Nat} {scope : Scope} (deep : size < depth) :
      IsCall size (messageWithin depth scope)
  | value : IsCall size value
  | setting : IsCall size setting
  | message {scope : Scope} : IsCall size (message scope)

theorem IsCall.stepsOnward {size : Nat} {α : Type} {p : Parser α} (h : IsCall size p) {l : Lexed}
    (within : l.tokens.length ≤ size) : StepsOnward p l := by
  have hpasses : Passes 1 [] [] p l := by
    cases h with
    | valueWithin deep => exact passes_valueWithin (by omega)
    | settingWith deep => exact passes_settingWith fun _ hlt => passes_valueWithin (by omega)
    | messageWithin deep => exact passes_messageWithin (by omega)
    | value => exact passes_value
    | setting => exact passes_setting
    | message => exact passes_message
  exact hpasses.stepsOnward

/-! ### Parsing -/

/-- Parsing ends, because it goes on.  A text is read in rounds of the lexer, each of which takes a
character or is the last one.  On any tokens, a round of any loop of the parser is the last one, or
passes over a token and not over the end of the input.  So the rounds do not run out if there are
more of them than tokens, and any more make no difference; the bound that is set is one more than
the tokens.  What nests passes over a token or fails.  So every file is read to a result, and no
bound is used up. -/
theorem parsing_advances :
    (∀ file source, Lexed.ofText file source = Lexed.resume file 0 [] ⟨source, .start⟩) ∧
      (∀ file lastLine waiting c, Lexed.Advances file lastLine waiting c) ∧
      (∀ (σ α : Type) (L : Loop σ α) (s : σ) (l : Lexed), IsLoop l.tokens.length L →
        L.Advances s l ∧ ∀ n, (L.ahead s l).length < n →
          (L.run n s).outcome l ≠ .error .outOfBudget ∧
            ∀ m, n ≤ m → (L.run m s).outcome l = (L.run n s).outcome l) ∧
      (∀ (α : Type) (p : Parser α) (l : Lexed), IsCall l.tokens.length p → StepsOnward p l) ∧
      (∀ l, budget.outcome l = .ok (l.tokens.length + 1, l)) ∧
      (∀ fileName l, (file fileName).outcome l ≠ .error .outOfBudget) ∧
      ∀ fileName source, SchemaFile.parse fileName source ≠ .error .outOfBudget := by
  have hfile (fileName : String) (l : Lexed) : (file fileName).outcome l ≠ .error .outOfBudget := by
    have hpasses : Passes 0 [] [] (file fileName) l := passes_file
    exact hpasses.ne_outOfBudget
  refine ⟨fun file source => Lexed.readFrom_eq_resume file 0 _, Lexed.advances, ?_, ?_, ?_, ?_, ?_⟩
  · intro σ α L s l hloop
    obtain ⟨base, after, hround⟩ := hloop.round
    refine ⟨(hround s l (Nat.le_refl _)).advances, fun n hn => ?_⟩
    exact ⟨(Loop.passes hround hn).ne_outOfBudget, fun m hm => Loop.outcome_eq hround hn hm⟩
  · exact fun α p l hcall => hcall.stepsOnward (Nat.le_refl _)
  · exact fun l => rfl
  · exact hfile
  · exact fun fileName source hparse => hfile _ _ (SchemaFile.outcome_of_parse_error hparse)

/-- The list goes on over five tokens, the last of which is the end of the input. -/
theorem parsing_advances_in_list :
    let opened : Token := ⟨.openBracket, "[", ⟨"a.proto", ⟨0, 1, 1⟩, ⟨1, 1, 2⟩⟩, []⟩
    let l := Lexed.ofText "a.proto" "b, c]".toList
    let L := itemsLoop .closeBracket (listStep (valueWithin 6) opened)
    l.tokens.length = 5 ∧ L.Advances () l ∧ (L.run 6 ()).outcome l ≠ .error .outOfBudget ∧
      (∀ m, 6 ≤ m → (L.run m ()).outcome l = (L.run 6 ()).outcome l) ∧
      StepsOnward (valueWithin 6) l := by
  intro opened l L
  have hlength : l.tokens.length = 5 := by decide +kernel
  have hdeep : l.tokens.length < 6 := by omega
  obtain ⟨-, -, hloops, hcalls, -⟩ := parsing_advances
  obtain ⟨hround, hbound⟩ := hloops _ _ L () l (.list rfl hdeep)
  obtain ⟨hresult, hsame⟩ := hbound 6 hdeep
  exact ⟨hlength, hround, hresult, hsame, hcalls _ _ l (.valueWithin hdeep)⟩

end Parser

end Proto2

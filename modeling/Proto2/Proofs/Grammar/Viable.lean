import Proto2.Proofs.Setting.Grammar
import Proto2.Proofs.Token.Lexed
import Proto2.Proofs.Token.Scan

/-!
Beginnings of what the grammar derives.

Tokens are viable for a phrase if more tokens can be put behind them so that the phrase derives
the whole.  What is put behind them is made of tokens that can be read from a text, and denotes
something where it is interpreted.

A beginning of the first of two phrases is a beginning of both, as long as the second derives
anything at all.  Every category of the grammar does, which is seen by looking for the ones whose
rule needs no other category, then for those whose rule needs these only, and so on.
-/

namespace Proto2

/-! ### A token for each terminal -/

/-- A text for each kind of token. -/
def TokenKind.sampleText : TokenKind → String
  | .identifier => "x"
  | .integer => "0"
  | .float => "0.0"
  | .string => ""
  | kind => kind.shown

/-- A token of a kind, of which the place does not matter. -/
def Token.sample (kind : TokenKind) (lexeme : String) : Token :=
  ⟨kind, lexeme, ⟨"", .start, .start⟩, []⟩

theorem Token.isScanned_sample {kind : TokenKind} (some : kind ≠ .endOfInput) :
    Lexed.IsScanned (sample kind kind.sampleText) := by
  cases kind with
  | endOfInput => exact absurd rfl some
  | identifier => exact ⟨'x', [], ⟨.identifier, ['x'], 1⟩, rfl, rfl, rfl⟩
  | integer => exact ⟨'0', [], ⟨.integer, ['0'], 1⟩, rfl, rfl, rfl⟩
  | float => exact ⟨'0', ['.', '0'], ⟨.float, ['0', '.', '0'], 3⟩, rfl, rfl, rfl⟩
  | string => exact ⟨'"', ['"'], ⟨.string, [], 2⟩, rfl, rfl, rfl⟩
  | openBrace => exact ⟨'\x7b', [], ⟨.openBrace, ['\x7b'], 1⟩, rfl, rfl, rfl⟩
  | closeBrace => exact ⟨'\x7d', [], ⟨.closeBrace, ['\x7d'], 1⟩, rfl, rfl, rfl⟩
  | openBracket => exact ⟨'[', [], ⟨.openBracket, ['['], 1⟩, rfl, rfl, rfl⟩
  | closeBracket => exact ⟨']', [], ⟨.closeBracket, [']'], 1⟩, rfl, rfl, rfl⟩
  | openParen => exact ⟨'(', [], ⟨.openParen, ['('], 1⟩, rfl, rfl, rfl⟩
  | closeParen => exact ⟨')', [], ⟨.closeParen, [')'], 1⟩, rfl, rfl, rfl⟩
  | semicolon => exact ⟨';', [], ⟨.semicolon, [';'], 1⟩, rfl, rfl, rfl⟩
  | comma => exact ⟨',', [], ⟨.comma, [','], 1⟩, rfl, rfl, rfl⟩
  | dot => exact ⟨'.', [], ⟨.dot, ['.'], 1⟩, rfl, rfl, rfl⟩
  | equals => exact ⟨'=', [], ⟨.equals, ['='], 1⟩, rfl, rfl, rfl⟩
  | colon => exact ⟨':', [], ⟨.colon, [':'], 1⟩, rfl, rfl, rfl⟩

theorem Token.hasValue_sample (kind : TokenKind) : (sample kind kind.sampleText).HasValue := by
  constructor
  · intro h
    have h : kind = .string := h
    subst h
    refine ⟨"", ?_⟩
    show (StringBody.decode (StringBody.encode [])).map String.ofList = .ok ""
    rw [StringBody.decode_encode]
    rfl
  · intro h
    have h : kind = .integer := h
    subst h
    exact ⟨0, rfl⟩

namespace Terminal

/-- Whether a token can stand for the terminal, as far as that is seen at once: for a choice of
words, one of them must be an identifier. -/
def isProductive : Terminal → Bool
  | kind k => k ≠ .endOfInput
  | literal k => k ≠ .endOfInput
  | word among => among.any fun w =>
      w.toList.head?.any Lexeme.isIdentifierStart && w.toList.tail.all Lexeme.isIdentifierPart
  | identifierExcept words => "x" ∉ words

theorem exists_admits {x : Terminal} (h : x.isProductive = true) :
    ∃ t, Lexed.IsScanned t ∧ x.Admits Token.HasValue t := by
  cases x with
  | kind k =>
      have hk : k ≠ .endOfInput := by simpa [isProductive] using h
      exact ⟨_, Token.isScanned_sample hk, rfl⟩
  | literal k =>
      have hk : k ≠ .endOfInput := by simpa [isProductive] using h
      exact ⟨_, Token.isScanned_sample hk, rfl, Token.hasValue_sample k⟩
  | word among =>
      obtain ⟨w, hw, hform⟩ := List.any_eq_true.mp h
      rw [Bool.and_eq_true, Option.any_eq_true] at hform
      obtain ⟨⟨c, hc, hstart⟩, hrest⟩ := hform
      obtain ⟨cs, hcs⟩ := List.head?_eq_some_iff.mp hc
      rw [hcs, List.tail_cons] at hrest
      have hspells := Lexeme.IdentifierForm.spells
        ⟨c, cs, hcs, hstart, List.all_eq_true.mp hrest⟩
      obtain ⟨d, ds, htext, -⟩ := hspells.start
      exact ⟨.sample .identifier w, ⟨d, ds ++ [], _, hspells.scans d ds [] htext (by simp), rfl,
        String.ofList_toList.symm⟩, rfl, hw⟩
  | identifierExcept words =>
      have hx : "x" ∉ words := by simpa [isProductive] using h
      exact ⟨_, Token.isScanned_sample (by decide : TokenKind.identifier ≠ _), rfl, hx⟩

end Terminal

namespace Phrase

/-! ### Viable beginnings -/

/-- The tokens can be continued to a sequence that the phrase derives. -/
def Viable (p : Phrase) (ts : List Token) : Prop :=
  ∃ rest, (∀ t ∈ rest, Lexed.IsScanned t) ∧ Derives Token.HasValue p (ts ++ rest)

section

variable {p q : Phrase} {ts us : List Token}

theorem Viable.mono (h : p.Viable ts)
    (weaker : ∀ {us}, Derives Token.HasValue p us → Derives Token.HasValue q us) : q.Viable ts := by
  obtain ⟨rest, hscanned, hderives⟩ := h
  exact ⟨rest, hscanned, weaker hderives⟩

/-- What begins the first of two phrases begins both, if the second one derives anything. -/
theorem Viable.append_left (h : p.Viable ts) (other : q.Viable []) : (p ++ q).Viable ts := by
  obtain ⟨rest, hscanned, hderives⟩ := h
  obtain ⟨rest', hscanned', hderives'⟩ := other
  refine ⟨rest ++ rest', ?_, ?_⟩
  · rw [List.forall_mem_append]
    exact ⟨hscanned, hscanned'⟩
  · rw [← List.append_assoc]
    exact .both hderives hderives'

theorem Viable.append_right (first : Derives Token.HasValue p ts) (h : q.Viable us) :
    (p ++ q).Viable (ts ++ us) := by
  obtain ⟨rest, hscanned, hderives⟩ := h
  refine ⟨rest, hscanned, ?_⟩
  rw [List.append_assoc]
  exact .both first hderives

theorem Viable.left (h : p.Viable ts) : (p ||| q).Viable ts :=
  h.mono .left

theorem Viable.right (h : q.Viable ts) : (p ||| q).Viable ts :=
  h.mono .right

theorem Viable.category {c : Category} (h : c.rule.Viable ts) : (Phrase.category c).Viable ts :=
  h.mono .category

theorem Viable.many (h : p.Viable ts) : (Phrase.many p).Viable ts := by
  obtain ⟨rest, hscanned, hderives⟩ := h
  refine ⟨rest, hscanned, ?_⟩
  rw [← List.append_nil (ts ++ rest)]
  exact .more hderives .none

theorem viable_terminal {x : Terminal} (h : x.isProductive = true) : (terminal x).Viable [] := by
  obtain ⟨t, hscanned, hadmits⟩ := x.exists_admits h
  refine ⟨[t], ?_, .terminal hadmits⟩
  rintro u hu
  rwa [List.mem_singleton.mp hu]

end

/-! ### Phrases that derive something -/

/-- Whether the phrase derives something, as far as that is seen from the given categories. -/
def derivesBy (known : Category → Bool) : Phrase → Bool
  | empty => true
  | terminal x => x.isProductive
  | category c => known c
  | both p q => p.derivesBy known && q.derivesBy known
  | either p q => p.derivesBy known || q.derivesBy known
  | many _ => true

theorem viable_of_derivesBy {known : Category → Bool}
    (sound : ∀ c, known c = true → (category c).Viable []) {p : Phrase}
    (h : p.derivesBy known = true) : p.Viable [] := by
  induction p with
  | empty => exact ⟨[], List.forall_mem_nil _, .empty⟩
  | terminal x => exact viable_terminal h
  | category c => exact sound c h
  | both p q ihp ihq =>
      rw [derivesBy, Bool.and_eq_true] at h
      exact (ihp h.1).append_left (ihq h.2)
  | either p q ihp ihq =>
      rw [derivesBy, Bool.or_eq_true] at h
      rcases h with h | h
      · exact (ihp h).left
      · exact (ihq h).right
  | many p => exact ⟨[], List.forall_mem_nil _, .none⟩

end Phrase

namespace Category

/-- Whether the category derives something by rules that are nested no deeper than given. -/
def derivesWithin : Nat → Category → Bool
  | 0, _ => false
  | n + 1, c => c.rule.derivesBy (derivesWithin n)

theorem viable_of_derivesWithin {n : Nat} {c : Category} (h : c.derivesWithin n = true) :
    (Phrase.category c).Viable [] := by
  induction n generalizing c with
  | zero => cases h
  | succ n ih => exact (Phrase.viable_of_derivesBy (fun _ => ih) h).category

/-- Every category of the grammar derives something. -/
theorem viable_nil (c : Category) : (Phrase.category c).Viable [] := by
  refine viable_of_derivesWithin (n := 5) ?_
  cases c <;> rfl

end Category

namespace Phrase

/-- The phrase derives something, which is seen from its terminals. -/
def IsProductive (p : Phrase) : Prop :=
  p.derivesBy (fun _ => true) = true

theorem IsProductive.viable {p : Phrase} (h : p.IsProductive) : p.Viable [] :=
  viable_of_derivesBy (fun c _ => c.viable_nil) h

end Phrase

end Proto2

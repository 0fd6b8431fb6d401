import Proto2.Proofs.Documentation
import Proto2.Proofs.Layout.Indent
import Proto2.Proofs.Parser.Basic

/-!
What the tokens of a written text say.

`Lays p cs q R` says that the pen writes the text from one state to the other, and that `R`
holds between any list of tokens that starts with those the text bears and the list behind them.
A text is laid piece by piece, and each piece adds what its token says.
-/

namespace Proto2

namespace Token

variable {t : Token} {kind : TokenKind} {lexeme : List Char} {comments : List (Bool × String)}

theorem kind_of_written (h : t.written = ⟨kind, lexeme, comments⟩) : t.kind = kind :=
  congrArg Written.kind h

theorem lexeme_of_written (h : t.written = ⟨kind, lexeme, comments⟩) :
    t.lexeme = String.ofList lexeme := by
  have hlexeme : t.lexeme.toList = lexeme := congrArg Written.lexeme h
  rw [← hlexeme, String.ofList_toList]

theorem isWord_of_written {word : String}
    (h : t.written = ⟨.identifier, word.toList, comments⟩) : t.isWord word = true := by
  simp [isWord, kind_of_written h, lexeme_of_written h]

theorem comments_of_written (h : t.written = ⟨kind, lexeme, comments⟩) :
    t.comments.map (fun c => (c.block, c.text)) = comments :=
  congrArg Written.comments h

end Token

/-- The pen writes a text, whose tokens are related to what stands behind them. -/
def Lays (p : Pen) (cs : List Char) (q : Pen) (R : List Token → List Token → Prop) : Prop :=
  ∃ ws, Writes p cs ws q ∧ ∀ ts us, ts.map Token.written = ws → R (ts ++ us) us

namespace Lays

variable {p q r : Pen} {cs ds : List Char} {R S : List Token → List Token → Prop}

theorem mono (h : Lays p cs q R) (imp : ∀ ts us, R ts us → S ts us) : Lays p cs q S := by
  obtain ⟨ws, hw, hR⟩ := h
  exact ⟨ws, hw, fun ts us hts => imp _ _ (hR ts us hts)⟩

theorem of_eq (h : Lays p cs q R) (text : ds = cs) : Lays p ds q R :=
  text ▸ h

theorem weaken (h : Lays p cs q R) (allows : q.Allows r) : Lays p cs r R := by
  obtain ⟨ws, hw, hR⟩ := h
  exact ⟨ws, hw.weaken allows, hR⟩

theorem allowed (h : Lays q cs r R) (allows : p.Allows q) : Lays p cs r R := by
  obtain ⟨ws, hw, hR⟩ := h
  exact ⟨ws, hw.mono allows, hR⟩

/-- Nothing is written, and the tokens behind it are all there are. -/
theorem done (p : Pen) : Lays p [] p fun ts us => ts = us := by
  refine ⟨[], .refl p, fun ts us hts => ?_⟩
  rw [List.map_eq_nil_iff.mp hts, List.nil_append]

theorem space (h : Lays p.spaced cs q R) : Lays p (' ' :: cs) q R := by
  obtain ⟨ws, hw, hR⟩ := h
  exact ⟨ws, .space hw, hR⟩

theorem newline (h : Lays p.ended cs q R) : Lays p ('\n' :: cs) q R := by
  obtain ⟨ws, hw, hR⟩ := h
  exact ⟨ws, .newline hw, hR⟩

theorem indent (h : Lays p cs q R) : Lays p (Text.indent cs) q R := by
  obtain ⟨ws, hw, hR⟩ := h
  exact ⟨ws, hw.indent, hR⟩

/-- One text and then another. -/
theorem append (h : Lays p cs q R) (h' : Lays q ds r S) :
    Lays p (cs ++ ds) r fun ts us => ∃ ms, R ts ms ∧ S ms us := by
  obtain ⟨ws, hw, hR⟩ := h
  obtain ⟨vs, hv, hS⟩ := h'
  refine ⟨ws ++ vs, hw.append hv, fun ts us hts => ?_⟩
  obtain ⟨ts, ms, rfl, hts, hms⟩ := List.map_eq_append_iff.mp hts
  exact ⟨ms ++ us, by rw [List.append_assoc]; exact hR ts _ hts, hS ms us hms⟩

/-- A token and then more. -/
theorem token {text lexeme : List Char} {kind : TokenKind}
    (spells : Lexeme.Spells text kind lexeme) (fits : ∀ c ∈ text.head?, p.Fits c)
    (h : Lays (.behind kind) cs q R) :
    Lays p (text ++ cs) q fun ts us =>
      ∃ t ms, ts = t :: ms ∧ t.written = ⟨kind, lexeme, p.comments⟩ ∧ R ms us := by
  obtain ⟨ws, hw, hR⟩ := h
  refine ⟨_, .token spells fits hw, fun ts us hts => ?_⟩
  obtain ⟨t, ms, rfl, ht, hms⟩ := List.map_eq_cons_iff.mp hts
  exact ⟨t, ms ++ us, rfl, ht, hR ms us hms⟩

/-- A symbol and then more. -/
theorem symbol {c : Char} {kind : TokenKind} (known : TokenKind.ofSymbol? c = some kind)
    (fits : p.Fits c) (h : Lays (.behind kind) cs q R) :
    Lays p (c :: cs) q fun ts us => ∃ t ms, ts = t :: ms ∧ t.kind = kind ∧ R ms us := by
  have hfits : ∀ d ∈ [c].head?, p.Fits d := by
    rintro _ ⟨⟩
    exact fits
  refine (token (Lexeme.spells_symbol known) hfits h).mono ?_
  rintro ts us ⟨t, ms, rfl, ht, hms⟩
  exact ⟨t, ms, rfl, Token.kind_of_written ht, hms⟩

end Lays

/-! ### Where tokens fit -/

namespace Pen

theorem fits_gap (c : Char) : gap.Fits c := by
  simp [Fits, gap]

theorem fits_under (comments : List (Bool × String)) (c : Char) : (under comments).Fits c := by
  simp [Fits, under]

theorem fits_line (c : Char) : line.Fits c :=
  fits_under [] c

theorem fits_behind {kind : TokenKind} {c : Char} (h : kind.mayPrecede c = true) :
    (behind kind).Fits c := by
  simpa [Fits, behind] using h

theorem behind_allows_behind {kind other : TokenKind}
    (h : ∀ c, other.mayPrecede c = true → kind.mayPrecede c = true) :
    (behind kind).Allows (behind other) :=
  ⟨rfl, rfl, fun c hc => fits_behind (h c (hc _ rfl))⟩

/-- What may follow a number may follow any token. -/
theorem behind_allows (kind : TokenKind) : (behind kind).Allows (behind .integer) := by
  refine behind_allows_behind fun c hnumber => ?_
  simp only [TokenKind.mayPrecede, Bool.and_eq_true, Bool.not_eq_true'] at hnumber
  cases kind with
  | identifier => simp [TokenKind.mayPrecede, hnumber.1]
  | integer => simpa [TokenKind.mayPrecede] using hnumber
  | float => simpa [TokenKind.mayPrecede] using hnumber
  | dot => simp [TokenKind.mayPrecede, Lexeme.isDigit_eq_false hnumber.1]
  | _ => rfl

end Pen

/-! ### Documentation -/

/-- A line of documentation after another. -/
theorem Writes.commentLines (comments : List (Bool × String)) {ls : List (List Char)}
    (oneLine : ∀ l ∈ ls, '\n' ∉ l) :
    Writes (.under comments) (ls.flatMap Layout.commentLine) []
      (.under (comments ++
        ls.map fun l => (false, String.ofList (Documentation.commentBody l)))) := by
  induction ls generalizing comments with
  | nil =>
      rw [List.map_nil, List.append_nil]
      exact .refl _
  | cons l ls ih =>
      have hl := oneLine l (by simp)
      obtain ⟨body, hbody, hline⟩ : ∃ body, Documentation.commentBody l = '/' :: '/' :: body ∧
          '\n' ∉ body := by
        unfold Documentation.commentBody
        split
        · exact ⟨[], rfl, List.not_mem_nil⟩
        · exact ⟨' ' :: l, rfl, by simpa using hl⟩
      have hrest := ih (comments ++ [(false, String.ofList (Documentation.commentBody l))])
        fun l hl => oneLine l (by simp [hl])
      rw [List.append_assoc, List.singleton_append] at hrest
      rw [List.flatMap_cons, Documentation.commentLine_eq, List.append_assoc, List.map_cons]
      rw [hbody] at hrest ⊢
      exact .comment rfl hline hrest

/-- Below the lines of documentation its comments wait. -/
theorem Writes.documentation (doc : String) :
    Writes .line (Layout.commentLines doc) [] (.under (Documentation.written doc)) := by
  unfold Layout.commentLines Documentation.written
  split
  · exact .refl _
  · exact Writes.commentLines [] fun l hl => Text.not_newline_of_mem_lines hl

/-- Documentation is written above what is documented. -/
theorem Lays.documented {doc : String} {cs : List Char} {q : Pen}
    {R : List Token → List Token → Prop} (h : Lays (.under (Documentation.written doc)) cs q R) :
    Lays .line (Layout.commentLines doc ++ cs) q R := by
  obtain ⟨ws, hw, hR⟩ := h
  exact ⟨ws, (Writes.documentation doc).append hw, hR⟩

end Proto2

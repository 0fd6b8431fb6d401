import Proto2.Proofs.Corpus.Settings
import Proto2.Proofs.Layout.Lines
import Proto2.Proofs.Schema.Printed

/-!
The lines of random declarations.

Documentation is made of remarks, in whichever style.  The lines of a declaration start with a
keyword, and those of its body stand between braces.
-/

namespace Proto2.Corpus

open Generator (Yields)

variable {σ : Type} {d : DrawSource σ}

/-! ### Documentation -/

theorem not_mem_of_form {cs : Line} (form : Lexeme.IdentifierForm cs) {c : Char}
    (other : Lexeme.isIdentifierPart c = false) : c ∉ cs := by
  obtain ⟨head, tail, rfl, hhead, htail⟩ := form
  intro hmem
  rcases List.mem_cons.mp hmem with rfl | hmem
  · simp only [Lexeme.isIdentifierStart, Bool.or_eq_true] at hhead
    simp only [Lexeme.isIdentifierPart, Char.isAlphanum, Bool.or_eq_false_iff] at other
    rcases hhead with h | h
    · exact absurd h (by simp [other])
    · exact absurd h (by simp [other])
  · rw [htail c hmem] at other
    cases other

theorem not_mem_joined {separator : List Char} {parts : List Line} {c : Char}
    (h : c ∉ separator) (h' : ∀ part ∈ parts, c ∉ part) : c ∉ Text.joined separator parts := by
  induction parts with
  | nil => exact List.not_mem_nil
  | cons part parts ih =>
      have hrest := ih fun part hp => h' part (by simp [hp])
      cases parts with
      | nil => simpa [Text.joined] using h' part (by simp)
      | cons other parts =>
          rw [Text.joined, List.intercalate_cons_of_ne_nil (by simp)]
          simp only [List.mem_append, not_or]
          exact ⟨⟨h' part (by simp), h⟩, hrest⟩

theorem not_mem_spaces {c : Char} (h : c ≠ ' ') (n : Nat) : c ∉ spaces n :=
  fun hmem => h (List.eq_of_mem_replicate hmem)

/-- A block comment with a word on each line. -/
theorem isRemark_block {words : List Line} (h : ∀ w ∈ words, '/' ∉ w) (indent : Nat) :
    IsRemark ([spaces indent ++ "/**".toList] ++
      words.map (fun w => spaces indent ++ " * ".toList ++ w) ++
      [spaces indent ++ " */".toList]) := by
  refine .block indent ('*' :: '\n' ::
    (Text.ended (words.map fun w => spaces indent ++ " * ".toList ++ w) ++
      (spaces indent ++ [' ']))) ?_ ?_
  · rw [Text.ended_append, Text.ended_append, Text.ended_singleton, Text.ended_singleton]
    simp [spaces]
  · have hspaces := not_mem_spaces (c := '/') (by decide) indent
    simp only [List.mem_cons, List.mem_append, Text.ended, List.mem_flatMap, List.mem_map, not_or]
    refine ⟨by decide, by decide, ?_, hspaces, by decide⟩
    rintro ⟨_, ⟨w, hw, rfl⟩, hmem⟩
    simp [hspaces, h w hw] at hmem

theorem yields_documentation (indent : Nat) : Yields d (documentation indent) IsRemark := by
  refine .bind (.any _) fun k _ => ?_
  split
  · exact .pure .nil
  refine .bind (.any _) fun count _ => .bind (.times yields_identifier count) fun words hwords => ?_
  have hline : ∀ w ∈ words, '\n' ∉ w := fun w hw => not_mem_of_form (hwords.2 w hw) rfl
  have hslash : ∀ w ∈ words, '/' ∉ w := fun w hw => not_mem_of_form (hwords.2 w hw) rfl
  split
  · refine .pure (.lines fun l hl => ?_)
    obtain ⟨w, hw, rfl⟩ := List.mem_map.mp hl
    exact ⟨indent, ' ' :: w, by simp [spaces], by simpa using hline w hw⟩
  split
  · exact .pure (isRemark_block hslash indent)
  · refine .pure (.block indent (' ' :: (Text.joined [' '] words ++ [' '])) ?_ ?_)
    · rw [Text.ended_singleton]
      simp [spaces]
    · simpa using not_mem_joined (by decide) hslash

/-! ### Statements -/

/-- A keyword at the start of a line, below whatever remarks. -/
theorem lays_keyword {w : String} (word : IsIdentifier w) {cs : Line} {q : Pen}
    {R : List Token → List Token → Prop} (h : Lays .gap cs q R) (indent : Nat)
    (comments : List (Bool × String)) :
    Lays (.under comments) (spaces indent ++ (w.toList ++ ' ' :: cs)) q fun ts us =>
      ∃ t ms, ts = t :: ms ∧ t.isWord w = true ∧ R ms us := by
  have hword := Lays.token (p := .under comments) word.spells (fun c _ => Pen.fits_under _ c)
    (Lays.space (p := .behind .identifier) h)
  refine (hword.spaces indent).mono ?_
  rintro ts us ⟨t, ms, rfl, ht, hms⟩
  exact ⟨t, ms, rfl, Token.isWord_of_written ht, hms⟩

/-- An option statement on a line of its own. -/
theorem laysLines_option {text : Line} {s : Setting} (h : SettingText text s) (indent : Nat) :
    LaysLines [spaces indent ++ "option ".toList ++ text ++ [';']] fun ts us =>
      OptionAt ts s us := by
  refine .single ?_
  have hline := lays_optionLine ((h .gap Pen.fits_gap).mono
    fun ts us hstands (ends : ValueEnds us) => hstands (valueStops_of_ends ends))
  exact (hline.spaces indent).of_eq (by simp [spaces])

theorem yields_optionLine (inRange : d.InRange) (indent : Nat) :
    Yields d (optionLine (spaces indent)) fun ls =>
      LaysLines ls fun ts us => ∃ s, OptionAt ts s us := by
  refine .bind (yields_option inRange) fun text htext => .pure ?_
  obtain ⟨s, hs⟩ := htext
  exact (laysLines_option hs indent).mono fun ts us h => ⟨s, h⟩

/-! ### Bodies -/

/-- The brace that opens a body at the end of a line. -/
theorem lays_opening (kind : TokenKind) :
    Lays (.behind kind) [' ', '\x7b', '\n'] .line fun ts us => TokenAt .openBrace ts us := by
  have hopen := Lays.symbol (p := .gap) (c := '\x7b') rfl (Pen.fits_gap _)
    (Lays.newline (p := .behind .openBrace) (.done _))
  refine (Lays.space (p := .behind kind) hopen).mono ?_
  rintro ts us ⟨t, ms, rfl, ht, rfl⟩
  exact ⟨t, rfl, ht⟩

/-- The brace that closes a body, on a line of its own. -/
theorem laysLines_closing (indent : Nat) :
    LaysLines [spaces indent ++ ['\x7d']] fun ts us => TokenAt .closeBrace ts us := by
  refine .single ?_
  have hclose := Lays.symbol (p := .line) (c := '\x7d') rfl (Pen.fits_line _)
    (Lays.newline (p := .behind .closeBrace) (.done _))
  rw [List.append_assoc]
  refine (hclose.spaces indent).mono ?_
  rintro ts us ⟨t, ms, rfl, ht, rfl⟩
  exact ⟨t, rfl, ht⟩

section Block

variable {α : Type} {At : List Token → α → List Token → Prop} {P : List α → Prop}
  {R : List Token → List Token → Prop} {w : String} {name : Line} {doc body : List Line}

/-- A declaration with a body, below its documentation. -/
theorem laysLines_block (word : IsIdentifier w) (hname : Lays .gap name (.behind .integer) R)
    (remark : IsRemark doc) (hbody : LaysLines body fun ts us =>
      AtKind .closeBrace us → ∃ as, Sequence At ts as us ∧ P as) (indent : Nat) :
    LaysLines (doc ++ [spaces indent ++ (w.toList ++ ' ' :: (name ++ [' ', '\x7b']))] ++ body ++
      [spaces indent ++ ['\x7d']]) fun ts us => ∃ word ns opening ms closing as,
        ts = word :: ns ∧ word.isWord w = true ∧ R ns (opening :: ms) ∧
        opening.kind = .openBrace ∧ Sequence At ms as (closing :: us) ∧
        closing.kind = .closeBrace ∧ P as := by
  have hhead : LaysLines (doc ++ [spaces indent ++ (w.toList ++ ' ' :: (name ++ [' ', '\x7b']))])
      _ := .documented remark fun comments => by
    have hline := lays_keyword word (hname.append (lays_opening .integer)) indent comments
    simpa using hline
  refine ((hhead.append hbody).append (laysLines_closing indent)).mono ?_
  rintro ts us ⟨_, ⟨_, ⟨word, ns, rfl, hword, _, hR, opening, rfl, hopening⟩, hitems⟩,
    closing, rfl, hclosing⟩
  obtain ⟨as, has, hP⟩ := hitems ⟨closing, us, rfl, hclosing⟩
  exact ⟨word, ns, opening, _, closing, as, rfl, hword, hR, hopening, has, hclosing, hP⟩

/-- A declaration with a plain name and a body. -/
theorem laysLines_named (word : IsIdentifier w) (form : Lexeme.IdentifierForm name)
    (remark : IsRemark doc) (hbody : LaysLines body fun ts us =>
      AtKind .closeBrace us → ∃ as, Sequence At ts as us ∧ P as) (indent : Nat) :
    LaysLines (doc ++ [spaces indent ++ (w.toList ++ ' ' :: (name ++ [' ', '\x7b']))] ++ body ++
      [spaces indent ++ ['\x7d']]) fun ts us => ∃ word t opening ms closing as,
        ts = word :: t :: opening :: ms ∧ word.isWord w = true ∧ t.kind = .identifier ∧
        t.lexeme = String.ofList name ∧ opening.kind = .openBrace ∧
        Sequence At ms as (closing :: us) ∧ closing.kind = .closeBrace ∧ P as := by
  have hname := Lays.single (p := .gap) form.spells Pen.fits_gap
  refine (laysLines_block word hname remark hbody indent).mono ?_
  rintro ts us ⟨word, _, opening, ms, closing, as, rfl, hword, ⟨t, ht, hkind, hlexeme⟩, hopening,
    has, hclosing, hP⟩
  cases ht
  exact ⟨word, t, opening, ms, closing, as, rfl, hword, hkind, hlexeme, hopening, has, hclosing, hP⟩

end Block

end Proto2.Corpus

import Proto2.Proofs.Literal.StringBody
import Proto2.Proofs.Number.Positional
import Proto2.Proofs.Parser.Literal
import Proto2.Proofs.Token.Continued

/-!
What the bodies of string literals denote.

A body is read from left to right as plain characters and escapes, and an escape of digits takes as
many of them as it may.  A backslash that begins no escape is a fault, and the leftmost one is
reported.  The lexer never ends a body between a backslash and the character behind it; since the
digits that an escape takes are no backslashes, reading escapes pairs the backslashes as the lexer
does, and it never comes to one that is the last character of its body.
-/

namespace Proto2

namespace StringBody

/-- The escapes of one character behind the backslash, and what they denote. -/
def simpleEscapes : List (Char × Char) :=
  [('a', '\x07'), ('b', '\x08'), ('f', '\x0c'), ('n', '\n'), ('r', '\r'), ('t', '\t'),
    ('v', '\x0b'), ('\\', '\\'), ('\'', '\''), ('"', '"')]

/-- The text does not start with a digit of the base. -/
def StartsNoDigit (base : Nat) (text : List Char) : Prop :=
  ∀ c ∈ text.head?, ∀ value < base, ¬ Numeral.IsDigit value c

/-- The digits denote the number, and they are as many as stand before the text, up to a limit. -/
structure IsRun (base limit : Nat) (digits behind : List Char) (n : Nat) : Prop where
  denotes : Numeral.Denotes base digits n
  length_le : digits.length ≤ limit
  longest : digits.length = limit ∨ StartsNoDigit base behind

/-- Behind a backslash, the first characters are an escape that denotes a character where the
others stand behind it. -/
inductive Escape : List Char → List Char → Char → Prop
  | simple {c d : Char} {behind : List Char} (known : (c, d) ∈ simpleEscapes) :
      Escape [c] behind d
  | octal {digits behind : List Char} {n : Nat} (run : IsRun 8 3 digits behind n) :
      Escape digits behind (Char.ofNat n)
  | hexadecimal {x : Char} {digits behind : List Char} {n : Nat} (mark : x = 'x' ∨ x = 'X')
      (run : IsRun 16 2 digits behind n) : Escape (x :: digits) behind (Char.ofNat n)

/-- Behind a backslash, no escape stands at the start of the text, and why. -/
inductive NoEscape : List Char → LexicalCause → Prop
  | missingHexDigit {x : Char} {behind : List Char} (mark : x = 'x' ∨ x = 'X')
      (none : StartsNoDigit 16 behind) : NoEscape (x :: behind) .missingHexDigit
  | invalid {c : Char} {behind : List Char} (unknown : ∀ d, (c, d) ∉ simpleEscapes)
      (notOctal : ∀ value < 8, ¬ Numeral.IsDigit value c) (unmarked : ¬ (c = 'x' ∨ c = 'X')) :
      NoEscape (c :: behind) (.invalidEscape c)
  | atEnd : NoEscape [] .unterminatedEscape

/-- A body in which every backslash begins an escape, and the text it denotes. -/
inductive Denotes : List Char → List Char → Prop
  | nil : Denotes [] []
  | plain {c : Char} {body text : List Char} (other : c ≠ '\\') (rest : Denotes body text) :
      Denotes (c :: body) (c :: text)
  | escaped {taken body text : List Char} {d : Char} (escape : Escape taken body d)
      (rest : Denotes body text) : Denotes ('\\' :: (taken ++ body)) (d :: text)

/-- The leftmost backslash that begins no escape, and why it does not. -/
def FirstFault (body : List Char) (cause : LexicalCause) : Prop :=
  ∃ before behind text, body = before ++ '\\' :: behind ∧ Denotes before text ∧
    NoEscape behind cause

/-! ### Runs of digits -/

theorem simpleEscape?_eq_some_iff {c d : Char} :
    simpleEscape? c = some d ↔ (c, d) ∈ simpleEscapes := by
  constructor
  · intro h
    unfold simpleEscape? at h
    split at h <;> cases h <;> decide
  · intro h
    simp only [simpleEscapes, List.mem_cons, Prod.mk.injEq, List.not_mem_nil, or_false] at h
    rcases h with h | h | h | h | h | h | h | h | h | h <;> rw [h.1, h.2] <;> rfl

theorem startsNoDigit_iff {base : Nat} {p : Char → Bool}
    (digit : ∀ {c}, p c = true ↔ ∃ value < base, Numeral.IsDigit value c) {text : List Char} :
    StartsNoDigit base text ↔ ∀ c ∈ text.head?, p c = false := by
  simp only [StartsNoDigit, ← Bool.not_eq_true, digit, not_exists, not_and]

/-- The longest run of characters of a class at the start of a text, up to a limit. -/
theorem exists_takeWhile_take (p : Char → Bool) (limit : Nat) (cs : List Char) :
    ∃ behind, cs = (cs.take limit).takeWhile p ++ behind ∧
      ((cs.take limit).takeWhile p).length ≤ limit ∧
      (((cs.take limit).takeWhile p).length = limit ∨ ∀ c ∈ behind.head?, p c = false) := by
  induction limit generalizing cs with
  | zero => exact ⟨cs, rfl, Nat.le_refl 0, .inl rfl⟩
  | succ limit ih =>
      cases cs with
      | nil => exact ⟨[], rfl, Nat.zero_le _, .inr (by simp)⟩
      | cons c cs =>
          cases hp : p c with
          | false => exact ⟨c :: cs, by simp [hp], by simp [hp], .inr (by simp [hp])⟩
          | true =>
              obtain ⟨behind, hcs, hle, hlongest⟩ := ih cs
              refine ⟨behind, ?_, ?_, ?_⟩
              · simpa [hp] using hcs
              · simpa [hp] using hle
              · simpa [hp] using hlongest

section Runs

variable {base limit : Nat} {p : Char → Bool}
  (digit : ∀ {c}, p c = true ↔ ∃ value < base, Numeral.IsDigit value c)

include digit

theorem IsRun.takeWhile_eq {digits behind : List Char} {n : Nat}
    (run : IsRun base limit digits behind n) :
    ((digits ++ behind).take limit).takeWhile p = digits := by
  have hall : ∀ c ∈ digits, p c = true := fun c hc => digit.mpr (run.denotes.isDigit c hc)
  rw [List.take_append, List.take_of_length_le run.length_le, List.takeWhile_append_of_pos hall]
  rcases run.longest with hfull | hstop
  · simp [hfull]
  · rw [startsNoDigit_iff digit] at hstop
    cases behind with
    | nil => simp
    | cons c cs =>
        cases hn : limit - digits.length with
        | zero => simp
        | succ k => simp [hstop c rfl]

theorem exists_isRun {cs : List Char} (some : (cs.take limit).takeWhile p ≠ []) :
    ∃ behind n, cs = (cs.take limit).takeWhile p ++ behind ∧
      IsRun base limit ((cs.take limit).takeWhile p) behind n := by
  obtain ⟨behind, hcs, hle, hlongest⟩ := exists_takeWhile_take p limit cs
  obtain ⟨n, hn⟩ := Numeral.exists_denotes some fun c hc =>
    digit.mp (List.all_eq_true.mp List.all_takeWhile c hc)
  exact ⟨behind, n, hcs, hn, hle, hlongest.imp_right (startsNoDigit_iff digit).mpr⟩

theorem IsRun.ofCodePoint_eq {digits behind : List Char} {n : Nat}
    (run : IsRun base limit digits behind n) :
    ofCodePoint base (((digits ++ behind).take limit).takeWhile p) = Char.ofNat n := by
  rw [run.takeWhile_eq digit, ofCodePoint, run.denotes.ofDigits_hexValue]

end Runs

/-! ### One escape -/

theorem not_simple_of_isOctalDigit {c : Char} (h : isOctalDigit c = true) :
    simpleEscape? c = none := by
  obtain ⟨value, hlt, hvalue⟩ := Numeral.isOctalDigit_iff.mp h
  exact Numeral.forall_isDigit (p := fun value c => value < 8 → simpleEscape? c = none)
    (by decide) hvalue hlt

theorem escape_of_mark {x : Char} (mark : x = 'x' ∨ x = 'X') (cs : List Char) :
    escape (x :: cs) =
      if ((cs.take 2).takeWhile Lexeme.isHexDigit).isEmpty then .error .missingHexDigit
      else .ok (ofCodePoint 16 ((cs.take 2).takeWhile Lexeme.isHexDigit),
        ((cs.take 2).takeWhile Lexeme.isHexDigit).length + 1) := by
  rcases mark with rfl | rfl <;> rfl

theorem Escape.escape_eq {taken behind : List Char} {d : Char} (h : Escape taken behind d) :
    escape (taken ++ behind) = .ok (d, taken.length) := by
  cases h with
  | simple known =>
      rw [List.singleton_append, escape, simpleEscape?_eq_some_iff.mpr known]
      rfl
  | octal run =>
      have hrun := run.takeWhile_eq Numeral.isOctalDigit_iff
      have hcode := run.ofCodePoint_eq Numeral.isOctalDigit_iff
      obtain ⟨c, ds, rfl⟩ := List.exists_cons_of_ne_nil run.denotes.1
      have hc := Numeral.isOctalDigit_iff.mpr (run.denotes.isDigit c List.mem_cons_self)
      rw [List.cons_append] at hrun hcode ⊢
      simp only [escape, not_simple_of_isOctalDigit hc, if_pos hc, hcode]
      rw [hrun]
  | hexadecimal mark run =>
      have hsome := List.isEmpty_eq_false_iff.mpr run.denotes.1
      rw [List.cons_append, escape_of_mark mark, run.ofCodePoint_eq Numeral.isHexDigit_iff,
        run.takeWhile_eq Numeral.isHexDigit_iff, hsome]
      rfl

theorem NoEscape.escape_eq {behind : List Char} {cause : LexicalCause}
    (h : NoEscape behind cause) : escape behind = .error cause := by
  cases h with
  | missingHexDigit mark hnone =>
      rename_i x cs
      rw [startsNoDigit_iff Numeral.isHexDigit_iff] at hnone
      have hempty : (cs.take 2).takeWhile Lexeme.isHexDigit = [] := by
        cases cs with
        | nil => rfl
        | cons c cs => simp [hnone c rfl]
      rw [escape_of_mark mark, hempty]
      rfl
  | invalid unknown notOctal unmarked =>
      rename_i c cs
      have hsimple : simpleEscape? c = none := by
        rw [Option.eq_none_iff_forall_ne_some]
        exact fun d hd => unknown d (simpleEscape?_eq_some_iff.mp hd)
      have hoctal : isOctalDigit c = false := by
        rw [← Bool.not_eq_true, Numeral.isOctalDigit_iff]
        exact fun ⟨value, hlt, hvalue⟩ => notOctal value hlt hvalue
      simp [escape, hsimple, hoctal, unmarked]
  | atEnd => rfl

/-- Behind a backslash stands an escape, or there is a reason why none does. -/
theorem escape_or_noEscape (cs : List Char) :
    (∃ taken behind d, cs = taken ++ behind ∧ Escape taken behind d) ∨
      ∃ cause, NoEscape cs cause := by
  cases cs with
  | nil => exact .inr ⟨_, .atEnd⟩
  | cons c cs =>
      cases hsimple : simpleEscape? c with
      | some d => exact .inl ⟨[c], cs, d, rfl, .simple (simpleEscape?_eq_some_iff.mp hsimple)⟩
      | none =>
          by_cases hoctal : isOctalDigit c = true
          · have hsome : ((c :: cs).take 3).takeWhile isOctalDigit ≠ [] := by simp [hoctal]
            obtain ⟨behind, n, hcs, run⟩ := exists_isRun Numeral.isOctalDigit_iff hsome
            exact .inl ⟨_, behind, _, hcs, .octal run⟩
          · by_cases mark : c = 'x' ∨ c = 'X'
            · by_cases hsome : (cs.take 2).takeWhile Lexeme.isHexDigit = []
              · refine .inr ⟨_, .missingHexDigit mark ?_⟩
                rw [startsNoDigit_iff Numeral.isHexDigit_iff]
                obtain ⟨behind, hcs, -, hlongest⟩ := exists_takeWhile_take Lexeme.isHexDigit 2 cs
                rw [hsome] at hcs hlongest
                rw [hcs]
                exact hlongest.resolve_left (by decide)
              · obtain ⟨behind, n, hcs, run⟩ := exists_isRun Numeral.isHexDigit_iff hsome
                exact .inl ⟨c :: _, behind, _, congrArg (c :: ·) hcs, .hexadecimal mark run⟩
            · refine .inr ⟨_, .invalid (fun d hd => ?_) (fun value hlt hvalue => ?_) mark⟩
              · rw [simpleEscape?_eq_some_iff.mpr hd] at hsimple
                cases hsimple
              · exact hoctal (Numeral.isOctalDigit_iff.mpr ⟨value, hlt, hvalue⟩)

/-! ### Whole bodies -/

theorem decode_plain {c : Char} (other : c ≠ '\\') (cs : List Char) :
    decode (c :: cs) = (decode cs).map (c :: ·) := by
  rw [decode, if_neg other]

theorem decode_escape {taken behind : List Char} {d : Char} (h : Escape taken behind d) :
    decode ('\\' :: (taken ++ behind)) = (decode behind).map (d :: ·) := by
  rw [decode, if_pos rfl, h.escape_eq]
  simp

theorem decode_noEscape {behind : List Char} {cause : LexicalCause} (h : NoEscape behind cause) :
    decode ('\\' :: behind) = .error cause := by
  rw [decode, if_pos rfl, h.escape_eq]

/-- A backslash has no part in an escape before it. -/
theorem escape_append_iff {taken before : List Char} {d : Char} (behind : List Char) :
    Escape taken (before ++ '\\' :: behind) d ↔ Escape taken before d := by
  have hdigit : ∀ value < 16, ¬ Numeral.IsDigit value '\\' := by decide
  have hstop {base : Nat} (hbase : base ≤ 16) :
      StartsNoDigit base (before ++ '\\' :: behind) ↔ StartsNoDigit base before := by
    cases before with
    | cons b bs => rfl
    | nil =>
        refine iff_of_true ?_ (by simp [StartsNoDigit])
        rintro _ ⟨⟩ value hlt
        exact hdigit value (Nat.lt_of_lt_of_le hlt hbase)
  constructor
  · intro h
    cases h with
    | simple known => exact .simple known
    | octal run =>
        exact .octal { run with longest := run.longest.imp_right (hstop (by decide)).mp }
    | hexadecimal mark run =>
        exact .hexadecimal mark { run with longest := run.longest.imp_right (hstop (by decide)).mp }
  · intro h
    cases h with
    | simple known => exact .simple known
    | octal run =>
        exact .octal { run with longest := run.longest.imp_right (hstop (by decide)).mpr }
    | hexadecimal mark run =>
        have hlongest := run.longest.imp_right (hstop (by decide)).mpr
        exact .hexadecimal mark { run with longest := hlongest }

theorem Denotes.decode_eq {body text : List Char} (h : Denotes body text) :
    decode body = .ok text := by
  induction h with
  | nil => exact decode_nil
  | plain other _ ih =>
      rw [decode_plain other, ih]
      rfl
  | escaped escape _ ih =>
      rw [decode_escape escape, ih]
      rfl

theorem FirstFault.decode_eq {body : List Char} {cause : LexicalCause}
    (h : FirstFault body cause) : decode body = .error cause := by
  obtain ⟨before, behind, text, rfl, denotes, fault⟩ := h
  induction denotes with
  | nil => exact decode_noEscape fault
  | plain other _ ih =>
      rw [List.cons_append, decode_plain other, ih]
      rfl
  | escaped escape _ ih =>
      have hescape := (escape_append_iff behind).mpr escape
      rw [List.cons_append, List.append_assoc, decode_escape hescape, ih]
      rfl

/-- A body denotes a text, or it has a leftmost fault. -/
theorem denotes_or_firstFault (body : List Char) :
    (∃ text, Denotes body text) ∨ ∃ cause, FirstFault body cause := by
  induction hlength : body.length using Nat.strongRecOn generalizing body with
  | ind n ih =>
      subst hlength
      cases body with
      | nil => exact .inl ⟨[], .nil⟩
      | cons c cs =>
          by_cases other : c ≠ '\\'
          · rcases ih cs.length (Nat.lt_succ_self _) cs rfl with ⟨text, h⟩ | ⟨cause, h⟩
            · exact .inl ⟨c :: text, .plain other h⟩
            · obtain ⟨before, behind, text, rfl, denotes, fault⟩ := h
              exact .inr ⟨cause, c :: before, behind, c :: text, rfl, .plain other denotes, fault⟩
          · obtain rfl := not_not.mp other
            rcases escape_or_noEscape cs with ⟨taken, rest, d, rfl, escape⟩ | ⟨cause, fault⟩
            · have hlt : rest.length < ('\\' :: (taken ++ rest)).length := by
                rw [List.length_cons, List.length_append]
                omega
              rcases ih rest.length hlt rest rfl with ⟨text, h⟩ | ⟨cause, h⟩
              · exact .inl ⟨d :: text, .escaped escape h⟩
              · obtain ⟨before, behind, text, rfl, denotes, fault⟩ := h
                have escape' := (escape_append_iff behind).mp escape
                exact .inr ⟨cause, '\\' :: (taken ++ before), behind, d :: text, by simp,
                  .escaped escape' denotes, fault⟩
            · exact .inr ⟨cause, [], cs, [], rfl, .nil, fault⟩

theorem decode_eq_ok_iff {body text : List Char} : decode body = .ok text ↔ Denotes body text := by
  refine ⟨fun h => ?_, Denotes.decode_eq⟩
  rcases denotes_or_firstFault body with ⟨text', denotes⟩ | ⟨cause, fault⟩
  · obtain rfl : text = text' := Except.ok.inj (h.symm.trans denotes.decode_eq)
    exact denotes
  · exact absurd (h.symm.trans fault.decode_eq) (by simp)

theorem decode_eq_error_iff {body : List Char} {cause : LexicalCause} :
    decode body = .error cause ↔ FirstFault body cause := by
  refine ⟨fun h => ?_, FirstFault.decode_eq⟩
  rcases denotes_or_firstFault body with ⟨text, denotes⟩ | ⟨cause', fault⟩
  · exact absurd (h.symm.trans denotes.decode_eq) (by simp)
  · obtain rfl : cause = cause' := Except.error.inj (h.symm.trans fault.decode_eq)
    exact fault

/-- Every backslash begins an escape exactly if the body denotes a text. -/
theorem valid_iff_denotes {body : List Char} : Valid body ↔ ∃ text, Denotes body text :=
  decode_ok_iff.symm.trans (exists_congr fun _ => decode_eq_ok_iff)

/-! ### Pairs -/

/-- Every backslash of the body is followed by a character that it takes with it. -/
inductive Paired : List Char → Prop
  | nil : Paired []
  | plain {c : Char} {cs : List Char} (other : c ≠ '\\') (rest : Paired cs) : Paired (c :: cs)
  | pair {c : Char} {cs : List Char} (rest : Paired cs) : Paired ('\\' :: c :: cs)

theorem paired_of_quotation {quote : Char} {cs body : List Char}
    (h : Lexeme.quotation quote cs = .closed body) : Paired body := by
  fun_induction Lexeme.quotation quote cs generalizing body with
  | case1 => cases h
  | case2 => cases h
  | case3 => cases h
  | case4 c cs _ ih =>
      obtain ⟨body', hbody, rfl⟩ := Lexeme.Quotation.push_eq_closed h
      exact .pair (ih hbody)
  | case5 =>
      cases h
      exact .nil
  | case6 => cases h
  | case7 c cs lone pair _ _ ih =>
      obtain ⟨body', hbody, rfl⟩ := Lexeme.Quotation.push_eq_closed h
      exact .plain (Lexeme.ne_backslash lone pair) (ih hbody)

theorem Paired.of_cons {c : Char} {cs : List Char} (h : Paired (c :: cs)) (other : c ≠ '\\') :
    Paired cs := by
  cases h with
  | plain _ rest => exact rest
  | pair => exact absurd rfl other

theorem Paired.of_append {digits cs : List Char} (h : Paired (digits ++ cs))
    (none : '\\' ∉ digits) : Paired cs := by
  induction digits with
  | nil => exact h
  | cons d ds ih =>
      rw [List.mem_cons, not_or] at none
      rw [List.cons_append] at h
      exact ih (h.of_cons (Ne.symm none.1)) none.2

/-- The characters of an escape behind the first one are digits. -/
theorem Escape.exists_cons {taken behind : List Char} {d : Char} (h : Escape taken behind d) :
    ∃ c digits, taken = c :: digits ∧ '\\' ∉ digits := by
  have hdigits {base n : Nat} {digits : List Char} (hbase : base ≤ 16)
      (h : Numeral.Denotes base digits n) : '\\' ∉ digits := by
    intro hmem
    obtain ⟨value, hlt, hvalue⟩ := h.isDigit _ hmem
    have hcheck : ∀ value < 16, ¬ Numeral.IsDigit value '\\' := by decide
    exact hcheck value (Nat.lt_of_lt_of_le hlt hbase) hvalue
  cases h with
  | simple => exact ⟨_, [], rfl, List.not_mem_nil⟩
  | octal run =>
      have hnone := hdigits (by decide) run.denotes
      obtain ⟨c, ds, rfl⟩ := List.exists_cons_of_ne_nil run.denotes.1
      exact ⟨c, ds, rfl, fun hmem => hnone (List.mem_cons_of_mem c hmem)⟩
  | hexadecimal _ run => exact ⟨_, _, rfl, hdigits (by decide) run.denotes⟩

/-- Escapes and plain characters take the backslashes pair by pair. -/
theorem Denotes.paired_of_append {body text behind : List Char} (h : Denotes body text)
    (paired : Paired (body ++ behind)) : Paired behind := by
  induction h with
  | nil => exact paired
  | plain other _ ih =>
      rw [List.cons_append] at paired
      exact ih (paired.of_cons other)
  | escaped escape _ ih =>
      obtain ⟨c, digits, rfl, hnone⟩ := escape.exists_cons
      rw [List.cons_append, List.cons_append, List.cons_append, List.append_assoc] at paired
      cases paired with
      | plain other => exact absurd rfl other
      | pair rest => exact ih (rest.of_append hnone)

/-- In a body of pairs no backslash is left at the end. -/
theorem FirstFault.ne_unterminated {body : List Char} {cause : LexicalCause} (paired : Paired body)
    (h : FirstFault body cause) : cause ≠ .unterminatedEscape := by
  rintro rfl
  obtain ⟨before, behind, text, rfl, denotes, fault⟩ := h
  cases fault with
  | atEnd =>
      cases denotes.paired_of_append paired with
      | plain other => exact other rfl

end StringBody

theorem Lexed.IsScanned.paired {t : Token} (h : IsScanned t) (kind : t.kind = .string) :
    StringBody.Paired t.lexeme.toList := by
  obtain ⟨c, cs, s, hscan, hkind, hlexeme⟩ := h
  rw [hkind] at kind
  unfold Lexeme.scan at hscan
  split at hscan
  · split at hscan <;> cases hscan
    rename_i hclosed
    rw [hlexeme, String.toList_ofList]
    exact StringBody.paired_of_quotation hclosed
  · split at hscan
    · rename_i hplain
      cases hscan
      exact absurd kind (Lexeme.ne_string_of_plain? hplain)
    · cases hscan

/-- A string literal of a text denotes what its plain characters and its escapes denote one after
the other, each escape of digits as long as can be; or the leftmost backslash that begins no escape
is reported at the literal, and never as one without a character behind it. -/
theorem string_tokens_decoded {file : String} {source : List Char} {t : Token}
    (mem : t ∈ (Lexed.ofText file source).tokens) (kind : t.kind = .string) :
    (∀ text l, (Parser.decodeString t).outcome l = .ok (String.ofList text, l) ↔
      StringBody.Denotes t.lexeme.toList text) ∧
    (∀ e l, (Parser.decodeString t).outcome l = .error e ↔
      ∃ cause, e = .parse (.lexical ⟨t.span, cause⟩) ∧
        StringBody.FirstFault t.lexeme.toList cause) ∧
    ∀ cause, StringBody.FirstFault t.lexeme.toList cause →
      cause.message ≠ "unterminated escape sequence" := by
  have hpaired : StringBody.Paired t.lexeme.toList :=
    (Lexed.isScanned_of_mem mem (by simp [kind])).paired kind
  have houtcome (l : Lexed) : (Parser.decodeString t).outcome l =
      ((StringBody.decode t.lexeme.toList).map fun text => (String.ofList text, l)).mapError
        fun cause => .parse (.lexical ⟨t.span, cause⟩) := by
    unfold Parser.decodeString
    cases StringBody.decode t.lexeme.toList <;> rfl
  refine ⟨fun text l => ?_, fun e l => ?_, fun cause fault hmessage => ?_⟩
  · rw [houtcome, ← StringBody.decode_eq_ok_iff]
    cases StringBody.decode t.lexeme.toList <;>
      simp [Except.map, Except.mapError, String.ofList_inj]
  · simp only [houtcome, ← StringBody.decode_eq_error_iff]
    cases StringBody.decode t.lexeme.toList <;> simp [Except.map, Except.mapError, eq_comm]
  · have hne := fault.ne_unterminated hpaired
    obtain ⟨_, _, _, -, -, hbehind⟩ := fault
    cases hbehind with
    | missingHexDigit => exact absurd hmessage (by decide +kernel)
    | invalid =>
        rename_i c _ _ _ _
        have hwords : "invalid escape sequence \\" ++ c.toString =
            "unterminated escape sequence" := hmessage
        simpa using congrArg String.toList hwords
    | atEnd => exact hne rfl

/-- Escapes of three and of two digits with more digits behind them, and an escaped backslash. -/
theorem string_tokens_decoded_digits :
    ∃ t ∈ (Lexed.ofText "f.proto" "\"\\1234\\x41f\\\\8\"".toList).tokens, t.kind = .string ∧
      StringBody.Denotes t.lexeme.toList "S4Af\\8".toList := by
  let t := (Lexed.ofText "f.proto" "\"\\1234\\x41f\\\\8\"".toList).tokens.head (by decide +kernel)
  have hmem : t ∈ (Lexed.ofText "f.proto" "\"\\1234\\x41f\\\\8\"".toList).tokens :=
    List.head_mem _
  have hkind : t.kind = .string := by decide +kernel
  exact ⟨t, hmem, hkind, ((string_tokens_decoded hmem hkind).1 _ ⟨[], none⟩).mp (by decide +kernel)⟩

end Proto2

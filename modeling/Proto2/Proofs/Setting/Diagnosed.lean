import Proto2.Proofs.Parser.Diagnosed
import Proto2.Proofs.Setting.Values

/-!
Why settings cannot be read.
-/

namespace Proto2.Parser

variable {text rest : List Token} {l : Lexed} {t : Token}

/-! ### Names of options -/

theorem takes_namePart : Takes text namePart l := by
  unfold namePart
  refine .bind (diagnosed_accepts (by decide)) ?_
  rintro b l₁ (⟨rfl, h₁⟩ | ⟨rfl, rfl⟩)
  · refine .bind takes_qualifiedName fun _ l₂ h₂ => ?_
    refine .bind (takes_expect (by decide)) fun _ l₃ h₃ => ?_
    exact .pure (by omega)
  · exact .bind takes_identifier fun _ _ h => .pure h

theorem diagnosed_moreNameParts {n : Nat} (rounds : l.tokens.length < n) :
    Diagnosed text (moreNameParts n) l fun _ l' => l'.tokens.length ≤ l.tokens.length := by
  induction n generalizing l with
  | zero => omega
  | succ n ih =>
      rw [moreNameParts]
      refine .bind (diagnosed_accepts (by decide)) ?_
      rintro b l₁ (⟨rfl, h₁⟩ | ⟨rfl, rfl⟩)
      · refine .bind takes_namePart fun _ l₂ h₂ => ?_
        refine .bind (ih (by omega)) fun _ l₃ h₃ => ?_
        exact .pure (by omega)
      · exact .pure (Nat.le_refl _)

theorem takes_settingWith {value : Parser Value} [TokenDriven value]
    (inner : ∀ l', l'.tokens.length < l.tokens.length → Takes text value l') :
    Takes text (settingWith value) l := by
  unfold settingWith
  refine .bind takes_namePart fun _ l₁ h₁ => ?_
  refine .bind diagnosed_budget ?_
  rintro _ _ ⟨rfl, rfl⟩
  refine .bind (diagnosed_moreNameParts (Nat.lt_succ_self _)) fun _ l₂ h₂ => ?_
  refine .bind (takes_expect (by decide)) fun _ l₃ h₃ => ?_
  refine .bind (inner l₃ (by omega)) fun _ l₄ h₄ => ?_
  exact .pure (by omega)

/-! ### Looking for a setting -/

theorem diagnosed_checkOpen {opened : Token} :
    Diagnosed text (checkOpen opened) l fun _ l' => l' = l := by
  unfold checkOpen
  refine .bind diagnosed_peek_zero ?_
  rintro t _ ⟨rfl, -⟩
  exact .ite (fun _ => .fail) fun _ => .pure rfl

/-- The search goes on behind an identifier and a dot only, and so stays within the tokens. -/
theorem diagnosed_leadsToSetting {n i : Nat} (rounds : l.tokens.length < n + i)
    (within : i ≤ l.tokens.length) :
    Diagnosed text (leadsToSetting n i) l fun _ l' => l' = l := by
  induction n generalizing i with
  | zero => omega
  | succ n ih =>
      have seen {j : Nat} {t : Token} {k : TokenKind} (kind : t.kind = k) (some : k ≠ .endOfInput)
          (h : l.tokens[j]? = .some t ∨ t.kind = .endOfInput) : j < l.tokens.length := by
        rcases h with h | h
        · exact (List.getElem?_eq_some_iff.mp h).1
        · exact absurd (kind.symm.trans h) some
      rw [leadsToSetting]
      refine .bind (diagnosed_peek i) ?_
      rintro first _ ⟨rfl, hfirst⟩
      refine .ite (fun hkind => ?_) fun _ => .pure rfl
      refine .bind (diagnosed_peek (i + 1)) ?_
      rintro after _ ⟨rfl, hafter⟩
      refine .ite (fun _ => .pure rfl) fun _ => ?_
      refine .ite (fun hdot => ?_) fun _ => .pure rfl
      refine .bind (diagnosed_peek (i + 2)) ?_
      rintro paren _ ⟨rfl, -⟩
      refine .ite (fun _ => .pure rfl) fun _ => ?_
      -- The dot is no end of the input, so it is one of the tokens.
      have := seen hdot (by decide) hafter
      exact ih (by omega) (by omega)

theorem diagnosed_isAtSetting : Diagnosed text isAtSetting l fun _ l' => l' = l := by
  unfold isAtSetting
  refine .bind diagnosed_isAt ?_
  rintro b _ ⟨rfl, -⟩
  refine .ite (fun _ => .pure rfl) fun _ => ?_
  refine .bind diagnosed_budget ?_
  rintro _ _ ⟨rfl, rfl⟩
  exact diagnosed_leadsToSetting (by omega) (Nat.zero_le _)

/-! ### Keys and separators -/

theorem takes_key : Takes text key l := by
  unfold key
  refine .bind (diagnosed_accepts (by decide)) ?_
  rintro b l₁ (⟨rfl, h₁⟩ | ⟨rfl, rfl⟩)
  · refine .bind takes_qualifiedName fun _ l₂ h₂ => ?_
    refine .bind (takes_expect (by decide)) fun _ l₃ h₃ => ?_
    exact .pure (by omega)
  · exact takes_identifier

theorem diagnosed_colon {k : String} :
    Diagnosed text (colon k) l fun _ l' => l'.tokens.length ≤ l.tokens.length := by
  unfold colon
  refine .bind (diagnosed_accepts (by decide)) ?_
  rintro b l₁ (⟨rfl, h₁⟩ | ⟨rfl, rfl⟩)
  · exact .pure (Nat.le_of_lt h₁)
  · refine .bind diagnosed_peek_zero ?_
    rintro t _ ⟨rfl, -⟩
    exact .ite (fun _ => .pure (Nat.le_refl _)) fun _ => .fail

theorem diagnosed_entrySeparator :
    Diagnosed text entrySeparator l fun _ l' => l'.tokens.length ≤ l.tokens.length := by
  unfold entrySeparator
  refine .bind (diagnosed_accepts (by decide)) ?_
  rintro b l₁ (⟨rfl, h₁⟩ | ⟨rfl, rfl⟩)
  · exact .pure (Nat.le_of_lt h₁)
  · exact .bind (diagnosed_skip (by decide)) fun _ _ h => .pure h

/-! ### Values -/

section Inner

variable {inner : Parser Value} [TokenDriven inner]

theorem takes_listStep {opened : Token}
    (each : ∀ l', l'.tokens.length ≤ l.tokens.length → Takes text inner l') :
    Takes text (listStep inner opened) l := by
  have hitem : Takes text (listItem inner) l := by
    unfold listItem
    refine .bind diagnosed_isAtSetting ?_
    rintro b _ rfl
    refine .ite (fun _ => ?_) fun _ => ?_
    · exact .bind (takes_settingWith fun l' hlt => each l' (Nat.le_of_lt hlt)) fun _ _ h => .pure h
    refine .bind diagnosed_isAt ?_
    rintro b _ ⟨rfl, t, rest, hcons, rfl⟩
    refine .ite (fun hkind => ?_) fun _ => each _ (Nat.le_refl _)
    exact .bind (takes_stringLiteral hcons (of_decide_eq_true hkind)) fun _ _ h => .pure h
  unfold listStep
  refine .bind diagnosed_checkOpen ?_
  rintro _ _ rfl
  refine .bind hitem fun _ l₁ h₁ => ?_
  refine .bind (diagnosed_skip (by decide)) fun _ l₂ h₂ => ?_
  exact .pure (by omega)

theorem takes_entryStep {opened : Token}
    (each : ∀ l', l'.tokens.length ≤ l.tokens.length → Takes text inner l') :
    Takes text (entryStep inner opened) l := by
  have hentry : Takes text (entry inner) l := by
    unfold entry
    refine .bind takes_key fun _ l₁ h₁ => ?_
    refine .bind diagnosed_colon fun _ l₂ h₂ => ?_
    refine .bind (each l₂ (by omega)) fun _ l₃ h₃ => ?_
    exact .pure (by omega)
  unfold entryStep
  refine .bind diagnosed_checkOpen ?_
  rintro _ _ rfl
  refine .bind hentry fun _ l₁ h₁ => ?_
  refine .bind diagnosed_entrySeparator fun _ l₂ h₂ => ?_
  exact .pure (by omega)

/-- A value takes a token if the values in it do, of which there are fewer tokens left. -/
theorem takes_valueWith
    (each : ∀ l', l'.tokens.length < l.tokens.length → Takes text inner l') :
    Takes text (valueWith inner) l := by
  rw [valueWith_eq]
  refine .bind diagnosed_peek_zero ?_
  rintro t l' ⟨rfl, rest, hcons⟩
  rw [valueFrom]
  split
  case h_1 kind => exact .bind (takes_adjacentStrings hcons kind) fun _ _ h => .pure h
  case h_2 kind => exact .bind (takes_integerLiteral hcons kind) fun _ _ h => .pure h
  case h_3 kind => exact .bind (takes_floatLiteral hcons kind) fun _ _ h => .pure h
  case h_4 kind =>
      refine .ite (fun _ => ?_) fun _ => ?_
      · exact .bind (takes_next hcons kind (by decide)) fun _ _ h => .pure h
      · exact .bind takes_qualifiedName fun _ _ h => .pure h
  case h_5 => exact .bind takes_qualifiedName fun _ _ h => .pure h
  case h_6 kind =>
      refine .bind (takes_next hcons kind (by decide)) fun opened l₁ h₁ => ?_
      refine .bind (takes_itemsUntil (by decide) fun l' hle =>
        takes_listStep fun l'' hle' => each l'' (by omega)) fun _ l₂ h₂ => ?_
      exact .pure (by omega)
  case h_7 kind =>
      refine .bind (takes_next hcons kind (by decide)) fun opened l₁ h₁ => ?_
      refine .bind (takes_itemsUntil (by decide) fun l' hle =>
        takes_entryStep fun l'' hle' => each l'' (by omega)) fun _ l₂ h₂ => ?_
      exact .pure (by omega)
  case h_8 => exact .fail

end Inner

theorem takes_valueWithin {depth : Nat} (enough : l.tokens.length < depth) :
    Takes text (valueWithin depth) l := by
  induction depth generalizing l with
  | zero => omega
  | succ depth ih => exact takes_valueWith fun l' hlt => ih (by omega)

theorem takes_value : Takes text value l := by
  unfold value
  refine .bind diagnosed_budget ?_
  rintro _ _ ⟨rfl, rfl⟩
  exact takes_valueWithin (Nat.lt_succ_self _)

/-! ### Settings -/

theorem takes_setting : Takes text setting l :=
  takes_settingWith fun _ _ => takes_value

theorem takes_bracketedSettings : Takes text bracketedSettings l := by
  rw [bracketedSettings_eq]
  refine .bind (takes_expect (by decide)) fun opened l₁ h₁ => ?_
  refine (takes_itemsUntil (by decide) fun l' hle => ?_).mono fun _ l₂ h₂ => ?_
  · unfold settingStep
    refine .bind diagnosed_checkOpen ?_
    rintro _ _ rfl
    refine .bind takes_setting fun _ l₂ h₂ => ?_
    refine .bind (diagnosed_skip (by decide)) fun _ l₃ h₃ => ?_
    exact .pure (by omega)
  · omega

end Proto2.Parser

import Proto2.Proofs.Parser.Passage
import Proto2.Proofs.Setting.Values

/-!
What the parsers of settings pass over.

A bracket that is checked to be open at every round is the one that waits there, since the items
before it close what they open.
-/

namespace Proto2.Parser

variable {stack rest : List Token} {l : Lexed} {t : Token}

/-! ### Names of options -/

theorem passes_namePart : Passes 1 stack stack namePart l := by
  unfold namePart
  refine .bind (passes_accepts (steps_other (by decide) (by decide))) fun b l₁ _ => ?_
  refine .ite (fun _ => ?_) fun _ => ?_
  · refine .bind passes_qualifiedName fun _ l₂ _ => ?_
    exact .bind (passes_expect (steps_other (by decide) (by decide))) fun _ _ _ => .pure
  · exact .bind passes_identifier fun _ _ _ => .pure

/-- The loop that reads the parts of an option name behind the first one. -/
def morePartsLoop : Loop Unit (List NamePart) where
  run n _ := moreNameParts n
  ahead _ l := l.tokens

theorem round_morePartsLoop :
    morePartsLoop.Round stack stack l.tokens stack l fun n => moreNameParts (n + 1) := by
  simp only [moreNameParts]
  refine .bind (passes_accepts (steps_other (by decide) (by decide))) fun b l₁ h₁ => ?_
  refine .ite (fun _ => ?_) fun _ => .const .pure
  refine .bind passes_namePart fun part l₂ h₂ => ?_
  exact .next (s := ()) (part :: ·) (h₁.trans h₂)

theorem passes_moreNameParts {n : Nat} (rounds : l.tokens.length < n) :
    Passes 0 stack stack (moreNameParts n) l :=
  Loop.passes (L := morePartsLoop) (s := ()) (fun _ _ _ => round_morePartsLoop) rounds

theorem passes_settingWith {value : Parser Value} [TokenDriven value]
    (inner : ∀ l', l'.tokens.length < l.tokens.length → Passes 1 stack stack value l') :
    Passes 1 stack stack (settingWith value) l := by
  unfold settingWith
  refine .bind passes_namePart fun _ l₁ h₁ => ?_
  refine .peek_bind peeks_budget fun n l₂ h₂ hn => ?_
  rw [← h₂] at h₁ hn
  refine .bind (passes_moreNameParts (by omega)) fun _ l₃ h₃ => ?_
  refine .bind (passes_expect (steps_other (by decide) (by decide))) fun _ l₄ h₄ => ?_
  exact .bind (inner l₄ (by omega)) fun _ _ _ => .pure

/-! ### Looking for a setting -/

/-- The bracket that is checked is the last one that waits. -/
theorem passes_checkOpen {opened : Token} :
    Passes 0 (opened :: stack) (opened :: stack) (checkOpen opened) l := by
  unfold checkOpen
  refine .peek_bind peeks_peek_zero ?_
  rintro t l₁ h₁ ⟨rest, hcons⟩
  refine .ite (fun hend => ?_) fun _ => .pure
  exact .fail ⟨opened, ⟨[], rest, stack, h₁.trans hcons, hend, rfl⟩, rfl, rfl⟩

/-- An identifier and the dot behind it are two of the tokens. -/
theorem lt_of_seen_both {ts : List Token} {i : Nat} {first dot : Token}
    (hfirst : ts[i]? = some first ∨ ts.length ≤ i ∧ ts.getLast? = some first)
    (hdot : ts[i + 1]? = some dot ∨ ts.length ≤ i + 1 ∧ ts.getLast? = some dot)
    (different : first.kind ≠ dot.kind) :
    ts[i]? = some first ∧ ts[i + 1]? = some dot := by
  -- Behind the tokens the last one is seen, and it is not both.
  rcases hdot with hdot | ⟨hle, hlast⟩
  · obtain ⟨hlt, -⟩ := List.getElem?_eq_some_iff.mp hdot
    exact ⟨hfirst.resolve_right fun h => by omega, hdot⟩
  · have hsame : ts.getLast? = some first := by
      rcases hfirst with hfirst | ⟨-, hfirst⟩
      · obtain ⟨hlt, -⟩ := List.getElem?_eq_some_iff.mp hfirst
        rw [List.getLast?_eq_getElem?, show ts.length - 1 = i by omega, hfirst]
      · exact hfirst
    obtain rfl : first = dot := Option.some.inj (hsame.symm.trans hlast)
    exact absurd rfl different

/-- The loop that looks for a setting.  It passes over no token; those ahead of it are the ones that
it has not looked at. -/
def lookaheadLoop : Loop Nat Bool where
  run := leadsToSetting
  ahead i l := l.tokens.drop i

/-- The search goes on behind an identifier and a dot only, and so stays within the tokens. -/
theorem round_lookaheadLoop {i : Nat} :
    lookaheadLoop.Round stack stack (l.tokens.drop i) stack l fun n =>
      leadsToSetting (n + 1) i := by
  simp only [leadsToSetting]
  refine .peek_bind (peeks_peek i) fun first l₁ h₁ hfirst => ?_
  refine .ite (fun hkind => ?_) fun _ => .const .pure
  refine .peek_bind (peeks_peek (i + 1)) fun dot l₂ h₂ hdot => ?_
  refine .ite (fun _ => .const .pure) fun _ => ?_
  refine .ite (fun hkind' => ?_) fun _ => .const .pure
  refine .peek_bind (peeks_peek (i + 2)) fun paren l₃ h₃ _ => ?_
  refine .ite (fun _ => .const .pure) fun _ => ?_
  rw [h₁] at hdot
  obtain ⟨hseen, hseen'⟩ := lt_of_seen_both hfirst hdot (by rw [hkind, hkind']; decide)
  have hfurther := Onward.drop hseen (isEnd_eq_false_of_kind hkind (by decide))
  have hfurther' := Onward.drop hseen' (isEnd_eq_false_of_kind hkind' (by decide))
  refine .next_of_eq ?_
  show Onward 1 (l.tokens.drop i) (l₃.tokens.drop (i + 2))
  rw [h₃, h₂, h₁]
  exact (hfurther.trans hfurther').mono (by decide)

theorem passes_leadsToSetting {n i : Nat} (rounds : (l.tokens.drop i).length < n) :
    Passes 0 stack stack (leadsToSetting n i) l :=
  Loop.passes (L := lookaheadLoop) (fun _ _ _ => round_lookaheadLoop) rounds

theorem passes_isAtSetting : Passes 0 stack stack isAtSetting l := by
  unfold isAtSetting
  refine .peek_bind peeks_isAt fun b l₁ h₁ _ => ?_
  refine .ite (fun _ => .pure) fun _ => ?_
  refine .peek_bind peeks_budget fun n l₂ h₂ hn => ?_
  rw [← h₂] at hn
  exact passes_leadsToSetting (by rw [List.drop_zero]; omega)

/-! ### Keys and separators -/

/-- The key of an extension opens a bracket and closes it. -/
theorem passes_key : Passes 1 stack stack key l := by
  unfold key
  refine Proceeds.bind (proceeds_accepts (steps_open rfl)) ?_
  rintro b l₁ passed _ htokens (⟨rfl, o, rfl, hkind, rfl⟩ | ⟨rfl, rfl, rfl⟩)
  · have hrest : Passes 0 (o :: stack) stack
        (qualifiedName .option "an extension name" >>= fun name => do
          let _ ← expect .option .closeBracket "']' after extension name"
          return "[" ++ name ++ "]") l₁ := by
      refine .bind passes_qualifiedName fun name l₂ _ => ?_
      have hcloses : o.kind.closer? = some .closeBracket := by rw [hkind]; rfl
      exact .bind (passes_expect (steps_close hcloses)) fun _ _ _ => .pure
    exact Proceeds.mono hrest fun _ passed' _ h => ⟨h.1, by simp⟩
  · exact passes_identifier

theorem passes_colon {k : String} : Passes 0 stack stack (colon k) l := by
  unfold colon
  refine .bind (passes_accepts (steps_other (by decide) (by decide))) fun b l₁ _ => ?_
  refine .ite (fun _ => .pure) fun _ => ?_
  refine .peek_bind peeks_peek_zero fun t l₂ _ _ => ?_
  exact .ite (fun _ => .pure) fun _ => .fail trivial

theorem passes_entrySeparator : Passes 0 stack stack entrySeparator l := by
  unfold entrySeparator
  refine .bind (passes_accepts (steps_other (by decide) (by decide))) fun b l₁ _ => ?_
  refine .ite (fun _ => .pure) fun _ => ?_
  exact .bind (passes_accept? (steps_other (by decide) (by decide))) fun _ _ _ => .pure

/-! ### Values -/

section Inner

variable {inner : Parser Value} [TokenDriven inner]

theorem passes_listStep {opened : Token}
    (each : ∀ l', l'.tokens.length ≤ l.tokens.length →
      Passes 1 (opened :: stack) (opened :: stack) inner l') :
    Passes 1 (opened :: stack) (opened :: stack) (listStep inner opened) l := by
  have hitem (l' : Lexed) (h' : l'.tokens.length ≤ l.tokens.length) :
      Passes 1 (opened :: stack) (opened :: stack) (listItem inner) l' := by
    unfold listItem
    refine .bind passes_isAtSetting fun b l₁ h₁ => ?_
    refine .ite (fun _ => ?_) fun _ => ?_
    · exact .bind (passes_settingWith fun l'' hlt => each l'' (by omega)) fun _ _ _ => .pure
    refine .peek_bind peeks_isAt ?_
    rintro b l₂ h₂ ⟨t, rest, hcons, rfl⟩
    refine .ite (fun hkind => ?_) fun _ => each l₂ (by rw [h₂]; omega)
    exact .bind (passes_stringLiteral (h₂.trans hcons) (of_decide_eq_true hkind))
      fun _ _ _ => .pure
  unfold listStep
  refine .bind passes_checkOpen fun _ l₁ h₁ => ?_
  refine .bind (hitem l₁ (by omega)) fun _ l₂ _ => ?_
  exact .bind (passes_accept? (steps_other (by decide) (by decide))) fun _ _ _ => .pure

theorem passes_entryStep {opened : Token}
    (each : ∀ l', l'.tokens.length ≤ l.tokens.length →
      Passes 1 (opened :: stack) (opened :: stack) inner l') :
    Passes 1 (opened :: stack) (opened :: stack) (entryStep inner opened) l := by
  have hentry (l' : Lexed) (h' : l'.tokens.length ≤ l.tokens.length) :
      Passes 1 (opened :: stack) (opened :: stack) (entry inner) l' := by
    unfold entry
    refine .bind passes_key fun _ l₁ h₁ => ?_
    refine .bind passes_colon fun _ l₂ h₂ => ?_
    exact .bind (each l₂ (by omega)) fun _ _ _ => .pure
  unfold entryStep
  refine .bind passes_checkOpen fun _ l₁ h₁ => ?_
  refine .bind (hentry l₁ (by omega)) fun _ l₂ _ => ?_
  exact .bind passes_entrySeparator fun _ _ _ => .pure

/-- A value passes over a token if the values in it do, of which there are fewer tokens left. -/
theorem passes_valueWith
    (each : ∀ stack l', l'.tokens.length < l.tokens.length → Passes 1 stack stack inner l') :
    Passes 1 stack stack (valueWith inner) l := by
  rw [valueWith_eq]
  refine .peek_bind peeks_peek_zero ?_
  rintro t l₁ h₁ ⟨rest, hcons⟩
  rw [← h₁] at hcons each
  rw [valueFrom]
  split
  case h_1 kind => exact .bind (passes_adjacentStrings hcons kind) fun _ _ _ => .pure
  case h_2 kind => exact .bind (passes_integerLiteral hcons kind) fun _ _ _ => .pure
  case h_3 kind => exact .bind (passes_floatLiteral hcons kind) fun _ _ _ => .pure
  case h_4 kind =>
      refine .ite (fun _ => ?_) fun _ => ?_
      · exact .next_bind (steps_other (by decide) (by decide)) hcons kind fun _ _ => .pure
      · exact .bind passes_qualifiedName fun _ _ _ => .pure
  case h_5 => exact .bind passes_qualifiedName fun _ _ _ => .pure
  case h_6 kind =>
      refine .enter (proceeds_next (steps_open rfl) hcons kind) fun opened l₂ hkind h₂ => ?_
      refine .bind (passes_itemsUntil (by rw [hkind]; rfl) fun l₃ h₃ =>
        passes_listStep fun l₄ h₄ => each _ l₄ (by omega)) fun _ _ _ => .pure
  case h_7 kind =>
      refine .enter (proceeds_next (steps_open rfl) hcons kind) fun opened l₂ hkind h₂ => ?_
      refine .bind (passes_itemsUntil (by rw [hkind]; rfl) fun l₃ h₃ =>
        passes_entryStep fun l₄ h₄ => each _ l₄ (by omega)) fun _ _ _ => .pure
  case h_8 => exact .fail trivial

end Inner

theorem passes_valueWithin {depth : Nat} (enough : l.tokens.length < depth) :
    Passes 1 stack stack (valueWithin depth) l := by
  induction depth generalizing l stack with
  | zero => omega
  | succ depth ih => exact passes_valueWith fun _ l' hlt => ih (by omega)

theorem passes_value : Passes 1 stack stack value l := by
  unfold value
  refine .peek_bind peeks_budget fun n l₁ h₁ hn => ?_
  rw [← h₁] at hn
  exact passes_valueWithin (by omega)

/-! ### Settings -/

theorem passes_setting : Passes 1 stack stack setting l :=
  passes_settingWith fun _ _ => passes_value

theorem passes_settingStep {opened : Token} :
    Passes 1 (opened :: stack) (opened :: stack) (settingStep opened) l := by
  unfold settingStep
  refine .bind passes_checkOpen fun _ l₁ _ => ?_
  refine .bind passes_setting fun _ l₂ _ => ?_
  exact .bind (passes_accept? (steps_other (by decide) (by decide))) fun _ _ _ => .pure

theorem passes_bracketedSettings : Passes 1 stack stack bracketedSettings l := by
  rw [bracketedSettings_eq]
  refine .enter (proceeds_expect (steps_open rfl)) fun opened l₁ hkind h₁ => ?_
  exact passes_itemsUntil (by rw [hkind]; rfl) fun _ _ => passes_settingStep

end Proto2.Parser

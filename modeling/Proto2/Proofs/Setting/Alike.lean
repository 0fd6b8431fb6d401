import Proto2.Proofs.Parser.Alike
import Proto2.Proofs.Setting.Values

/-!
What options are read as on tokens that are alike.

The bracket that opens a list or an aggregate is kept while the items are read, and if the input
ends among them it is named in the error.  Where it stands is a part of the hint only.
-/

namespace Proto2

namespace Parser

variable {L : Likeness}

/-! ### Parts of settings -/

theorem alike_namePart : Alike L Eq namePart namePart := by
  unfold namePart
  refine (alike_accepts .openParen).bind_eq fun _ => .ite .rfl ?_ ?_
  · refine (alike_qualifiedName .option _).bind_eq fun _ => ?_
    exact (alike_expect .option .closeParen _).bind fun _ _ _ => .pure rfl
  · exact (alike_identifier .option _).bind_eq fun _ => .pure rfl

theorem alike_moreNameParts (n : Nat) : Alike L Eq (moreNameParts n) (moreNameParts n) := by
  induction n with
  | zero => exact alike_outOfBudget
  | succ n ih =>
      unfold moreNameParts
      refine (alike_accepts .dot).bind_eq fun _ => .ite .rfl ?_ (.pure rfl)
      exact alike_namePart.bind_eq fun _ => ih.bind_eq fun _ => .pure rfl

theorem alike_settingWith {value : Parser Value} [TokenDriven value]
    (values : Alike L Eq value value) : Alike L Eq (settingWith value) (settingWith value) := by
  unfold settingWith
  refine alike_namePart.bind_eq fun _ => alike_budget.bind_eq fun n => ?_
  refine (alike_moreNameParts n).bind_eq fun _ => ?_
  refine (alike_expect .option .equals _).bind fun _ _ _ => ?_
  exact values.bind_eq fun _ => .pure rfl

theorem alike_checkOpen {t u : Token} (alike : L.token t u) :
    Alike L Eq (checkOpen t) (checkOpen u) := by
  unfold checkOpen
  refine (alike_peek 0).bind fun t' u' hend => .ite (by rw [hend.isEnd]) (.fail hend ?_) (.pure rfl)
  exact .unbalanced alike

theorem alike_leadsToSetting (n i : Nat) :
    Alike L Eq (leadsToSetting n i) (leadsToSetting n i) := by
  induction n generalizing i with
  | zero => exact alike_outOfBudget
  | succ n ih =>
      unfold leadsToSetting
      refine (alike_peek i).bind fun _ _ hfirst => .ite hfirst.kind_iff ?_ (.pure rfl)
      refine (alike_peek (i + 1)).bind fun _ _ hafter => .ite hafter.kind_iff (.pure rfl) ?_
      refine .ite hafter.kind_iff ?_ (.pure rfl)
      exact (alike_peek (i + 2)).bind fun _ _ hnext => .ite hnext.kind_iff (.pure rfl) (ih (i + 2))

theorem alike_isAtSetting : Alike L Eq isAtSetting isAtSetting := by
  unfold isAtSetting
  refine (alike_isAt .openParen).bind_eq fun _ => .ite .rfl (.pure rfl) ?_
  exact alike_budget.bind_eq fun n => alike_leadsToSetting n 0

theorem alike_key : Alike L Eq key key := by
  unfold key
  refine (alike_accepts .openBracket).bind_eq fun _ => .ite .rfl ?_ (alike_identifier .option _)
  refine (alike_qualifiedName .option _).bind_eq fun _ => ?_
  exact (alike_expect .option .closeBracket _).bind fun _ _ _ => .pure rfl

theorem alike_colon (k : String) : Alike L Eq (colon k) (colon k) := by
  unfold colon
  refine (alike_accepts .colon).bind_eq fun _ => .ite .rfl (.pure rfl) ?_
  refine (alike_peek 0).bind fun t u htu => .ite (by rw [htu.kind]) (.pure rfl) ?_
  exact .fail htu (.same _)

theorem alike_entrySeparator : Alike L Eq entrySeparator entrySeparator := by
  unfold entrySeparator
  refine (alike_accepts .comma).bind_eq fun _ => .ite .rfl (.pure rfl) ?_
  exact (alike_accept? .semicolon).bind fun _ _ _ => .pure rfl

/-! ### Values -/

section Inner

variable {inner : Parser Value} [TokenDriven inner]

theorem alike_listStep (values : Alike L Eq inner inner) {t u : Token} (alike : L.token t u) :
    Alike L Eq (listStep inner t) (listStep inner u) := by
  have hitem : Alike L Eq (listItem inner) (listItem inner) := by
    unfold listItem
    refine alike_isAtSetting.bind_eq fun _ => .ite .rfl ?_ ?_
    · exact (alike_settingWith values).bind_eq fun _ => .pure rfl
    refine (alike_isAt .string).bind_eq fun _ => .ite .rfl ?_ values
    exact alike_stringLiteral.bind_eq fun _ => .pure rfl
  unfold listStep
  refine (alike_checkOpen alike).bind_eq fun _ => hitem.bind_eq fun _ => ?_
  exact (alike_accept? .comma).bind fun _ _ _ => .pure rfl

theorem alike_entryStep (values : Alike L Eq inner inner) {t u : Token} (alike : L.token t u) :
    Alike L Eq (entryStep inner t) (entryStep inner u) := by
  have hentry : Alike L Eq (entry inner) (entry inner) := by
    unfold entry
    refine alike_key.bind_eq fun k => (alike_colon k).bind_eq fun _ => ?_
    exact values.bind_eq fun _ => .pure rfl
  unfold entryStep
  refine (alike_checkOpen alike).bind_eq fun _ => hentry.bind_eq fun _ => ?_
  exact alike_entrySeparator.bind_eq fun _ => .pure rfl

theorem alike_list (values : Alike L Eq inner inner) : Alike L Eq (list inner) (list inner) := by
  unfold list
  refine alike_next.bind fun t u htu => ?_
  have hitems : Alike L Eq (itemsUntil .closeBracket (listStep inner t))
      (itemsUntil .closeBracket (listStep inner u)) :=
    alike_itemsUntil (alike_listStep values htu)
  exact hitems.bind_eq fun _ => .pure rfl

theorem alike_aggregate (values : Alike L Eq inner inner) :
    Alike L Eq (aggregate inner) (aggregate inner) := by
  unfold aggregate
  refine alike_next.bind fun t u htu => ?_
  have hentries : Alike L Eq (itemsUntil .closeBrace (entryStep inner t))
      (itemsUntil .closeBrace (entryStep inner u)) :=
    alike_itemsUntil (alike_entryStep values htu)
  exact hentries.bind_eq fun _ => .pure rfl

theorem alike_valueFrom (values : Alike L Eq inner inner) {t u : Token} (alike : L.token t u) :
    Alike L Eq (valueFrom inner t) (valueFrom inner u) := by
  have hname : Alike L Eq (qualifiedName .option "a name" >>= fun name => pure (.constant name))
      (qualifiedName .option "a name" >>= fun name => pure (Value.constant name)) :=
    (alike_qualifiedName .option _).bind_eq fun _ => .pure rfl
  unfold valueFrom
  rw [← alike.kind]
  split
  case h_1 => exact alike_adjacentStrings.bind_eq fun _ => .pure rfl
  case h_2 => exact alike_integerLiteral.bind_eq fun _ => .pure rfl
  case h_3 => exact alike_floatLiteral.bind_eq fun _ => .pure rfl
  case h_4 =>
    refine .ite (by rw [alike.isWord, alike.isWord]) ?_ hname
    refine alike_next.bind fun _ _ hword => .pure ?_
    rw [hword.lexeme]
  case h_5 => exact hname
  case h_6 => exact alike_list values
  case h_7 => exact alike_aggregate values
  case h_8 => exact .fail alike (.same _)

theorem alike_valueWith (values : Alike L Eq inner inner) :
    Alike L Eq (valueWith inner) (valueWith inner) := by
  rw [valueWith_eq]
  exact (alike_peek 0).bind fun _ _ => alike_valueFrom values

end Inner

theorem alike_valueWithin (depth : Nat) : Alike L Eq (valueWithin depth) (valueWithin depth) := by
  induction depth with
  | zero => exact alike_outOfBudget
  | succ depth ih => exact alike_valueWith ih

theorem alike_value : Alike L Eq value value := by
  unfold value
  exact alike_budget.bind_eq alike_valueWithin

/-! ### Settings -/

theorem alike_setting : Alike L Eq setting setting :=
  alike_settingWith alike_value

theorem alike_bracketedSettings : Alike L Eq bracketedSettings bracketedSettings := by
  rw [bracketedSettings_eq]
  refine (alike_expect .option .openBracket "").bind fun t u htu => alike_itemsUntil ?_
  unfold settingStep
  refine (alike_checkOpen htu).bind_eq fun _ => alike_setting.bind_eq fun _ => ?_
  exact (alike_accept? .comma).bind fun _ _ _ => .pure rfl

end Parser

end Proto2

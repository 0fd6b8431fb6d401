import Proto2.Printer.File
import Proto2.Proofs.Layout.Lexed
import Proto2.Proofs.Setting.Accepts
import Proto2.Proofs.Setting.Printed

/-!
Settings that are read again.

What is read from a text can be written and read back if the numbers in the text are in range:
the text of the setting bears tokens in which the setting stands, so reading them gives the
setting again.  A float beyond the range is read as an infinity, whose text is a word.
-/

namespace Proto2

/-! ### Readings of a text -/

theorem Parser.ReadsToEnd.unique {α : Type} {p : Parser α} {file : String} {source : List Char}
    {a b : α} (h : Parser.ReadsToEnd p file source a) (h' : Parser.ReadsToEnd p file source b) :
    a = b := by
  obtain ⟨s, hrun, -⟩ := h
  obtain ⟨s', hrun', -⟩ := h'
  cases hrun.symm.trans hrun'
  rfl

/-- What is to be seen of the result of reading a text to its end. -/
theorem exists_readsToEnd_of_view {α β : Type} (p : Parser α) (file : String) (source : List Char)
    (view : α → β) {b : β}
    (h : (match p.run (.ofText file source) with
      | .ok a s => some (view a, s.left.tokens.map (·.isEnd), s.left.failure.isNone)
      | .error _ _ => none) = some (b, [true], true)) :
    ∃ a, Parser.ReadsToEnd p file source a ∧ view a = b := by
  cases hrun : p.run (.ofText file source) with
  | error e s => simp [hrun] at h
  | ok a s =>
      simp only [hrun, Option.some.injEq, Prod.mk.injEq, Option.isNone_iff_eq_none] at h
      obtain ⟨hview, htokens, hfailure⟩ := h
      obtain ⟨e, htokens, hend⟩ := List.map_eq_singleton_iff.mp htokens
      exact ⟨a, ⟨s, hrun, e, by rw [← htokens, ← hfailure], hend⟩, hview⟩

/-! ### Printed settings -/

theorem Value.allWritable_iff {vs : List Value} :
    Value.allWritable vs = true ↔ ∀ v ∈ vs, v.isWritable = true := by
  induction vs with
  | nil => simp [Value.allWritable]
  | cons v vs ih => simp [Value.allWritable, ih]

theorem Value.entriesWritable_iff {entries : List (String × Value)} :
    Value.entriesWritable entries = true ↔ ∀ e ∈ entries, e.2.isWritable = true := by
  induction entries with
  | nil => simp [Value.entriesWritable]
  | cons e entries ih => simp [Value.entriesWritable, ih]

/-- All numbers in a legible value may be written. -/
theorem Value.Legible.isWritable {v : Value} (h : v.Legible) : v.isWritable = true := by
  induction h with
  | int writable => simpa [Value.isWritable] using writable
  | list legible ih => simpa [Value.isWritable, Value.allWritable_iff] using ih
  | aggregate distinct keys plain legible ih =>
      simpa [Value.isWritable, Value.entriesWritable_iff] using ih
  | setting part legible ih => simpa [Value.isWritable, Setting.isWritable] using ih
  | _ => simp [Value.isWritable]

theorem Setting.Legible.isWritable {s : Setting} (h : s.Legible) : s.isWritable = true := by
  simpa [Value.isWritable] using Value.Legible.isWritable h

theorem Setting.Legible.print {s : Setting} (h : s.Legible) :
    (Node.setting s).print = .ok (String.ofList s.text) := by
  simp [Node.print, Node.settings, h.isWritable, Node.text]

/-- The text of a legible setting is read to its end, and as the setting. -/
theorem Setting.Legible.readsToEnd {s : Setting} (h : s.Legible) (file : String) :
    Parser.ReadsToEnd Parser.setting file s.text s := by
  obtain ⟨ws, hwrites, hstands⟩ := h.lays (p := .line) fun c _ => Pen.fits_line c
  obtain ⟨ts, e, tokens, hts⟩ := hwrites.tokensOf file
  have hends : ValueEnds [e] := ⟨e, [], rfl, by
    have he : e.kind = .endOfInput := by simpa [Token.isEnd] using tokens.2
    simp [he]⟩
  exact .of_reads tokens (Parser.reads_setting.mpr (hstands ts [e] hts hends))

/-- A setting that is read to the end of a text, all of whose numbers are in range, is printed,
and its text is read to the end as the setting itself. -/
theorem setting_reread {file : String} {source : List Char} {s : Setting}
    (read : Parser.ReadsToEnd Parser.setting file source s)
    (inRange : ∀ t ∈ (Lexed.ofText file source).tokens, t.InRange) :
    ∃ text, (Node.setting s).print = .ok text ∧
      Parser.ReadsToEnd Parser.setting file text.toList s := by
  obtain ⟨ts, e, tokens, hstands⟩ :=
    (Parser.readsToEnd_iff Parser.reads_setting Stands.begins s).mp read
  have legible : s.Legible := hstands.legible (tokens.allLegible inRange)
  refine ⟨_, legible.print, ?_⟩
  rw [String.toList_ofList]
  exact legible.readsToEnd file

theorem setting_reread_nested :
    ∃ s text,
      Parser.ReadsToEnd Parser.setting "a.proto" "(a.b).c = [1.5, d = 0x7, \"e\", F]".toList s ∧
      (Node.setting s).print = .ok text ∧
      Parser.ReadsToEnd Parser.setting "a.proto" text.toList s := by
  obtain ⟨s, hread, -⟩ := exists_readsToEnd_of_view Parser.setting "a.proto"
    "(a.b).c = [1.5, d = 0x7, \"e\", F]".toList (·.name) (by decide +kernel : _ = some ("a.b", _))
  obtain ⟨text, hprint, hagain⟩ := setting_reread hread (by decide +kernel)
  exact ⟨s, text, hread, hprint, hagain⟩

/-- A float beyond the range is printed as a word, which is read as a constant. -/
theorem not_all_settings_reread :
    ¬ ∀ (file : String) (source : List Char) (s : Setting),
      Parser.ReadsToEnd Parser.setting file source s →
      ∃ text, (Node.setting s).print = .ok text ∧
        Parser.ReadsToEnd Parser.setting file text.toList s := by
  intro h
  let isFloat (s : Setting) : Bool := match s.value with
    | .float _ => true
    | _ => false
  obtain ⟨s, hread, hview⟩ := exists_readsToEnd_of_view Parser.setting "a.proto"
    "x = 1e999".toList (fun s => (isFloat s, (Node.setting s).print.toOption))
    (by decide +kernel : _ = some ((true, some "x = inf"), _))
  obtain ⟨s', hread', hview'⟩ := exists_readsToEnd_of_view Parser.setting "a.proto"
    "x = inf".toList isFloat (by decide +kernel : _ = some (false, _))
  obtain ⟨hfloat, hprint⟩ := Prod.mk.inj hview
  obtain ⟨text, hprint', hagain⟩ := h _ _ s hread
  rw [hprint'] at hprint
  cases hprint
  cases hagain.unique hread'
  cases hfloat.symm.trans hview'

end Proto2

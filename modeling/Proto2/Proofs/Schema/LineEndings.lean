import Proto2.Proofs.Schema.Alike
import Proto2.Proofs.Token.LineEndings

/-!
Line endings do not matter.

A schema says the same whether its lines end in newlines alone or in carriage returns and newlines:
it is read as the same file, or it is refused with the same error at the same place.
-/

namespace Proto2

/-- A file is the same, documentation included, in a text with a carriage return before each
newline; or the errors are of one class and have one text, with file, line, column, message and
hint. -/
theorem SchemaFile.parse_crlf (fileName source : String) :
    (∃ f, SchemaFile.parse fileName source = .ok f ∧
      SchemaFile.parse fileName (String.ofList (Text.crlf source.toList)) = .ok f) ∨
    ∃ e e', SchemaFile.parse fileName source = .error e ∧
      SchemaFile.parse fileName (String.ofList (Text.crlf source.toList)) = .error e' ∧
      e.errorClass = e'.errorClass ∧ e.text = e'.text := by
  have hleft : Likeness.inPlace.Lexed (TokenStream.ofText fileName source.toList).left
      (TokenStream.ofText fileName (Text.crlf source.toList)).left :=
    Lexed.alike_ofText_crlf fileName source.toList
  rw [SchemaFile.parse, SchemaFile.parse, String.toList_ofList]
  rcases (Parser.alike_file fileName).run_of_left hleft with
    ⟨f, _, r, r', hrun, hrun', rfl⟩ | ⟨e, e', r, r', hrun, hrun', halike⟩
  · rw [hrun, hrun']
    exact .inl ⟨f, rfl, rfl⟩
  · rw [hrun, hrun']
    exact .inr ⟨e, e', rfl, rfl, halike⟩

end Proto2

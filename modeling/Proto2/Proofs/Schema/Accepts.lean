import Proto2.Proofs.Schema.Complete
import Proto2.Proofs.Schema.Unique
import Proto2.Proofs.Setting.Accepts

/-!
What the parser of files accepts.

A text is parsed exactly if its tokens are derived by the grammar of files, each literal that is
interpreted denotes something, and the declarations that stand in the tokens are legal.
-/

namespace Proto2

variable {fileName : String} {source : List Char} {ts : List Token} {e : Token}

/-- On the tokens of a text, to denote something is to be readable. -/
theorem TokensOf.derives_hasValue_iff {p : Phrase} (tokens : TokensOf fileName source ts e) :
    Derives Token.HasValue p ts ↔ Derives Token.IsReadable p ts := by
  constructor
  · exact fun h => h.mono fun t ht => (Token.hasValue_iff (tokens.isScanned t ht)).mp
  · exact fun h => h.mono fun t ht => (Token.hasValue_iff (tokens.isScanned t ht)).mpr

theorem atKind_of_isEnd (h : e.isEnd = true) : AtKind .endOfInput [e] := by
  simpa [Token.isEnd] using h

/-- A file stands in the tokens of a text exactly if the grammar derives them. -/
theorem TokensOf.derives_file_iff (tokens : TokensOf fileName source ts e) :
    Derives Token.IsReadable (.category .file) ts ↔ ∃ f, FileStands fileName ts e f := by
  rw [← tokens.derives_hasValue_iff]
  constructor
  · intro h
    obtain ⟨items, hitems⟩ := h.fileItemsAt (atKind_of_isEnd tokens.2)
    exact ⟨_, items, hitems, rfl⟩
  · rintro ⟨f, items, hitems, -⟩
    exact hitems.begins.derives

/-- A text is parsed if and only if its tokens are derived by the grammar of files, with an
escape behind every backslash in a string that is interpreted and no decimal integer too long,
and what stands in them follows the rules.  Then the one file that stands in them is the
result. -/
theorem files_accepted_iff_derived (fileName source : String) :
    ((∃ f, SchemaFile.parse fileName source = .ok f) ↔
      ∃ ts e, TokensOf fileName source.toList ts e ∧
        Derives Token.IsReadable (.category .file) ts ∧
        ∀ f, FileStands fileName ts e f → f.IsValid) ∧
    (∀ f, SchemaFile.parse fileName source = .ok f ↔
      ∃ ts e, TokensOf fileName source.toList ts e ∧ FileStands fileName ts e f ∧ f.IsValid) ∧
    (∀ ts e, TokensOf fileName source.toList ts e →
      (Derives Token.IsReadable (.category .file) ts ↔ ∃! f, FileStands fileName ts e f)) := by
  refine ⟨?_, fun f => SchemaFile.parse_eq_ok, ?_⟩
  · constructor
    · rintro ⟨f, hparse⟩
      obtain ⟨ts, e, tokens, hstands, hvalid⟩ := SchemaFile.parse_eq_ok.mp hparse
      refine ⟨ts, e, tokens, tokens.derives_file_iff.mpr ⟨f, hstands⟩, fun g hg => ?_⟩
      rwa [hg.unique hstands]
    · rintro ⟨ts, e, tokens, hderives, hvalid⟩
      obtain ⟨f, hstands⟩ := tokens.derives_file_iff.mp hderives
      exact ⟨f, SchemaFile.parse_eq_ok.mpr ⟨ts, e, tokens, hstands, hvalid f hstands⟩⟩
  · intro ts e tokens
    rw [tokens.derives_file_iff]
    constructor
    · rintro ⟨f, hstands⟩
      exact ⟨f, hstands, fun g hg => hg.unique hstands⟩
    · rintro ⟨f, hstands, -⟩
      exact ⟨f, hstands⟩

end Proto2

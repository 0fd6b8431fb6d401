import Proto2.Proofs.Setting.Values

/-!
How far settings look ahead.

To see where a name or a run of strings ends, and whether an item of a list is a setting, a parser
looks at tokens that it does not take.  It never looks behind a semicolon or a closing brace: what
is read in front of one of these is read there whatever tokens come behind it.
-/

namespace Proto2

/-- The token ends what no statement goes on behind. -/
def Token.IsCloser (t : Token) : Prop :=
  t.kind = .semicolon ∨ t.kind = .closeBrace

/-- The last two lists of tokens are the same up to a semicolon or a closing brace, and behind it
they go on with the first and the second one. -/
inductive Spliced (rest rest' : List Token) : List Token → List Token → Prop
  | here {t : Token} (closer : t.IsCloser) : Spliced rest rest' (t :: rest) (t :: rest')
  | cons {t : Token} {ts ts' : List Token} (tail : Spliced rest rest' ts ts') :
      Spliced rest rest' (t :: ts) (t :: ts')

namespace Spliced

variable {rest rest' us us' ts ts' : List Token}

theorem trans (h : Spliced us us' ts ts') (h' : Spliced rest rest' us us') :
    Spliced rest rest' ts ts' := by
  induction h with
  | here => exact .cons h'
  | cons tail ih => exact .cons ih

/-- What stands before the rest is the same in both. -/
theorem exists_append (h : Spliced rest rest' ts ts') :
    ∃ text, ts = text ++ rest ∧ ts' = text ++ rest' := by
  induction h with
  | here => exact ⟨[_], rfl, rfl⟩
  | cons tail ih =>
      obtain ⟨text, rfl, rfl⟩ := ih
      exact ⟨_ :: text, rfl, rfl⟩

theorem head (h : Spliced rest rest' ts ts') :
    ∃ t ms ms', ts = t :: ms ∧ ts' = t :: ms' ∧ (t.IsCloser ∨ Spliced rest rest' ms ms') := by
  cases h with
  | here closer => exact ⟨_, _, _, rfl, rfl, .inl closer⟩
  | cons tail => exact ⟨_, _, _, rfl, rfl, .inr tail⟩

theorem atKind {kind : TokenKind} (h : Spliced rest rest' ts ts') (here : AtKind kind ts) :
    AtKind kind ts' := by
  obtain ⟨t, ms, ms', rfl, rfl, -⟩ := h.head
  simpa using here

theorem notAtKind {kind : TokenKind} (h : Spliced rest rest' ts ts') (here : NotAtKind kind ts) :
    NotAtKind kind ts' := by
  obtain ⟨t, ms, ms', rfl, rfl, -⟩ := h.head
  simpa using here

theorem notAtWord {word : String} (h : Spliced rest rest' ts ts') (here : NotAtWord word ts) :
    NotAtWord word ts' := by
  obtain ⟨t, ms, ms', rfl, rfl, -⟩ := h.head
  simpa using here

theorem symm (h : Spliced rest rest' ts ts') : Spliced rest' rest ts' ts := by
  induction h with
  | here closer => exact .here closer
  | cons tail ih => exact .cons ih

theorem nameEnds (h : Spliced rest rest' ts ts') (here : NameEnds ts) : NameEnds ts' := by
  obtain ⟨t, ms, ms', rfl, rfl, closer | tail⟩ := h.head
  · refine ⟨t, ms', rfl, fun dot => ?_⟩
    rcases closer with closer | closer <;> simp [closer] at dot
  · obtain ⟨_, _, ⟨⟩, ends⟩ := here
    exact ⟨t, ms', rfl, fun dot name => ends dot (tail.symm.atKind name)⟩

theorem startsBool_eq (h : Spliced rest rest' ts ts') : startsBool ts = startsBool ts' := by
  obtain ⟨t, ms, ms', rfl, rfl, -⟩ := h.head
  rfl

/-- Neither closer is passed over on the way to an equals sign. -/
theorem leadsOn_eq (h : Spliced rest rest' ts ts') : leadsOn ts = leadsOn ts' := by
  -- Two tokens are passed over at a time, so the list behind another token goes along.
  have hboth : leadsOn ts = leadsOn ts' ∧ ∀ t, leadsOn (t :: ts) = leadsOn (t :: ts') := by
    induction h with
    | @here c closer =>
        have hstop (ts : List Token) : leadsOn (c :: ts) = false := by
          cases ts <;> rcases closer with closer | closer <;> simp [leadsOn, closer]
        refine ⟨by rw [hstop, hstop], fun t => ?_⟩
        rcases closer with closer | closer <;> simp [leadsOn, closer]
    | cons tail ih =>
        refine ⟨ih.2 _, fun t => ?_⟩
        rw [leadsOn, leadsOn, ih.1]
  exact hboth.1

theorem startsSetting_eq (h : Spliced rest rest' ts ts') :
    startsSetting ts = startsSetting ts' := by
  obtain ⟨t, ms, ms', rfl, rfl, closer | tail⟩ := h.head
  · rcases closer with closer | closer <;> simp [startsSetting, closer]
  · rw [startsSetting, startsSetting, tail.leadsOn_eq]

end Spliced

/-- What is read does not depend on tokens behind a semicolon or a closing brace that comes
later. -/
def IsLocal {α : Type} (At : List Token → α → List Token → Prop) : Prop :=
  ∀ ⦃rest rest' ts a us us'⦄, At ts a us → Spliced rest rest' us us' →
    ∃ ts', Spliced rest rest' ts ts' ∧ At ts' a us'

/-- What is read ends in a semicolon or a closing brace, and does not depend on the tokens behind
it. -/
def IsClosed {α : Type} (At : List Token → α → List Token → Prop) : Prop :=
  ∀ ⦃ts a us⦄, At ts a us → ∀ us', ∃ ts', Spliced us us' ts ts' ∧ At ts' a us'

section

variable {α : Type} {At : List Token → α → List Token → Prop}

theorem IsClosed.isLocal (h : IsClosed At) : IsLocal At := by
  intro rest rest' ts a us us' hread spliced
  obtain ⟨ts', spliced', hread'⟩ := h hread us'
  exact ⟨ts', spliced'.trans spliced, hread'⟩

/-- Tokens that are read with some behind them are read the same with any behind them. -/
theorem IsClosed.behind_any (closed : IsClosed At) {ts us : List Token} {a : α}
    (h : At (ts ++ us) a us) (us' : List Token) : At (ts ++ us') a us' := by
  obtain ⟨ts', spliced, h'⟩ := closed h us'
  obtain ⟨text, heq, rfl⟩ := spliced.exists_append
  rwa [List.append_cancel_right heq]

/-- In front of a closer, the tokens behind it may be any. -/
theorem IsLocal.before_closer (h : IsLocal At) {ts us : List Token} {a : α} {t : Token}
    (hread : At ts a (t :: us)) (closer : t.IsCloser) (us' : List Token) :
    ∃ ts', Spliced us us' ts ts' ∧ At ts' a (t :: us') :=
  h hread (.here closer)

theorem Sequence.isLocal (h : IsLocal At) : IsLocal (Sequence At) := by
  intro rest rest' ts as us us' hread spliced
  induction hread with
  | nil => exact ⟨us', spliced, .nil⟩
  | cons head tail ih =>
      obtain ⟨ms', hms, htail⟩ := ih spliced
      obtain ⟨ts', hts, hhead⟩ := h head hms
      exact ⟨ts', hts, .cons hhead htail⟩

theorem Separated.isLocal (h : IsLocal At) : IsLocal (Separated At) := by
  intro rest rest' ts as us us' hread spliced
  induction hread with
  | last head stop =>
      obtain ⟨ts', hts, hhead⟩ := h head spliced
      exact ⟨ts', hts, .last hhead (spliced.notAtKind stop)⟩
  | cons head kind tail ih =>
      obtain ⟨ms', hms, htail⟩ := ih spliced
      obtain ⟨ts', hts, hhead⟩ := h head (.cons hms)
      exact ⟨ts', hts, .cons hhead kind htail⟩

end

/-! ### Names and literals -/

theorem NameTailAt.isLocal : IsLocal NameTailAt := by
  intro rest rest' ts parts us us' hread spliced
  induction hread with
  | nil ends => exact ⟨us', spliced, .nil (spliced.nameEnds ends)⟩
  | cons kind partKind tail ih =>
      obtain ⟨ts', hts, htail⟩ := ih spliced
      exact ⟨_, .cons (.cons hts), .cons kind partKind htail⟩

theorem NameAt.isLocal : IsLocal NameAt := by
  intro rest rest' ts name us us' hread spliced
  cases hread with
  | relative kind tail =>
      obtain ⟨ts', hts, htail⟩ := NameTailAt.isLocal tail spliced
      exact ⟨_, .cons hts, .relative kind htail⟩
  | rooted dotKind kind tail =>
      obtain ⟨ts', hts, htail⟩ := NameTailAt.isLocal tail spliced
      exact ⟨_, .cons (.cons hts), .rooted dotKind kind htail⟩

theorem StringsAt.isLocal : IsLocal StringsAt := by
  intro rest rest' ts ss us us' hread spliced
  induction hread with
  | nil stop => exact ⟨us', spliced, .nil (spliced.notAtKind stop)⟩
  | cons kind value tail ih =>
      obtain ⟨ts', hts, htail⟩ := ih spliced
      exact ⟨_, .cons hts, .cons kind value htail⟩

theorem SkipKind.spliced {kind : TokenKind} {rest rest' ts us us' : List Token}
    (h : SkipKind kind ts us) (spliced : Spliced rest rest' us us') :
    ∃ ts', Spliced rest rest' ts ts' ∧ SkipKind kind ts' us' := by
  rcases h with ⟨t, rfl, hk⟩ | ⟨rfl, stop⟩
  · exact ⟨_, .cons spliced, .inl ⟨t, rfl, hk⟩⟩
  · exact ⟨us', spliced, .inr ⟨rfl, spliced.notAtKind stop⟩⟩

/-! ### Settings and values -/

theorem NamePartAt.isLocal : IsLocal NamePartAt := by
  intro rest rest' ts part us us' hread spliced
  cases hread with
  | builtIn kind => exact ⟨_, .cons spliced, .builtIn kind⟩
  | custom openKind inner closeKind =>
      obtain ⟨ts', hts, hinner⟩ := NameAt.isLocal inner (.cons spliced)
      exact ⟨_, .cons hts, .custom openKind hinner closeKind⟩

theorem MorePartsAt.isLocal : IsLocal MorePartsAt := by
  intro rest rest' ts parts us us' hread spliced
  induction hread with
  | nil stop => exact ⟨us', spliced, .nil (spliced.notAtKind stop)⟩
  | cons kind head tail ih =>
      obtain ⟨ms', hms, htail⟩ := ih spliced
      obtain ⟨ts', hts, hhead⟩ := NamePartAt.isLocal head hms
      exact ⟨_, .cons hts, .cons kind hhead htail⟩

theorem KeyAt.isLocal : IsLocal KeyAt := by
  intro rest rest' ts key us us' hread spliced
  cases hread with
  | plain kind => exact ⟨_, .cons spliced, .plain kind⟩
  | bracketed openKind inner closeKind =>
      obtain ⟨ts', hts, hinner⟩ := NameAt.isLocal inner (.cons spliced)
      exact ⟨_, .cons hts, .bracketed openKind hinner closeKind⟩

theorem ColonAt.spliced {rest rest' ts us us' : List Token} (h : ColonAt ts us)
    (spliced : Spliced rest rest' us us') : ∃ ts', Spliced rest rest' ts ts' ∧ ColonAt ts' us' := by
  cases h with
  | colon kind => exact ⟨_, .cons spliced, .colon kind⟩
  | bracket kind =>
      obtain ⟨t, ms, ms', heq, rfl, -⟩ := spliced.head
      cases heq
      exact ⟨_, spliced, .bracket kind⟩

theorem EntryEndAt.spliced {rest rest' ts us us' : List Token} (h : EntryEndAt ts us)
    (spliced : Spliced rest rest' us us') :
    ∃ ts', Spliced rest rest' ts ts' ∧ EntryEndAt ts' us' := by
  rcases h with ⟨t, rfl, hk⟩ | ⟨stop, skip⟩
  · exact ⟨_, .cons spliced, .inl ⟨t, rfl, hk⟩⟩
  · obtain ⟨ts', hts, hskip⟩ := skip.spliced spliced
    exact ⟨ts', hts, .inr ⟨hts.notAtKind stop, hskip⟩⟩

/-- A setting, a value, items or entries are read as before if what comes behind a closer
changes. -/
theorem Stands.spliced {part : Part} {rest rest' ts us us' : List Token} (h : Stands part ts us)
    (spliced : Spliced rest rest' us us') :
    ∃ ts', Spliced rest rest' ts ts' ∧ Stands part ts' us' := by
  -- From the end of each part back to its start.
  induction h generalizing us' with
  | setting head more kind value ih =>
      obtain ⟨ns', hns, hvalue⟩ := ih spliced
      obtain ⟨ms', hms, hmore⟩ := MorePartsAt.isLocal more (.cons hns)
      obtain ⟨ts', hts, hhead⟩ := NamePartAt.isLocal head hms
      exact ⟨ts', hts, .setting hhead hmore kind hvalue⟩
  | string start strings =>
      obtain ⟨ts', hts, hstrings⟩ := StringsAt.isLocal strings spliced
      exact ⟨ts', hts, .string (hts.atKind start) hstrings⟩
  | int kind value => exact ⟨_, .cons spliced, .int kind value⟩
  | float kind => exact ⟨_, .cons spliced, .float kind⟩
  | bool kind word => exact ⟨_, .cons spliced, .bool kind word⟩
  | constant start inner =>
      obtain ⟨ts', hts, hinner⟩ := NameAt.isLocal inner spliced
      exact ⟨ts', hts, .constant (hts.startsBool_eq ▸ start) hinner⟩
  | list openKind items closeKind ih =>
      obtain ⟨ts', hts, hitems⟩ := ih (.cons spliced)
      exact ⟨_, .cons hts, .list openKind hitems closeKind⟩
  | aggregate openKind entries closeKind ih =>
      obtain ⟨ts', hts, hentries⟩ := ih (.cons spliced)
      exact ⟨_, .cons hts, .aggregate openKind hentries closeKind⟩
  | noItems => exact ⟨us', spliced, .noItems⟩
  | settingItem start head separator tail ih₁ ih₂ =>
      obtain ⟨ns', hns, htail⟩ := ih₂ spliced
      obtain ⟨ms', hms, hseparator⟩ := separator.spliced hns
      obtain ⟨ts', hts, hhead⟩ := ih₁ hms
      exact ⟨ts', hts, .settingItem (hts.startsSetting_eq ▸ start) hhead hseparator htail⟩
  | stringItem kind value separator tail ih =>
      obtain ⟨ns', hns, htail⟩ := ih spliced
      obtain ⟨ms', hms, hseparator⟩ := separator.spliced hns
      exact ⟨_, .cons hms, .stringItem kind value hseparator htail⟩
  | valueItem start other head separator tail ih₁ ih₂ =>
      obtain ⟨ns', hns, htail⟩ := ih₂ spliced
      obtain ⟨ms', hms, hseparator⟩ := separator.spliced hns
      obtain ⟨ts', hts, hhead⟩ := ih₁ hms
      exact ⟨ts', hts,
        .valueItem (hts.startsSetting_eq ▸ start) (hts.notAtKind other) hhead hseparator htail⟩
  | noEntries => exact ⟨us', spliced, .noEntries⟩
  | entry key colon value separator tail ih₁ ih₂ =>
      obtain ⟨qs', hqs, htail⟩ := ih₂ spliced
      obtain ⟨ps', hps, hseparator⟩ := separator.spliced hqs
      obtain ⟨ns', hns, hvalue⟩ := ih₁ hps
      obtain ⟨ms', hms, hcolon⟩ := colon.spliced hns
      obtain ⟨ts', hts, hkey⟩ := KeyAt.isLocal key hms
      exact ⟨ts', hts, .entry hkey hcolon hvalue hseparator htail⟩

theorem Stands.isLocal_setting : IsLocal fun ts s us => Stands (.setting s) ts us :=
  fun _ _ _ _ _ _ hread spliced => hread.spliced spliced

theorem SettingsAt.isLocal : IsLocal SettingsAt := by
  intro rest rest' ts ss us us' hread spliced
  induction hread with
  | nil => exact ⟨us', spliced, .nil⟩
  | cons head separator tail ih =>
      obtain ⟨ns', hns, htail⟩ := ih spliced
      obtain ⟨ms', hms, hseparator⟩ := separator.spliced hns
      obtain ⟨ts', hts, hhead⟩ := head.spliced hms
      exact ⟨ts', hts, .cons hhead hseparator htail⟩

theorem BracketedAt.isLocal : IsLocal BracketedAt := by
  rintro rest rest' _ ss us us' ⟨opening, ts, closing, rfl, openKind, settings, closeKind⟩ spliced
  obtain ⟨ts', hts, hsettings⟩ := SettingsAt.isLocal settings (.cons spliced)
  exact ⟨_, .cons hts, opening, ts', closing, rfl, openKind, hsettings, closeKind⟩

end Proto2

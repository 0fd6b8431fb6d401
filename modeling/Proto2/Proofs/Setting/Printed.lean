import Mathlib.Data.List.Forall2
import Proto2.Proofs.Layout.Lays
import Proto2.Proofs.Number.Text
import Proto2.Proofs.Setting.Complete
import Proto2.Proofs.Setting.Legible

/-!
Printed settings and values.

The text of a legible value bears tokens in which the value stands, and so does the text of a
legible setting.  By induction on the value: what is put around a value in print, brackets,
commas and line ends, is what the grammar reads there.
-/

namespace Proto2

/-! ### Names -/

theorem Lexeme.IdentifierForm.head_not_isDigit {cs : List Char} (h : IdentifierForm cs) :
    ∀ c ∈ cs.head?, c.isDigit = false := by
  obtain ⟨c, rest, rfl, hc, -⟩ := h
  rintro _ ⟨⟩
  exact (startsPlain_of_isIdentifierStart hc).2.1.2.2

theorem intercalate_dot (first : List Char) (parts : List (List Char)) :
    ['.'].intercalate (first :: parts) = first ++ parts.flatMap ('.' :: ·) := by
  induction parts generalizing first with
  | nil => simp
  | cons part parts ih => simp [ih]

theorem toList_dotted_cons (first : String) (parts : List String) :
    (dotted (first :: parts)).toList = first.toList ++ parts.flatMap ('.' :: ·.toList) := by
  rw [dotted, String.toList_ofList, List.map_cons, intercalate_dot, List.flatMap_map]

/-- The parts of a name behind the first one. -/
theorem lays_nameTail {parts : List String} (h : AreIdentifiers parts) :
    Lays (.behind .identifier) (parts.flatMap ('.' :: ·.toList)) (.behind .identifier)
      fun ts us => NameEnds us → NameTailAt ts parts us := by
  induction parts with
  | nil =>
      refine (Lays.done _).mono ?_
      rintro ts us rfl ends
      exact .nil ends
  | cons part parts ih =>
      have hpart := h part (by simp)
      have htail := ih fun part hp => h part (by simp [hp])
      have hfits : ∀ c ∈ part.toList.head?, (Pen.behind .dot).Fits c := fun c hc =>
        Pen.fits_behind (by simp [TokenKind.mayPrecede, hpart.head_not_isDigit c hc])
      rw [List.flatMap_cons]
      refine (Lays.symbol rfl (Pen.fits_behind rfl) (Lays.token hpart.spells hfits htail)).mono ?_
      rintro _ us ⟨dot, _, rfl, hdot, t, ts, rfl, ht, htail⟩ ends
      have hlexeme := Token.lexeme_of_written ht
      rw [String.ofList_toList] at hlexeme
      rw [← hlexeme]
      exact .cons hdot (Token.kind_of_written ht) (htail ends)

/-- A name without a dot in front. -/
theorem lays_relativeName {p : Pen} {first : String} {parts : List String}
    (h : AreIdentifiers (first :: parts)) (fits : ∀ c, c.isDigit = false → p.Fits c) :
    Lays p (dotted (first :: parts)).toList (.behind .identifier) fun ts us => NameEnds us →
      ∃ t ms, ts = t :: ms ∧ t.kind = .identifier ∧ t.lexeme = first ∧ NameTailAt ms parts us := by
  have hfirst := h first (by simp)
  have htail := lays_nameTail fun part hp => h part (List.mem_cons_of_mem _ hp)
  rw [toList_dotted_cons]
  refine (Lays.token hfirst.spells (fun c hc => fits c (hfirst.head_not_isDigit c hc)) htail).mono ?_
  rintro _ us ⟨t, ms, rfl, ht, htail⟩ ends
  have hlexeme := Token.lexeme_of_written ht
  rw [String.ofList_toList] at hlexeme
  exact ⟨t, ms, rfl, Token.kind_of_written ht, hlexeme, htail ends⟩

/-- A name with a dot in front. -/
theorem lays_rootedName {p : Pen} {first : String} {parts : List String}
    (h : AreIdentifiers (first :: parts)) (fits : p.Fits '.') :
    Lays p (dotted ("" :: first :: parts)).toList (.behind .identifier) fun ts us => NameEnds us →
      ∃ dot t ms, ts = dot :: t :: ms ∧ dot.kind = .dot ∧ t.kind = .identifier ∧
        t.lexeme = first ∧ NameTailAt ms parts us := by
  have hname := lays_relativeName h (p := .behind .dot) fun c hc =>
    Pen.fits_behind (by simp [TokenKind.mayPrecede, hc])
  have htext : (dotted ("" :: first :: parts)).toList =
      '.' :: (dotted (first :: parts)).toList := by
    rw [toList_dotted_cons, toList_dotted_cons, List.flatMap_cons]
    rfl
  rw [htext]
  refine (Lays.symbol rfl fits hname).mono ?_
  rintro _ us ⟨dot, _, rfl, hdot, h⟩ ends
  obtain ⟨t, ms, rfl, kind, lexeme, tail⟩ := h ends
  exact ⟨dot, t, ms, rfl, hdot, kind, lexeme, tail⟩

theorem lays_name {p : Pen} {name : String} (h : IsName name) (fits : ∀ c, p.Fits c) :
    Lays p name.toList (.behind .identifier) fun ts us => NameEnds us → NameAt ts name us := by
  obtain ⟨first, parts, hparts, rfl | rfl⟩ := h
  · refine (lays_relativeName hparts fun c _ => fits c).mono ?_
    intro ts us h ends
    obtain ⟨t, ms, rfl, kind, rfl, tail⟩ := h ends
    exact .relative kind tail
  · refine (lays_rootedName hparts (fits '.')).mono ?_
    intro ts us h ends
    obtain ⟨dot, t, ms, rfl, dotKind, kind, rfl, tail⟩ := h ends
    exact .rooted dotKind kind tail

/-- A name that is a value. -/
theorem lays_constant {p : Pen} {name : String} (h : IsConstant name) (fits : ∀ c, p.Fits c) :
    Lays p name.toList (.behind .identifier) fun ts us =>
      NameEnds us → startsBool ts = false ∧ NameAt ts name us := by
  obtain ⟨first, parts, hparts, ⟨rfl, hfirst⟩ | rfl⟩ := h
  · refine (lays_relativeName hparts fun c _ => fits c).mono ?_
    intro ts us h ends
    obtain ⟨t, ms, rfl, kind, rfl, tail⟩ := h ends
    exact ⟨by simpa [startsBool, Token.isWord, kind] using hfirst, .relative kind tail⟩
  · refine (lays_rootedName hparts (fits '.')).mono ?_
    intro ts us h ends
    obtain ⟨dot, t, ms, rfl, dotKind, kind, rfl, tail⟩ := h ends
    exact ⟨by simp [startsBool, Token.isWord, dotKind], .rooted dotKind kind tail⟩

/-- The part of an option name. -/
theorem lays_optionName {p : Pen} {name : String} {custom : Bool}
    (h : NamePart.Legible ⟨name, custom⟩) (fits : ∀ c, c.isDigit = false → p.Fits c) :
    Lays p (optionNameText name custom) (.behind .identifier) fun ts us =>
      NamePartAt ts ⟨name, custom⟩ us := by
  cases custom with
  | true =>
      have hname := lays_name (p := .behind .openParen) (h : IsName name) fun c =>
        Pen.fits_behind rfl
      have hclosed := hname.append (Lays.symbol (c := ')') rfl (Pen.fits_behind rfl) (.done _))
      refine ((Lays.symbol (c := '(') rfl (fits '(' rfl) hclosed).mono ?_).weaken
        (Pen.behind_allows_behind fun _ _ => rfl)
      rintro _ us ⟨opening, ts, rfl, hopen, _, hname, closing, _, rfl, hclose, rfl⟩
      exact .custom hopen (hname ⟨closing, _, rfl, by simp [hclose]⟩) hclose
  | false =>
      have hform : Lexeme.IdentifierForm name.toList := h
      have htoken := Lays.token hform.spells
        (fun c hc => fits c (hform.head_not_isDigit c hc)) (.done (.behind .identifier))
      rw [List.append_nil] at htoken
      refine htoken.mono ?_
      rintro _ us ⟨t, _, rfl, ht, rfl⟩
      have hlexeme := Token.lexeme_of_written ht
      rw [String.ofList_toList] at hlexeme
      rw [← hlexeme]
      exact .builtIn (Token.kind_of_written ht)

/-- The key of an entry. -/
theorem lays_key {key : String} (h : IsKey key) :
    Lays .line key.toList (.behind .integer) fun ts us => KeyAt ts key us := by
  rcases h with hform | ⟨name, hname, rfl⟩
  · have htoken := Lays.token hform.spells (fun c _ => Pen.fits_line c) (.done (.behind .identifier))
    rw [List.append_nil] at htoken
    refine (htoken.mono ?_).weaken (Pen.behind_allows _)
    rintro _ us ⟨t, _, rfl, ht, rfl⟩
    have hlexeme := Token.lexeme_of_written ht
    rw [String.ofList_toList] at hlexeme
    rw [← hlexeme]
    exact .plain (Token.kind_of_written ht)
  · have hlaid := lays_name (p := .behind .openBracket) hname fun c => Pen.fits_behind rfl
    have hclosed := hlaid.append (Lays.symbol (c := ']') rfl (Pen.fits_behind rfl) (.done _))
    have htext : ("[" ++ name ++ "]").toList = '[' :: (name.toList ++ [']']) := by simp
    rw [htext]
    refine ((Lays.symbol (c := '[') rfl (Pen.fits_line _) hclosed).mono ?_).weaken
      (Pen.behind_allows _)
    rintro _ us ⟨opening, ts, rfl, hopen, _, hname, closing, _, rfl, hclose, rfl⟩
    exact .bracketed hopen (hname ⟨closing, _, rfl, by simp [hclose]⟩) hclose

/-! ### Brackets -/

/-- A value ends before a separator, a closing bracket or the end of the input. -/
def ValueEnds (ts : List Token) : Prop :=
  ∃ t us, ts = t :: us ∧
    t.kind ∈ [TokenKind.comma, .semicolon, .closeBracket, .closeBrace, .endOfInput]

theorem ValueEnds.notAtKind {ts : List Token} (h : ValueEnds ts) {kind : TokenKind}
    (other : kind ∉ [TokenKind.comma, .semicolon, .closeBracket, .closeBrace, .endOfInput]) :
    NotAtKind kind ts := by
  obtain ⟨t, us, rfl, hkind⟩ := h
  refine ⟨t, us, rfl, ?_⟩
  rintro rfl
  exact other hkind

theorem ValueEnds.nameEnds {ts : List Token} (h : ValueEnds ts) : NameEnds ts := by
  obtain ⟨t, us, rfl, hkind⟩ := h
  refine ⟨t, us, rfl, fun hdot => ?_⟩
  rw [hdot] at hkind
  exact absurd hkind (by decide)

/-- How things are listed up to a closing bracket: a comma may stand behind each. -/
structure Listing {α : Type} (At : α → List Token → List Token → Prop)
    (Many : List α → List Token → List Token → Prop) (closeKind : TokenKind) : Prop where
  closes : closeKind = .closeBracket ∨ closeKind = .closeBrace
  nil : ∀ {us}, Many [] us us
  more : ∀ {a as ts t us vs}, At a ts (t :: us) → t.kind = .comma → Many as us vs →
    Many (a :: as) ts vs
  last : ∀ {a ts us}, At a ts us → AtKind closeKind us → Many [a] ts us

section Brackets

variable {α : Type} {text : α → List Char} {At : α → List Token → List Token → Prop}
  {Many : List α → List Token → List Token → Prop} {closeKind : TokenKind}
  (listing : Listing At Many closeKind)

include listing

theorem Listing.ends {us : List Token} (h : AtKind closeKind us) : ValueEnds us := by
  obtain ⟨t, vs, rfl, hkind⟩ := h
  exact ⟨t, vs, rfl, by rcases listing.closes with rfl | rfl <;> simp [hkind]⟩

/-- Things with a comma behind each but the last, and the same separation behind every comma. -/
theorem lays_joined {p : Pen} (separation : List Char)
    (separates : ∀ cs R, Lays p cs (.behind .integer) R →
      Lays (.behind .comma) (separation ++ cs) (.behind .integer) R)
    {texts : List (List Char)} {as : List α}
    (laid : List.Forall₂ (fun l a =>
      Lays p l (.behind .integer) fun ts us => ValueEnds us → At a ts us) texts as)
    (some : texts ≠ []) :
    Lays p (Text.joined (',' :: separation) texts) (.behind .integer) fun ts us =>
      AtKind closeKind us → Many as ts us := by
  induction laid with
  | nil => exact absurd rfl some
  | @cons l a texts as head tail ih =>
      cases texts with
      | nil =>
          cases tail
          rw [Text.joined, List.intercalate_singleton]
          exact head.mono fun ts us hat hclose => listing.last (hat (listing.ends hclose)) hclose
      | cons m texts =>
          have hcomma := Lays.symbol (p := .behind .integer) (c := ',') rfl (Pen.fits_behind rfl)
            (separates _ _ (ih (by simp)))
          have htext : Text.joined (',' :: separation) (l :: m :: texts) =
              l ++ ',' :: (separation ++ Text.joined (',' :: separation) (m :: texts)) := by
            rw [Text.joined, List.intercalate_cons_of_ne_nil (by simp)]
            simp [Text.joined]
          rw [htext]
          refine (head.append hcomma).mono ?_
          rintro ts us ⟨_, hat, comma, ms, rfl, hcomma, hrest⟩ hclose
          exact listing.more (hat ⟨comma, ms, rfl, by simp [hcomma]⟩) hcomma (hrest hclose)

/-- Brackets with nothing between them. -/
theorem lays_unfilled {p : Pen} {opening closing : Char} {openKind : TokenKind}
    (opens : ∀ c, openKind.mayPrecede c = true)
    (hopen : TokenKind.ofSymbol? opening = some openKind)
    (hclose : TokenKind.ofSymbol? closing = some closeKind) (fits : p.Fits opening) :
    Lays p [opening, closing] (.behind .integer) fun ts us =>
      ∃ o ms c, ts = o :: ms ∧ o.kind = openKind ∧ c.kind = closeKind ∧ Many [] ms (c :: us) := by
  have hclosed := Lays.symbol hclose (Pen.fits_behind (opens _)) (.done _)
  refine ((Lays.symbol hopen fits hclosed).mono ?_).weaken (Pen.behind_allows _)
  rintro _ us ⟨o, _, rfl, ho, c, _, rfl, hc, rfl⟩
  exact ⟨o, _, c, rfl, ho, hc, listing.nil⟩

/-- Things between brackets, on lines of their own. -/
theorem lays_bracketed {p : Pen} {opening closing : Char}
    {openKind : TokenKind} (opens : ∀ c, openKind.mayPrecede c = true)
    (hopen : TokenKind.ofSymbol? opening = some openKind)
    (hclose : TokenKind.ofSymbol? closing = some closeKind) (fits : p.Fits opening) {as : List α}
    (laid : ∀ a ∈ as,
      Lays .line (text a) (.behind .integer) fun ts us => ValueEnds us → At a ts us) :
    Lays p (bracketedText opening closing (as.map text)) (.behind .integer) fun ts us =>
      ∃ o ms c, ts = o :: ms ∧ o.kind = openKind ∧ c.kind = closeKind ∧ Many as ms (c :: us) := by
  cases as with
  | nil => exact lays_unfilled listing opens hopen hclose fits
  | cons a as =>
      have hall : List.Forall₂ (fun l a => Lays .line l (.behind .integer) fun ts us =>
          ValueEnds us → At a ts us) ((a :: as).map text) (a :: as) :=
        List.forall₂_map_left_iff.mpr (List.forall₂_same.mpr laid)
      have hlines := lays_joined listing ['\n']
        (fun cs R h => Lays.newline (p := .behind .comma) h) hall (by simp)
      have hclosed := Lays.symbol (p := .line) hclose (Pen.fits_line _) (.done _)
      have hbody := (hlines.append (Lays.newline (.done _))).indent.append hclosed
      have hopened := Lays.symbol hopen fits (Lays.newline hbody)
      refine (hopened.mono ?_).weaken (Pen.behind_allows _)
      rintro _ us ⟨o, ms, rfl, ho, _, ⟨_, hmany, rfl⟩, c, _, rfl, hc, rfl⟩
      exact ⟨o, ms, c, rfl, ho, hc, hmany ⟨c, _, rfl, hc⟩⟩

/-- Things between brackets, in one line. -/
theorem lays_enclosed {p : Pen} {opening closing : Char}
    {openKind : TokenKind} (opens : ∀ c, openKind.mayPrecede c = true)
    (hopen : TokenKind.ofSymbol? opening = some openKind)
    (hclose : TokenKind.ofSymbol? closing = some closeKind) (fits : p.Fits opening)
    {texts : List (List Char)} {as : List α}
    (laid : List.Forall₂ (fun l a =>
      Lays .gap l (.behind .integer) fun ts us => ValueEnds us → At a ts us) texts as) :
    Lays p (opening :: (Text.joined [',', ' '] texts ++ [closing])) (.behind .integer)
      fun ts us => ∃ o ms c, ts = o :: ms ∧ o.kind = openKind ∧ c.kind = closeKind ∧
        Many as ms (c :: us) := by
  cases laid with
  | nil => exact lays_unfilled listing opens hopen hclose fits
  | cons head tail =>
      have hitems := lays_joined listing [' ']
        (fun cs R h => Lays.space (p := .behind .comma) h) (.cons head tail) (by simp)
      have hother : closeKind ≠ .dot := by rcases listing.closes with rfl | rfl <;> decide
      have hfits := Lexeme.mayPrecede_of_ofSymbol? hclose hother .integer
      have hclosed := hitems.append (Lays.symbol hclose (Pen.fits_behind hfits) (.done _))
      have hopened := Lays.symbol hopen fits
        (hclosed.allowed (p := .behind openKind) ⟨rfl, rfl, fun c _ => Pen.fits_behind (opens c)⟩)
      refine (hopened.mono ?_).weaken (Pen.behind_allows _)
      rintro _ us ⟨o, ms, rfl, ho, _, hmany, c, _, rfl, hc, rfl⟩
      exact ⟨o, ms, c, rfl, ho, hc, hmany ⟨c, _, rfl, hc⟩⟩

end Brackets

/-! ### Entries under distinct keys -/

theorem Entries.put_of_not_mem {α : Type} {key : String} {value : α} {es : List (String × α)}
    (h : key ∉ es.map Prod.fst) : put key value es = es ++ [(key, value)] := by
  induction es with
  | nil => rfl
  | cons e es ih =>
      rw [List.map_cons, List.mem_cons, not_or] at h
      rw [put, if_neg (Ne.symm h.1), ih h.2, List.cons_append]

theorem Entries.get?_of_not_mem {α : Type} {key : String} {es : List (String × α)}
    (h : key ∉ es.map Prod.fst) : get? key es = none := by
  induction es with
  | nil => rfl
  | cons e es ih =>
      rw [List.map_cons, List.mem_cons, not_or] at h
      rw [get?, if_neg (Ne.symm h.1), ih h.2]

/-- Entries under distinct keys are an aggregate as they are. -/
theorem Value.ofEntries_of_nodup {entries : List (String × Value)}
    (h : (entries.map Prod.fst).Nodup) : Value.ofEntries entries = .aggregate entries := by
  suffices key : ∀ more dict : List (String × Value), ((dict ++ more).map Prod.fst).Nodup →
      more.foldl (fun dict e => Value.collect dict e.1 e.2) dict = dict ++ more by
    rw [Value.ofEntries, key entries [] h, List.nil_append]
  -- None of the keys to come is among those that have been put.
  intro more
  induction more with
  | nil => simp
  | cons e more ih =>
      intro dict hnodup
      have hkey : e.1 ∉ dict.map Prod.fst := by
        intro hmem
        rw [List.map_append, List.map_cons, List.nodup_append] at hnodup
        exact hnodup.2.2 _ hmem _ List.mem_cons_self rfl
      have hcollect : Value.collect dict e.1 e.2 = dict ++ [e] := by
        rw [Value.collect, Entries.get?_of_not_mem hkey, Entries.put_of_not_mem hkey]
      rw [List.foldl_cons, hcollect, ih (dict ++ [e]) (by simpa using hnodup)]
      simp

/-! ### Values -/

theorem NameTailAt.leadsOn_eq_false {ts us : List Token} {parts : List String}
    (h : NameTailAt ts parts us) (ends : ValueEnds us) : leadsOn ts = false := by
  induction h with
  | nil =>
      obtain ⟨t, us, rfl, hkind⟩ := ends
      have hequals : t.kind ≠ .equals := by
        intro h
        rw [h] at hkind
        exact absurd hkind (by decide)
      have hdot : t.kind ≠ .dot := by
        intro h
        rw [h] at hkind
        exact absurd hkind (by decide)
      cases us <;> simp [leadsOn, hequals, hdot]
  | cons kind partKind tail ih => simp [leadsOn, kind, partKind, ih ends]

/-- Where a value stands and ends, no setting starts. -/
theorem Stands.startsSetting_eq_false {v : Value} {ts us : List Token}
    (h : Stands (.value v) ts us) (ends : ValueEnds us) : startsSetting ts = false := by
  cases h with
  | string start strings =>
      obtain ⟨t, rest, rfl, hk⟩ := start
      simp [startsSetting, hk]
  | int kind value => simp [startsSetting, kind]
  | float kind => simp [startsSetting, kind]
  | bool kind word =>
      simp [startsSetting, kind, (NameTailAt.nil ends.nameEnds).leadsOn_eq_false ends]
  | constant start inner =>
      cases inner with
      | relative kind tail => simp [startsSetting, kind, tail.leadsOn_eq_false ends]
      | rooted dotKind kind tail => simp [startsSetting, dotKind]
  | list openKind items closeKind => simp [startsSetting, openKind]
  | aggregate openKind entries closeKind => simp [startsSetting, openKind]

/-- An item of a list. -/
inductive ItemAt : Value → List Token → List Token → Prop
  | setting {s : Setting} {ts us : List Token} (start : startsSetting ts = true)
      (stands : Stands (.setting s) ts us) : ItemAt (.setting s) ts us
  | string {t : Token} {s : String} {us : List Token} (kind : t.kind = .string)
      (value : t.stringValue = .ok s) : ItemAt (.string s) (t :: us) us
  | value {v : Value} {ts us : List Token} (start : startsSetting ts = false)
      (other : NotAtKind .string ts) (stands : Stands (.value v) ts us) : ItemAt v ts us

theorem ItemAt.cons {v : Value} {vs : List Value} {ts ms ns us : List Token}
    (h : ItemAt v ts ms) (separator : SkipKind .comma ms ns) (tail : Stands (.items vs) ns us) :
    Stands (.items (v :: vs)) ts us := by
  cases h with
  | setting start stands => exact .settingItem start stands separator tail
  | string kind value => exact .stringItem kind value separator tail
  | value start other stands => exact .valueItem start other stands separator tail

/-- The text of the value bears tokens in which the value stands. -/
def Value.IsLaid : Value → Prop
  | .setting s => ∀ p : Pen, (∀ c, c.isDigit = false → p.Fits c) →
    Lays p s.text (.behind .integer) fun ts us => ValueEnds us → Stands (.setting s) ts us
  | v => ∀ p : Pen, (∀ c, p.Fits c) → Lays p v.text (.behind .integer) fun ts us =>
    ValueEnds us → Stands (.value v) ts us ∧ ItemAt v ts us

theorem Value.IsLaid.item {v : Value} (h : v.IsLaid) :
    Lays .line v.text (.behind .integer) fun ts us => ValueEnds us → ItemAt v ts us := by
  cases v with
  | setting s =>
      refine (h .line fun c _ => Pen.fits_line c).mono fun ts us h ends => ?_
      obtain ⟨d, rfl, derived⟩ := (h ends).begins
      exact .setting (startsSetting_of_setting us derived) (h ends)
  | _ => exact (h .line Pen.fits_line).mono fun ts us h ends => (h ends).2

theorem Lays.plain {p q : Pen} {cs : List Char} {v : Value}
    (h : Lays p cs q fun ts us =>
      ValueEnds us → Stands (.value v) ts us ∧ NotAtKind .string ts) :
    Lays p cs q fun ts us => ValueEnds us → Stands (.value v) ts us ∧ ItemAt v ts us := by
  refine h.mono fun ts us h ends => ?_
  obtain ⟨stands, other⟩ := h ends
  exact ⟨stands, .value (stands.startsSetting_eq_false ends) other stands⟩

/-- A value that is one token. -/
theorem Lays.single {p : Pen} {text lexeme : List Char} {kind : TokenKind}
    (spells : Lexeme.Spells text kind lexeme) (fits : ∀ c, p.Fits c) :
    Lays p text (.behind .integer) fun ts us =>
      ∃ t, ts = t :: us ∧ t.kind = kind ∧ t.lexeme = String.ofList lexeme := by
  have htoken := Lays.token spells (fun c _ => fits c) (.done _)
  rw [List.append_nil] at htoken
  refine (htoken.mono ?_).weaken (Pen.behind_allows _)
  rintro _ us ⟨t, _, rfl, ht, rfl⟩
  exact ⟨t, rfl, Token.kind_of_written ht, Token.lexeme_of_written ht⟩

theorem identifierForm_bool (b : Bool) : Lexeme.IdentifierForm (Value.bool b).text := by
  cases b with
  | true => exact ⟨'t', ['r', 'u', 'e'], rfl, by decide, List.all_eq_true.mp rfl⟩
  | false => exact ⟨'f', ['a', 'l', 's', 'e'], rfl, by decide, List.all_eq_true.mp rfl⟩

section Values

variable {p : Pen} (fits : ∀ c, p.Fits c)

include fits

theorem lays_string (text : String) :
    Lays p (Value.string text).text (.behind .integer) fun ts us => ValueEnds us →
      Stands (.value (.string text)) ts us ∧ ItemAt (.string text) ts us := by
  refine (Lays.single (Lexeme.spells_encode text.toList) fits).mono ?_
  rintro _ us ⟨t, rfl, kind, lexeme⟩ ends
  have hvalue : t.stringValue = .ok text := by
    rw [Token.stringValue, lexeme, String.toList_ofList, StringBody.decode_encode, Except.map,
      String.ofList_toList]
  have hstrings : StringsAt (t :: us) [text] us :=
    .cons kind hvalue (.nil (ends.notAtKind (by decide)))
  have hstands : Stands (.value (.string (String.join [text]))) (t :: us) us :=
    .string ⟨t, us, rfl, kind⟩ hstrings
  rw [show String.join [text] = text by simp [String.join]] at hstands
  exact ⟨hstands, .string kind hvalue⟩

theorem lays_bool (b : Bool) :
    Lays p (Value.bool b).text (.behind .integer) fun ts us => ValueEnds us →
      Stands (.value (.bool b)) ts us ∧ NotAtKind .string ts := by
  refine (Lays.single (identifierForm_bool b).spells fits).mono ?_
  rintro _ us ⟨t, rfl, kind, lexeme⟩ -
  have hword : t.lexeme = if b then "true" else "false" := by
    rw [lexeme]
    cases b <;> rfl
  have hstarts : startsBool (t :: us) = true := by
    cases b <;> simp [startsBool, Token.isWord, kind, hword]
  have hvalue : decide (t.lexeme = "true") = b := by
    cases b <;> simp [hword]
  have hstands : Stands (.value (.bool (t.lexeme = "true"))) (t :: us) us := .bool kind hstarts
  rw [hvalue] at hstands
  exact ⟨hstands, by simp [kind]⟩

theorem lays_int {n : Int} (writable : Numeral.isWritable n = true) :
    Lays p (Value.int n).text (.behind .integer) fun ts us => ValueEnds us →
      Stands (.value (.int n)) ts us ∧ NotAtKind .string ts := by
  refine (Lays.single (Numeral.spells_text n) fits).mono ?_
  rintro _ us ⟨t, rfl, kind, lexeme⟩ -
  refine ⟨.int kind ?_, by simp [kind]⟩
  rw [Token.integerValue, lexeme, String.toList_ofList, IntegerLiteral.read_text writable]

theorem lays_float (negative : Bool) (m : Magnitude) :
    Lays p (Value.float (.finite negative m)).text (.behind .integer) fun ts us => ValueEnds us →
      Stands (.value (.float (.finite negative m))) ts us ∧ NotAtKind .string ts := by
  refine (Lays.single (Binary64.spells_text negative m) fits).mono ?_
  rintro _ us ⟨t, rfl, kind, lexeme⟩ -
  have hvalue : t.floatValue = .finite negative m := by
    rw [Token.floatValue, lexeme, String.toList_ofList, Binary64.read_text]
  rw [← hvalue]
  exact ⟨.float kind, by simp [kind]⟩

end Values

theorem Value.IsLaid.of_isPlain {v : Value} (h : v.IsLaid) (plain : v.IsPlain) {p : Pen}
    (fits : ∀ c, p.Fits c) : Lays p v.text (.behind .integer) fun ts us =>
      ValueEnds us → Stands (.value v) ts us := by
  cases v with
  | setting s => exact absurd rfl (plain s)
  | _ => exact (h p fits).mono fun ts us h ends => (h ends).1

theorem NotAtKind.of_atKind {kind other : TokenKind} {ts : List Token} (h : AtKind kind ts)
    (differs : kind ≠ other) : NotAtKind other ts := by
  obtain ⟨t, us, rfl, rfl⟩ := h
  exact ⟨t, us, rfl, differs⟩

theorem Value.texts_eq (vs : List Value) : Value.texts vs = vs.map Value.text := by
  induction vs with
  | nil => simp [Value.texts]
  | cons v vs ih => simp [Value.texts, ih]

/-- The text of an entry. -/
def entryText (e : String × Value) : List Char :=
  e.1.toList ++ ':' :: ' ' :: e.2.text

theorem Value.entryTexts_eq (es : List (String × Value)) :
    Value.entryTexts es = es.map entryText := by
  induction es with
  | nil => simp [Value.entryTexts]
  | cons e es ih => simp [Value.entryTexts, ih, entryText]

theorem listing_items :
    Listing ItemAt (fun vs ts us => Stands (.items vs) ts us) .closeBracket where
  closes := .inl rfl
  nil := .noItems
  more h ht hs := h.cons (.inl ⟨_, rfl, ht⟩) hs
  last h hc := h.cons (.inr ⟨rfl, .of_atKind hc (by decide)⟩) .noItems

theorem lays_list {items : List Value} (laid : ∀ v ∈ items, v.IsLaid) {p : Pen}
    (fits : ∀ c, p.Fits c) :
    Lays p (Value.list items).text (.behind .integer) fun ts us => ValueEnds us →
      Stands (.value (.list items)) ts us ∧ NotAtKind .string ts := by
  have hlaid := lays_bracketed listing_items (fun _ => rfl)
    (rfl : TokenKind.ofSymbol? '[' = some .openBracket)
    (rfl : TokenKind.ofSymbol? ']' = some .closeBracket) (fits _) fun v hv => (laid v hv).item
  rw [Value.text, Value.texts_eq]
  refine hlaid.mono ?_
  rintro _ us ⟨o, ms, c, rfl, ho, hc, hitems⟩ -
  exact ⟨.list ho hitems hc, by simp [ho]⟩

/-- An entry of an aggregate. -/
def EntryAt (e : String × Value) (ts us : List Token) : Prop :=
  ∃ ms ns, KeyAt ts e.1 ms ∧ ColonAt ms ns ∧ Stands (.value e.2) ns us

theorem lays_entry {e : String × Value} (key : IsKey e.1) (plain : e.2.IsPlain)
    (laid : e.2.IsLaid) :
    Lays .line (entryText e) (.behind .integer) fun ts us => ValueEnds us → EntryAt e ts us := by
  have hvalue := laid.of_isPlain plain Pen.fits_gap
  have hcolon := Lays.symbol (p := .behind .integer) (c := ':') rfl (Pen.fits_behind rfl)
    (Lays.space (p := .behind .colon) hvalue)
  refine ((lays_key key).append hcolon).mono ?_
  rintro ts us ⟨ms, hkey, t, ns, rfl, ht, hvalue⟩ ends
  exact ⟨_, ns, hkey, .colon ht, hvalue ends⟩

theorem listing_entries :
    Listing EntryAt (fun es ts us => Stands (.entries es) ts us) .closeBrace where
  closes := .inr rfl
  nil := .noEntries
  more := by
    rintro e es ts t us ws ⟨ms, ns, hkey, hcolon, hvalue⟩ ht hs
    exact .entry hkey hcolon hvalue (.inl ⟨t, rfl, ht⟩) hs
  last := by
    rintro e ts us ⟨ms, ns, hkey, hcolon, hvalue⟩ hc
    exact .entry hkey hcolon hvalue
      (.inr ⟨.of_atKind hc (by decide), .inr ⟨rfl, .of_atKind hc (by decide)⟩⟩) .noEntries

theorem lays_aggregate {entries : List (String × Value)}
    (distinct : (entries.map Prod.fst).Nodup)
    (laid : ∀ e ∈ entries, Lays .line (entryText e) (.behind .integer) fun ts us =>
      ValueEnds us → EntryAt e ts us) {p : Pen} (fits : ∀ c, p.Fits c) :
    Lays p (Value.aggregate entries).text (.behind .integer) fun ts us => ValueEnds us →
      Stands (.value (.aggregate entries)) ts us ∧ NotAtKind .string ts := by
  have hlaid := lays_bracketed listing_entries (fun _ => rfl)
    (rfl : TokenKind.ofSymbol? '\x7b' = some .openBrace)
    (rfl : TokenKind.ofSymbol? '\x7d' = some .closeBrace) (fits _) laid
  rw [Value.text, Value.entryTexts_eq]
  refine hlaid.mono ?_
  rintro _ us ⟨o, ms, c, rfl, ho, hc, hentries⟩ -
  rw [← Value.ofEntries_of_nodup distinct]
  exact ⟨.aggregate ho hentries hc, by simp [ho]⟩

/-! ### Settings -/

theorem Setting.text_setting (name : String) (inner : Setting) (custom : Bool) :
    Setting.text ⟨name, .setting inner, custom⟩ =
      optionNameText name custom ++ '.' :: inner.text := by
  rw [Setting.text]

theorem Setting.text_plain {name : String} {value : Value} {custom : Bool}
    (plain : value.IsPlain) : Setting.text ⟨name, value, custom⟩ =
      optionNameText name custom ++ ' ' :: '=' :: ' ' :: value.text := by
  cases value with
  | setting s => exact absurd rfl (plain s)
  | _ => simp [Setting.text]

theorem lays_setting {name : String} {value : Value} {custom : Bool}
    (part : NamePart.Legible ⟨name, custom⟩) (laid : value.IsLaid) :
    (Value.setting ⟨name, value, custom⟩).IsLaid := by
  intro p fits
  have hname := lays_optionName part fits
  by_cases hplain : value.IsPlain
  · have hvalue := laid.of_isPlain hplain Pen.fits_gap
    have hequals := Lays.symbol (p := .gap) (c := '=') rfl (Pen.fits_gap _)
      (Lays.space (p := .behind .equals) hvalue)
    rw [Setting.text_plain hplain]
    refine (hname.append (Lays.space (p := .behind .identifier) hequals)).mono ?_
    rintro ts us ⟨ms, hpart, equals, ns, rfl, hequals, hvalue⟩ ends
    exact .setting hpart (.nil (by simp [hequals])) hequals (hvalue ends)
  · obtain ⟨inner, rfl⟩ : ∃ inner, value = .setting inner := by
      simpa [Value.IsPlain] using hplain
    have hinner := laid (.behind .dot) fun c hc =>
      Pen.fits_behind (by simp [TokenKind.mayPrecede, hc])
    have hdot := Lays.symbol (p := .behind .identifier) (c := '.') rfl (Pen.fits_behind rfl) hinner
    rw [Setting.text_setting]
    refine (hname.append hdot).mono ?_
    rintro ts us ⟨ms, hpart, dot, ns, rfl, dotKind, hinner⟩ ends
    cases hinner ends with
    | setting head more kind value => exact .setting hpart (.cons dotKind head more) kind value

/-- The text of a legible value bears tokens in which the value stands. -/
theorem Value.Legible.isLaid {v : Value} (h : v.Legible) : v.IsLaid := by
  induction h with
  | string text => exact fun p fits => lays_string fits text
  | bool b => exact fun p fits => (lays_bool fits b).plain
  | int writable => exact fun p fits => (lays_int fits writable).plain
  | float negative m => exact fun p fits => (lays_float fits negative m).plain
  | constant isConstant =>
      intro p fits
      apply Lays.plain
      refine ((lays_constant isConstant fits).mono ?_).weaken (Pen.behind_allows _)
      intro ts us h ends
      obtain ⟨start, name⟩ := h ends.nameEnds
      refine ⟨.constant start name, ?_⟩
      cases name with
      | relative kind tail => simp [kind]
      | rooted dotKind kind tail => simp [dotKind]
  | list legible ih => exact fun p fits => (lays_list ih fits).plain
  | aggregate distinct keys plain legible ih =>
      exact fun p fits => (lays_aggregate distinct
        (fun e he => lays_entry (keys e he) (plain e he) (ih e he)) fits).plain
  | setting part legible ih => exact lays_setting part ih

/-- The text of a legible setting bears tokens in which the setting stands. -/
theorem Setting.Legible.lays {s : Setting} (h : s.Legible) {p : Pen}
    (fits : ∀ c, c.isDigit = false → p.Fits c) :
    Lays p s.text (.behind .integer) fun ts us => ValueEnds us → Stands (.setting s) ts us :=
  Value.Legible.isLaid h p fits

end Proto2

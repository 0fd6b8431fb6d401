import Proto2.Proofs.Corpus.Enums
import Proto2.Proofs.Corpus.Services
import Proto2.Proofs.Schema.Reparsed

/-!
Random messages.

What a message declares comes in pieces, one kind of item after the other.  The rules that concern
several of its items are about its fields, which are all drawn at once, and about its enums.  So a
message is legal if its pieces are, by induction on how deep messages nest.
-/

namespace Proto2.Corpus

open Generator (Yields)

variable {σ : Type} {d : DrawSource σ}

/-! ### Extension ranges -/

/-- All ranges of the statements are legal. -/
def RangesValid (rss : List (List ExtensionRange)) : Prop :=
  ∀ rs ∈ rss, ∀ r ∈ rs, r.IsValid

theorem isValid_range {n m : Int} (least : 1 ≤ n) (ordered : n ≤ m) (greatest : m ≤ 536870911)
    (doc : String) : ExtensionRange.IsValid ⟨doc, n, m⟩ :=
  ⟨least, ordered, greatest⟩

/-- A statement of legal ranges on a line of its own. -/
theorem laysBody_extensions {text : Line} (h : Lays .gap text (.behind .integer) fun ts us =>
      AtKind .semicolon us → ∀ doc, ∃ rs, Separated (RangeAt doc) ts rs us ∧ ∀ r ∈ rs, r.IsValid)
    (indent : Nat) :
    LaysBody RangesAt RangesValid [spaces indent ++ "extensions ".toList ++ text ++ [';']] := by
  have hline := lays_keyword (w := "extensions") (isIdentifier_of rfl rfl rfl)
    (h.append (lays_semicolon .integer)) indent []
  refine .one (.single ((hline.of_eq (by simp)).mono ?_))
  rintro ts us ⟨word, _, rfl, hword, _, hranges, semi, rfl, hsemi⟩
  obtain ⟨rs, hrs, hvalid⟩ := hranges ⟨semi, us, rfl, hsemi⟩ word.documentation
  exact ⟨rs, .mk hword hrs hsemi, hvalid⟩

/-- A statement of one legal range. -/
theorem laysBody_range {text : Line} {n m : Int} (least : 1 ≤ n) (ordered : n ≤ m)
    (greatest : m ≤ 536870911) (h : Lays .gap text (.behind .integer) fun ts us =>
      ∀ doc, RangeAt doc ts ⟨doc, n, m⟩ us) (indent : Nat) :
    LaysBody RangesAt RangesValid [spaces indent ++ "extensions ".toList ++ text ++ [';']] := by
  refine laysBody_extensions (h.mono fun ts us hrange hsemi doc => ?_) indent
  refine ⟨[_], .last (hrange doc) (.of_atKind hsemi (by decide)), ?_⟩
  exact List.forall_mem_singleton.mpr (isValid_range least ordered greatest doc)

theorem yields_extensionsLine (inRange : d.InRange) (indent : Nat) :
    Yields d (extensionsLine (spaces indent)) (LaysBody RangesAt RangesValid) := by
  refine .bind (.between inRange (by decide : 0 ≤ 100)) fun first hfirst =>
    .bind (.between inRange (by decide : 0 ≤ 50)) fun more hmore =>
    .bind (.oneOf fun _ h => h) fun stopText hstop => .pure ?_
  have hwritable {n : Nat} (h : n ≤ 1150) : Numeral.isWritable n = true :=
    Numeral.isWritable_of_natAbs_lt (by omega)
  have hstart : Numeral.isWritable (1000 + first : Nat) = true := hwritable (by omega)
  suffices hline : LaysBody RangesAt RangesValid [spaces indent ++ "extensions ".toList ++
      (number (1000 + first) ++ ' ' :: ("to".toList ++ ' ' :: stopText)) ++ [';']] from
    LaysLines.of_eq hline (by simp)
  rcases List.mem_cons.mp hstop with rfl | hmax
  · have hstop : Numeral.isWritable (1000 + first + more : Nat) = true := hwritable (by omega)
    exact laysBody_range (by omega) (by omega) (by omega) (lays_rangeBetween hstart hstop) indent
  · rw [List.mem_singleton.mp hmax]
    exact laysBody_range (by omega) (show _ ≤ (536870911 : Int) by omega) (Int.le_refl _)
      (lays_rangeOnwards hstart) indent

/-- One number and one range of numbers. -/
theorem laysBody_moreRanges (indent : Nat) :
    LaysBody RangesAt RangesValid [spaces indent ++ "extensions 500, 600 to 700;".toList] := by
  have hrange := lays_rangeBetween (n := 600) (m := 700) (by decide +kernel) (by decide +kernel)
  have hcomma := Lays.symbol (p := .behind .integer) (c := ',') rfl (Pen.fits_behind rfl)
    (Lays.space (p := .behind .comma) hrange)
  have hboth := (lays_rangeOfOne (n := 500) (by decide +kernel)).append hcomma
  have hline := laysBody_extensions (hboth.mono ?_) indent
  · have htext : "extensions 500, 600 to 700;".toList = "extensions ".toList ++
        (Numeral.text 500 ++ ',' :: ' ' :: (Numeral.text 600 ++ ' ' :: ("to".toList ++
          ' ' :: Numeral.text 700))) ++ [';'] := by decide +kernel
    rwa [htext, ← List.append_assoc, ← List.append_assoc]
  · rintro ts us ⟨_, hone, comma, ms, rfl, hcomma, hrange⟩ hsemi doc
    refine ⟨_, .cons (hone (by simp [Token.isWord, hcomma]) doc) hcomma
      (.last (hrange doc) (.of_atKind hsemi (by decide))), ?_⟩
    exact List.forall_mem_cons.mpr ⟨isValid_range (by decide) (by decide) (by decide) doc,
      List.forall_mem_singleton.mpr (isValid_range (by decide) (by decide) (by decide) doc)⟩

/-! ### Messages from their items -/

/-- Options, fields, extension ranges and enums, such as may stand in one message. -/
def HeadItems (items : List Parser.MessageItem) : Prop :=
  ∃ (os : List Setting) (fs : List Field) (rss : List (List ExtensionRange))
    (es : List Enumeration), items = os.map .option ++ fs.map .field ++
      rss.map .extensionRanges ++ es.map .enumeration ∧
    FieldsFrom 1 fs ∧ RangesValid rss ∧ EnumsApart es

theorem messageOfItems_append {scope : Scope} {name doc : String} (os : List Setting)
    (fs : List Field) (rss : List (List ExtensionRange)) (es : List Enumeration)
    (ms : List Parser.MessageWithExtensions) (xs : List Extend) :
    messageOfItems scope name doc (os.map .option ++ fs.map .field ++
      rss.map .extensionRanges ++ es.map .enumeration ++ ms.map .message ++ xs.map .extension) =
      ⟨⟨name, scope.qualify name, doc, fs,
        es.map .enumeration ++ ms.map fun m => .message m.message, rss.flatten, os⟩,
        ms.flatMap (·.extensions) ++ xs⟩ := by
  simp only [messageOfItems, List.filterMap_append, List.filterMap_map, List.flatMap_append,
    List.flatMap_map, Function.comp_def]
  simp [Parser.MessageItem.field?, Parser.MessageItem.type?, Parser.MessageItem.ranges,
    Parser.MessageItem.setting?, Parser.MessageItem.extensions, flatMap_nil_eq]

/-- A message is legal if its own items may stand in it and what is declared in it is legal. -/
theorem HeadItems.isValid {head : List Parser.MessageItem} (h : HeadItems head)
    {ms : List Parser.MessageWithExtensions} (hms : ∀ m ∈ ms, m.IsValid) {xs : List Extend}
    (hxs : ∀ x ∈ xs, x.IsValid) (scope : Scope) (name doc : String) :
    (messageOfItems scope name doc (head ++ ms.map .message ++ xs.map .extension)).IsValid := by
  obtain ⟨os, fs, rss, es, rfl, hfields, hranges, henums⟩ := h
  rw [messageOfItems_append]
  refine ⟨Message.isValid_iff.mpr ⟨⟨hfields.valid, hfields.tags, ?_, ?_⟩, ?_⟩, ?_⟩
  · simpa [Validation.enumValueNames, List.flatMap_map, flatMap_nil_eq] using henums.names
  · simpa [RangesValid] using fun r rs hrs hr => hranges rs hrs r hr
  · have htypes : ∀ m ∈ ms, m.message.IsValid := fun m hm => (hms m hm).1
    simpa [or_imp, forall_and] using ⟨henums.valid, htypes⟩
  · have hextensions : ∀ m ∈ ms, ∀ x ∈ m.extensions, x.IsValid := fun m hm => (hms m hm).2
    simpa [or_imp, forall_and] using ⟨fun x m hm hx => hextensions m hm x hx, hxs⟩

/-! ### Messages -/

/-- Things of one kind as items of a message. -/
theorem sequence_plain {α : Type} {At : List Token → α → List Token → Prop}
    {item : α → Parser.MessageItem} {scope : Scope} {ts us : List Token} {as : List α}
    (h : Sequence At ts as us) (each : ∀ ts a us, At ts a us → PlainItemAt scope ts (item a) us) :
    Sequence (MessageItemAt scope) ts (as.map item) us :=
  h.map fun ts a us hat => (each ts a us hat).messageItemAt

theorem yields_messageHead (inRange : d.InRange) (indent : Nat) (scope : Scope) :
    Yields d (messageHead indent) (LaysBody (MessageItemAt scope) HeadItems) := by
  have hnone : LaysBody RangesAt RangesValid [] := .nil (List.forall_mem_nil _)
  refine .bind (yields_options inRange indent) fun options hoptions =>
    .bind (.between inRange (by decide : 0 ≤ 8)) fun count hcount =>
    .bind (yields_fields inRange indent count 1 (by decide) (by omega)) fun body hbody =>
    .bind (yields_sometimes 25 (yields_extensionsLine inRange indent) hnone) fun range hrange =>
    .bind (yields_sometimes 10 (.pure (laysBody_moreRanges indent)) hnone) fun more hmore =>
    .bind (yields_nestedEnums inRange indent scope) fun enums henums => .pure ?_
  have hranges : LaysBody RangesAt RangesValid (range ++ more) :=
    hrange.append hmore fun _ _ h h' => List.forall_mem_append.mpr ⟨h, h'⟩
  have hhead := ((LaysLines.append hoptions hbody).append hranges).append henums
  refine (hhead.of_eq (by simp)).mono ?_
  rintro ts us ⟨ps, ⟨ns, ⟨ms, ⟨os, hos, -⟩, fs, hfs, hfields⟩, rss, hrss, hvalid⟩, es, hes, hapart⟩
  have hsettings : Sequence (MessageItemAt scope) ts (os.map .option) ms :=
    sequence_plain hos fun _ _ _ => .option
  have hfields' : Sequence (MessageItemAt scope) ms (fs.map .field) ns :=
    sequence_plain hfs fun _ _ _ => .field
  have hranges' : Sequence (MessageItemAt scope) ns (rss.map .extensionRanges) ps :=
    sequence_plain hrss fun _ _ _ => .ranges
  have henums' : Sequence (MessageItemAt scope) ps (es.map .enumeration) us :=
    sequence_plain hes fun _ _ _ => .enumeration
  exact ⟨_, ((hsettings.append hfields').append hranges').append henums', os, fs, rss, es, rfl,
    hfields, hvalid, hapart⟩

theorem yields_extensions (inRange : d.InRange) (indent : Nat) (scope : Scope) :
    Yields d (sometimes 10 (extension indent))
      (LaysBody (ExtendAt scope) fun xs => ∀ x ∈ xs, x.IsValid) :=
  yields_sometimes 10 ((yields_extension inRange indent scope).mono fun _ => .one)
    (.nil (List.forall_mem_nil _))

/-- The lines bear tokens in which legal messages stand. -/
def LaysMessages (scope : Scope) (ls : List Line) : Prop :=
  LaysBody (fun ts m us => MessageAt scope (.message m) ts us) (fun ms => ∀ m ∈ ms, m.IsValid) ls

/-- The items of a legal message: those before the messages in it, these messages and its
extensions. -/
def BodyItems (items : List Parser.MessageItem) : Prop :=
  ∃ (head : List Parser.MessageItem) (ms : List Parser.MessageWithExtensions) (xs : List Extend),
    HeadItems head ∧ (∀ m ∈ ms, m.IsValid) ∧ (∀ x ∈ xs, x.IsValid) ∧
      items = head ++ ms.map .message ++ xs.map .extension

theorem BodyItems.isValid {items : List Parser.MessageItem} (h : BodyItems items) (scope : Scope)
    (name doc : String) : (messageOfItems scope name doc items).IsValid := by
  obtain ⟨head, ms, xs, hhead, hms, hxs, rfl⟩ := h
  exact hhead.isValid hms hxs scope name doc

theorem laysBody_message {scope : Scope} {head nested extensions : List Line}
    (hhead : LaysBody (MessageItemAt scope) HeadItems head) (hnested : LaysMessages scope nested)
    (hextensions : LaysBody (ExtendAt scope) (fun xs => ∀ x ∈ xs, x.IsValid) extensions) :
    LaysBody (MessageItemAt scope) BodyItems (head ++ nested ++ extensions) := by
  have hnested : LaysBody _ _ nested := hnested
  refine LaysLines.mono ((LaysLines.append hhead hnested).append hextensions) ?_
  rintro ts us ⟨ps, ⟨ns, ⟨items, hitems, hlegal⟩, ms, hms, hmessages⟩, xs, hxs, hvalid⟩
  have hmessages' : Sequence (MessageItemAt scope) ns (ms.map .message) ps :=
    hms.map fun _ _ _ hat => .nested hat .noItems
  have hextensions' : Sequence (MessageItemAt scope) ps (xs.map .extension) us :=
    sequence_plain hxs fun _ _ _ => .extension
  exact ⟨_, (hitems.append hmessages').append hextensions', items, ms, xs, hlegal, hmessages,
    hvalid, rfl⟩

/-- A message stands in its lines and is legal, given that this is so of the messages in it. -/
theorem yields_messageWith (inRange : d.InRange) {inner : Generator σ (List Line)}
    (hinner : ∀ scope, Yields d inner (LaysMessages scope)) (indent : Nat) (scope : Scope) :
    Yields d (messageWith inner indent) fun ls => LaysLines ls fun ts us =>
      ∃ m : Parser.MessageWithExtensions, MessageAt scope (.message m) ts us ∧ m.IsValid := by
  refine .bind yields_identifier fun name hname => .bind (yields_documentation indent)
    fun doc hdoc => ?_
  let within := scope.nested (String.ofList name)
  refine .bind (yields_messageHead inRange (indent + 2) within) fun head hhead =>
    .bind (hinner within) fun nested hnested =>
    .bind (yields_extensions inRange (indent + 2) within) fun extensions hextensions => .pure ?_
  have hblock := laysLines_named (w := "message") (isIdentifier_of rfl rfl rfl) hname hdoc
    ((laysBody_message hhead hnested hextensions).closed _) indent
  refine (hblock.of_eq (by simp)).mono ?_
  rintro ts us ⟨word, t, opening, rest, closing, items, rfl, hword, hkind, hlexeme, hopening,
    hitems, hclosing, hlegal⟩
  have hitems' := hitems.messageAt
  rw [show within = scope.nested t.lexeme by rw [hlexeme]] at hitems'
  exact ⟨_, .message hword hkind hopening hitems' hclosing, hlegal.isValid _ _ _⟩

/-- A message stands in its lines and is legal, however deep messages nest in it. -/
theorem yields_message (inRange : d.InRange) (depth indent : Nat) (scope : Scope) :
    Yields d (message depth indent) fun ls => LaysLines ls fun ts us =>
      ∃ m : Parser.MessageWithExtensions, MessageAt scope (.message m) ts us ∧ m.IsValid := by
  have hnone (scope : Scope) : LaysMessages scope [] := .nil (List.forall_mem_nil _)
  induction depth generalizing indent scope with
  | zero => exact yields_messageWith inRange (fun scope => .pure (hnone scope)) indent scope
  | succ depth ih =>
      refine yields_messageWith inRange (fun scope => yields_sometimes 20 ?_ (hnone scope))
        indent scope
      exact (ih (indent + 2) scope).mono fun _ => LaysBody.one

end Proto2.Corpus

import Proto2.Proofs.Schema.Local

/-!
Statements that add to different lists may change places.

Nothing passes from one statement to the next but the lists of the file or the message that they
add to, and the package.  Each statement ends at the same token whatever stands behind it, so two of
them that follow one another can be read the other way round.  If they add to different lists, these
come out the same, and with them all that is around: the messages that enclose the statements, and
the file.
-/

namespace Proto2

open Proto2.Parser

/-! ### What statements add to -/

/-- The package and the lists of a file or a message, to which statements add. -/
inductive Contribution where
  | package
  | imports
  | publicImports
  | options
  | types
  | services
  | fields
  | extensionRanges
  | extensions
deriving DecidableEq

/-- What an item of a file adds to.  A message adds to the extensions if one is declared in it, at
any depth. -/
def Parser.FileItem.adds : FileItem → List Contribution
  | empty => []
  | dialect => []
  | package _ => [.package]
  | imported isPublic _ => if isPublic then [.publicImports] else [.imports]
  | option _ => [.options]
  | message m => if m.extensions = [] then [.types] else [.types, .extensions]
  | enumeration _ => [.types]
  | service _ => [.services]
  | extension _ => [.extensions]

/-- What an item of a message adds to. -/
def Parser.MessageItem.adds : MessageItem → List Contribution
  | empty => []
  | field _ => [.fields]
  | message m => if m.extensions = [] then [.types] else [.types, .extensions]
  | enumeration _ => [.types]
  | extensionRanges _ => [.extensionRanges]
  | option _ => [.options]
  | extension _ => [.extensions]

theorem Parser.FileItem.mem_adds (i : FileItem) :
    (i.package? ≠ none → .package ∈ i.adds) ∧
    (i.imported? false ≠ none → .imports ∈ i.adds) ∧
    (i.imported? true ≠ none → .publicImports ∈ i.adds) ∧
    (i.type? ≠ none → .types ∈ i.adds) ∧ (i.service? ≠ none → .services ∈ i.adds) ∧
    (i.setting? ≠ none → .options ∈ i.adds) ∧ (i.extensions ≠ [] → .extensions ∈ i.adds) := by
  cases i with
  | imported isPublic =>
      cases isPublic <;>
        simp [adds, package?, imported?, type?, service?, setting?, extensions]
  | message m =>
      by_cases h : m.extensions = [] <;>
        simp [adds, package?, imported?, type?, service?, setting?, extensions, h]
  | _ => simp [adds, package?, imported?, type?, service?, setting?, extensions]

theorem Parser.MessageItem.mem_adds (i : MessageItem) :
    (i.field? ≠ none → .fields ∈ i.adds) ∧ (i.type? ≠ none → .types ∈ i.adds) ∧
    (i.ranges ≠ [] → .extensionRanges ∈ i.adds) ∧ (i.setting? ≠ none → .options ∈ i.adds) ∧
    (i.extensions ≠ [] → .extensions ∈ i.adds) := by
  cases i with
  | message m =>
      by_cases h : m.extensions = [] <;> simp [adds, field?, type?, ranges, setting?, extensions, h]
  | _ => simp [adds, field?, type?, ranges, setting?, extensions]

section Swap

variable {ι β : Type} {adds : ι → List Contribution} {c : Contribution} {i j : ι}

/-- Of two items that add to different lists, one adds nothing to a given one. -/
theorem eq_or_eq_of_disjoint {g : ι → β} {nothing : β} (mem : ∀ i, g i ≠ nothing → c ∈ adds i)
    (h : (adds i).Disjoint (adds j)) : g i = nothing ∨ g j = nothing := by
  by_contra hboth
  rw [not_or] at hboth
  exact h (mem i hboth.1) (mem j hboth.2)

theorem filterMap_swap {g : ι → Option β} (mem : ∀ i, g i ≠ none → c ∈ adds i)
    (h : (adds i).Disjoint (adds j)) (items : List ι) :
    (i :: j :: items).filterMap g = (j :: i :: items).filterMap g := by
  rcases eq_or_eq_of_disjoint mem h with hnone | hnone <;> simp [List.filterMap_cons, hnone]

theorem findSome?_swap {g : ι → Option β} (mem : ∀ i, g i ≠ none → c ∈ adds i)
    (h : (adds i).Disjoint (adds j)) (items : List ι) :
    (i :: j :: items).findSome? g = (j :: i :: items).findSome? g := by
  rcases eq_or_eq_of_disjoint mem h with hnone | hnone <;> simp [List.findSome?_cons, hnone]

theorem flatMap_swap {g : ι → List β} (mem : ∀ i, g i ≠ [] → c ∈ adds i)
    (h : (adds i).Disjoint (adds j)) (items : List ι) :
    (i :: j :: items).flatMap g = (j :: i :: items).flatMap g := by
  rcases eq_or_eq_of_disjoint mem h with hnone | hnone <;> simp [List.flatMap_cons, hnone]

end Swap

/-- Files with the items are the same. -/
def SameFile (items items' : List FileItem) : Prop :=
  ∀ fileName, fileOfItems fileName items = fileOfItems fileName items'

/-- Messages with the items are the same, and so are the extensions declared in them. -/
def SameMessage (items items' : List MessageItem) : Prop :=
  ∀ scope name doc, messageOfItems scope name doc items = messageOfItems scope name doc items'

theorem SameFile.swap {i j : FileItem} (h : i.adds.Disjoint j.adds) (items : List FileItem) :
    SameFile (i :: j :: items) (j :: i :: items) := by
  intro fileName
  unfold fileOfItems
  rw [findSome?_swap (fun i => i.mem_adds.1) h,
    filterMap_swap (fun i => i.mem_adds.2.1) h, filterMap_swap (fun i => i.mem_adds.2.2.1) h,
    filterMap_swap (fun i => i.mem_adds.2.2.2.1) h,
    filterMap_swap (fun i => i.mem_adds.2.2.2.2.1) h,
    filterMap_swap (fun i => i.mem_adds.2.2.2.2.2.1) h,
    flatMap_swap (fun i => i.mem_adds.2.2.2.2.2.2) h]

theorem SameMessage.swap {i j : MessageItem} (h : i.adds.Disjoint j.adds)
    (items : List MessageItem) : SameMessage (i :: j :: items) (j :: i :: items) := by
  intro scope name doc
  unfold messageOfItems
  rw [filterMap_swap (fun i => i.mem_adds.1) h, filterMap_swap (fun i => i.mem_adds.2.1) h,
    flatMap_swap (fun i => i.mem_adds.2.2.1) h, filterMap_swap (fun i => i.mem_adds.2.2.2.1) h,
    flatMap_swap (fun i => i.mem_adds.2.2.2.2) h]

theorem SameFile.cons {items items' : List FileItem} (h : SameFile items items') (i : FileItem) :
    SameFile (i :: items) (i :: items') := by
  intro fileName
  have hsame := h fileName
  simp only [fileOfItems, SchemaFile.mk.injEq, true_and] at hsame
  obtain ⟨package, imports, publicImports, types, services, options, extensions⟩ := hsame
  simp only [fileOfItems, List.findSome?_cons, List.filterMap_cons, List.flatMap_cons, package,
    imports, publicImports, types, services, options, extensions]

theorem SameMessage.cons {items items' : List MessageItem} (h : SameMessage items items')
    (i : MessageItem) : SameMessage (i :: items) (i :: items') := by
  intro scope name doc
  have hsame := h scope name doc
  simp only [messageOfItems, MessageWithExtensions.mk.injEq, Message.mk.injEq, true_and] at hsame
  obtain ⟨⟨fields, types, ranges, options⟩, extensions⟩ := hsame
  simp only [messageOfItems, List.filterMap_cons, List.flatMap_cons, fields, types, ranges, options,
    extensions]

/-! ### Reading the items of a file or a message -/

theorem MessageItemAt.unique (scope : Scope) : IsUnique (MessageItemAt scope) := by
  intro ts us vs i j h h'
  cases h with
  | plain head tail =>
      cases tail
      cases h' with
      | plain head' tail' =>
          cases tail'
          exact PlainItemAt.unique scope head head'
      | nested head' tail' => exact (head.not_messageAt head').elim
  | nested head tail =>
      cases tail
      cases h' with
      | plain head' tail' => exact (head'.not_messageAt head).elim
      | nested head' tail' =>
          cases tail'
          obtain ⟨rfl, rfl⟩ := MessageAt.unique scope head head'
          exact ⟨rfl, rfl⟩

theorem MessageItemAt.not_closeBrace {scope : Scope} {ts us : List Token} {i : MessageItem}
    (h : MessageItemAt scope ts i us) : ¬AtKind .closeBrace ts := by
  cases h with
  | plain head tail => exact head.notAtCloseBrace.not_atKind
  | nested head tail => exact head.notAtCloseBrace.not_atKind

theorem messageAt_cons_iff {scope : Scope} {i : MessageItem} {items : List MessageItem}
    {ts us : List Token} : MessageAt scope (.items (i :: items)) ts us ↔
      ∃ ms, MessageItemAt scope ts i ms ∧ MessageAt scope (.items items) ms us := by
  constructor
  · intro h
    cases h with
    | plain head tail => exact ⟨_, .plain head .noItems, tail⟩
    | nested head tail => exact ⟨_, .nested head .noItems, tail⟩
  · rintro ⟨ms, head, tail⟩
    cases head with
    | plain head rest =>
        cases rest
        exact .plain head tail
    | nested head rest =>
        cases rest
        exact .nested head tail

/-- An item that stands at the start of the items of a message is the first of them. -/
theorem MessageAt.exists_cons {scope : Scope} {items : List MessageItem} {i : MessageItem}
    {ts ms us : List Token} (h : MessageAt scope (.items items) ts us)
    (closed : AtKind .closeBrace us) (head : MessageItemAt scope ts i ms) :
    ∃ items', items = i :: items' ∧ MessageAt scope (.items items') ms us := by
  cases items with
  | nil =>
      cases h
      exact absurd closed head.not_closeBrace
  | cons j items' =>
      obtain ⟨ms', head', tail⟩ := messageAt_cons_iff.mp h
      obtain ⟨rfl, rfl⟩ := MessageItemAt.unique scope head head'
      exact ⟨items', rfl, tail⟩

/-- An item that stands at the start of the items of a file is the first of them. -/
theorem FileItemsAt.exists_cons {package : Option String} {items : List FileItem} {i : FileItem}
    {ts ms us : List Token} (h : FileItemsAt package ts items us)
    (head : FileItemAt package ts i ms) :
    ∃ items', items = i :: items' ∧ FileItemsAt (i.package?.or package) ms items' us := by
  cases h with
  | nil atEnd => exact absurd atEnd head.notAtEnd.not_atKind
  | cons head' tail =>
      obtain ⟨rfl, rfl⟩ := FileItemAt.unique package head head'
      exact ⟨_, rfl, tail⟩

theorem FileItemAt.message_of_isWord {package : Option String} {word : Token} {ts us : List Token}
    {i : FileItem} (h : FileItemAt package (word :: ts) i us) (isWord : word.isWord "message") :
    ∃ m, i = .message m ∧ MessageAt (.top package) (.message m) (word :: ts) us := by
  have hstart := h.startsWith
  cases h with
  | message h => exact ⟨_, rfl, h⟩
  | _ => simp_all [FileItem.StartsWith, Token.isWord_iff]

theorem MessageItemAt.message_of_isWord {scope : Scope} {word : Token} {ts us : List Token}
    {i : MessageItem} (h : MessageItemAt scope (word :: ts) i us) (isWord : word.isWord "message") :
    ∃ m, i = .message m ∧ MessageAt scope (.message m) (word :: ts) us := by
  cases h with
  | plain head tail =>
      have hstart := head.startsWith
      cases head <;>
        simp_all [MessageItem.StartsWith, Token.isWord_iff, Label.ofText?, Label.text]
  | nested head tail =>
      cases tail
      exact ⟨_, rfl, head⟩

/-! ### Bodies -/

/-- What statements stand in: the top level of a file, given the package declared before, or the
body of a message. -/
inductive Body where
  | file (package : Option String)
  | message (scope : Scope)

/-- The surroundings of a declaration in the body. -/
def Body.scope : Body → Scope
  | file package => .top package
  | message scope => scope

/-- The tokens are a statement in the first body, which adds to the given lists.  What comes behind
it stands in the second body, which differs from the first if the package is declared. -/
inductive StatementAt : Body → List Token → List Contribution → Body → Prop
  | file {package : Option String} {ts us : List Token} {item : FileItem}
      (stands : FileItemAt package (ts ++ us) item us) :
      StatementAt (.file package) ts item.adds (.file (item.package?.or package))
  | message {scope : Scope} {ts us : List Token} {item : MessageItem}
      (stands : MessageItemAt scope (ts ++ us) item us) :
      StatementAt (.message scope) ts item.adds (.message scope)

/-- The tokens lead from the start of the first body to a place between statements of the second
one, past statements and into messages. -/
inductive Body.Leads : Body → List Token → Body → Prop
  | here (p : Body) : Leads p [] p
  | past {p q r : Body} {statement ts : List Token} {adds : List Contribution}
      (head : StatementAt p statement adds q) (tail : Leads q ts r) : Leads p (statement ++ ts) r
  | into {p q : Body} {word name opening : Token} {ts : List Token}
      (isWord : word.isWord "message") (kind : name.kind = .identifier)
      (openKind : opening.kind = .openBrace)
      (tail : Leads (.message (p.scope.nested name.lexeme)) ts q) :
      Leads p (word :: name :: opening :: ts) q

/-- Whatever is read in the body from the first tokens is read from the second ones. -/
def Body.Keeps (ts ts' : List Token) : Body → Prop
  | file package => ∀ items us, FileItemsAt package ts items us →
      ∃ items', FileItemsAt package ts' items' us ∧ SameFile items items'
  | message scope => ∀ items us, AtKind .closeBrace us → MessageAt scope (.items items) ts us →
      ∃ items', MessageAt scope (.items items') ts' us ∧ SameMessage items items'

theorem StatementAt.body_eq {p q : Body} {ts : List Token} {adds : List Contribution}
    (h : StatementAt p ts adds q) (noPackage : .package ∉ adds) : q = p := by
  cases h with
  | @file package _ _ item h =>
      have hnone : item.package? = none := by
        by_contra hsome
        exact noPackage (item.mem_adds.1 hsome)
      rw [hnone, Option.none_or]
  | message => rfl

/-- Statements that add to different lists may change places. -/
theorem Body.Keeps.swap {p q q' : Body} {a b : List Token} {adds adds' : List Contribution}
    (first : StatementAt p a adds q) (second : StatementAt p b adds' q')
    (noPackage : .package ∉ adds ∧ .package ∉ adds') (unrelated : adds.Disjoint adds')
    (after : List Token) : p.Keeps (a ++ (b ++ after)) (b ++ (a ++ after)) := by
  have hfirst := first.body_eq noPackage.1
  have hsecond := second.body_eq noPackage.2
  cases first with
  | @file package _ _ i hi =>
      cases second with
      | @file _ _ _ j hj =>
          simp only [Body.file.injEq] at hfirst hsecond
          intro items us h
          have closed := FileItemAt.isClosed package
          obtain ⟨items, rfl, htail⟩ := h.exists_cons (closed.behind_any hi (b ++ after))
          rw [hfirst] at htail
          obtain ⟨items, rfl, hafter⟩ := htail.exists_cons (closed.behind_any hj after)
          rw [hsecond] at hafter
          refine ⟨j :: i :: items, .cons (closed.behind_any hj _) ?_, .swap unrelated items⟩
          rw [hsecond]
          refine .cons (closed.behind_any hi _) ?_
          rwa [hfirst]
  | @message scope _ _ i hi =>
      cases second with
      | @message _ _ _ j hj =>
          intro items us hclose h
          have closed := MessageItemAt.isClosed scope
          obtain ⟨items, rfl, htail⟩ :=
            h.exists_cons hclose (closed.behind_any hi (b ++ after))
          obtain ⟨items, rfl, hafter⟩ := htail.exists_cons hclose (closed.behind_any hj after)
          refine ⟨j :: i :: items, ?_, .swap unrelated items⟩
          exact messageAt_cons_iff.mpr ⟨_, closed.behind_any hj _,
            messageAt_cons_iff.mpr ⟨_, closed.behind_any hi _, hafter⟩⟩

theorem Body.Keeps.past {p q : Body} {statement ts ts' : List Token} {adds : List Contribution}
    (head : StatementAt p statement adds q) (h : q.Keeps ts ts') :
    p.Keeps (statement ++ ts) (statement ++ ts') := by
  cases head with
  | @file package _ _ i hi =>
      intro items us hitems
      have closed := FileItemAt.isClosed package
      obtain ⟨items, rfl, htail⟩ := hitems.exists_cons (closed.behind_any hi ts)
      obtain ⟨items', hitems', hsame⟩ := h items us htail
      exact ⟨i :: items', .cons (closed.behind_any hi ts') hitems', hsame.cons i⟩
  | @message scope _ _ i hi =>
      intro items us hclose hitems
      have closed := MessageItemAt.isClosed scope
      obtain ⟨items, rfl, htail⟩ := hitems.exists_cons hclose (closed.behind_any hi ts)
      obtain ⟨items', hitems', hsame⟩ := h items us hclose htail
      exact ⟨i :: items', messageAt_cons_iff.mpr ⟨_, closed.behind_any hi ts', hitems'⟩,
        hsame.cons i⟩

/-- A message is the same if its items are. -/
theorem exists_messageAt_of_keeps {scope : Scope} {word name opening : Token}
    {ts ts' us : List Token} {m : MessageWithExtensions}
    (h : (Body.message (scope.nested name.lexeme)).Keeps ts ts')
    (message : MessageAt scope (.message m) (word :: name :: opening :: ts) us) :
    MessageAt scope (.message m) (word :: name :: opening :: ts') us := by
  cases message with
  | message isWord kind openKind body closeKind =>
      obtain ⟨items', body', hsame⟩ := h _ _ (by simpa using closeKind) body
      rw [hsame]
      exact .message isWord kind openKind body' closeKind

theorem Body.Keeps.into {p : Body} {word name opening : Token} {ts ts' : List Token}
    (isWord : word.isWord "message")
    (h : (Body.message (p.scope.nested name.lexeme)).Keeps ts ts') :
    p.Keeps (word :: name :: opening :: ts) (word :: name :: opening :: ts') := by
  cases p with
  | file package =>
      intro items us hitems
      cases hitems with
      | nil atEnd => simp [Token.kind_of_isWord isWord] at atEnd
      | cons head tail =>
          obtain ⟨m, rfl, hm⟩ := head.message_of_isWord isWord
          exact ⟨_, .cons (.message (exists_messageAt_of_keeps h hm)) tail, fun _ => rfl⟩
  | message scope =>
      intro items us hclose hitems
      cases items with
      | nil =>
          cases hitems
          simp [Token.kind_of_isWord isWord] at hclose
      | cons i items =>
          obtain ⟨ms, head, tail⟩ := messageAt_cons_iff.mp hitems
          obtain ⟨m, rfl, hm⟩ := head.message_of_isWord isWord
          exact ⟨_, .nested (exists_messageAt_of_keeps h hm) tail, fun _ _ _ => rfl⟩

theorem Body.Leads.keeps {p q : Body} {before ts ts' : List Token} (leads : Leads p before q)
    (h : q.Keeps ts ts') : p.Keeps (before ++ ts) (before ++ ts') := by
  induction leads with
  | here => exact h
  | past head _ ih =>
      rw [List.append_assoc, List.append_assoc]
      exact .past head (ih h)
  | into isWord _ _ _ ih => exact .into isWord (ih h)

/-- Two statements that follow one another, at the top level of a file or in the body of a message
at any depth, may change places if they add to different lists and neither declares the package: the
tokens are still accepted, and give the same file. -/
theorem unrelated_statements_commute {fileName : String} {f : SchemaFile}
    {before a b after us : List Token} {p q q' : Body} {adds adds' : List Contribution}
    (accepted : Reads (file fileName) (before ++ (a ++ (b ++ after))) f us)
    (leads : Body.Leads (.file none) before p) (first : StatementAt p a adds q)
    (second : StatementAt p b adds' q') (noPackage : .package ∉ adds ∧ .package ∉ adds')
    (unrelated : adds.Disjoint adds') :
    Reads (file fileName) (before ++ (b ++ (a ++ after))) f us := by
  obtain ⟨⟨items, hitems, rfl⟩, valid⟩ := reads_file.mp accepted
  have keeps := leads.keeps (.swap first second noPackage unrelated after)
  obtain ⟨items', hitems', hsame⟩ := keeps items us hitems
  rw [hsame] at valid ⊢
  exact reads_file.mpr ⟨⟨items', hitems', rfl⟩, valid⟩

theorem exists_reads_of_map {α : Type} {p : Parser α} {ts us : List Token}
    (h : (p.outcome ⟨ts, none⟩).toOption.map Prod.snd = some ⟨us, none⟩) :
    ∃ a, Reads p ts a us := by
  unfold Reads
  cases houtcome : p.outcome ⟨ts, none⟩ with
  | error e => simp [houtcome, Except.toOption] at h
  | ok read =>
      obtain ⟨a, left⟩ := read
      simp only [houtcome, Except.toOption, Option.map_some, Option.some.injEq] at h
      exact ⟨a, by rw [h]⟩

/-- Extension ranges with a comment and an option change places in a message of a package. -/
theorem unrelated_statements_commute_in_message :
    let span : Span := ⟨"f.proto", .start, .start⟩
    let token (kind : TokenKind) (lexeme : String) : Token := ⟨kind, lexeme, span, []⟩
    let word := token .identifier
    let semi := token .semicolon ";"
    let before := [word "package", word "p", semi, word "message", word "M",
      token .openBrace "\x7b"]
    let ranges := [⟨.identifier, "extensions", span, [⟨true, "/* r */", span⟩]⟩,
      token .integer "5", word "to", token .integer "7", semi]
    let option := [word "option", word "x", token .equals "=", word "true", semi]
    let after := [token .closeBrace "\x7d", token .endOfInput ""]
    ∃ f us, Reads (file "f.proto") (before ++ (ranges ++ (option ++ after))) f us ∧
      Reads (file "f.proto") (before ++ (option ++ (ranges ++ after))) f us := by
  intro span token word semi before ranges option after
  obtain ⟨f, accepted⟩ := exists_reads_of_map (by decide +kernel :
    ((file "f.proto").outcome ⟨before ++ (ranges ++ (option ++ after)), none⟩).toOption.map
      Prod.snd = some ⟨[token .endOfInput ""], none⟩)
  have hpackage (ts : List Token) :
      FileItemAt none ([word "package", word "p", semi] ++ ts) (.package (dotted ["p"])) ts :=
    .package rfl rfl (.relative rfl (.nil (NameEnds.of_kind rfl (by decide)))) rfl
  have hfive : (token .integer "5").integerValue = .ok 5 := by cbv
  have hseven : (token .integer "7").integerValue = .ok 7 := by cbv
  have hranges (scope : Scope) (ts : List Token) : PlainItemAt scope (ranges ++ ts)
      (.extensionRanges [⟨Documentation.ofComments [⟨true, "/* r */", span⟩], 5, 7⟩]) ts :=
    .ranges (.mk rfl (.last (.between rfl hfive rfl rfl hseven) (notAtKind_cons.mpr (by decide)))
      rfl)
  have hoption (scope : Scope) (ts : List Token) : PlainItemAt scope (option ++ ts)
      (.option (Setting.ofParts ⟨"x", false⟩ [] (.bool ("true" = "true")))) ts :=
    .option (.mk rfl (.setting (.builtIn rfl) (.nil (notAtKind_cons.mpr (by decide))) rfl
      (.bool (t := word "true") rfl rfl)) rfl)
  have leads : Body.Leads (.file none) before
      (.message ((Scope.top (some (dotted ["p"]))).nested "M")) :=
    .past (.file (hpackage [])) (.into rfl rfl rfl (.here _))
  exact ⟨f, _, accepted, unrelated_statements_commute accepted leads
    (.message (hranges _ []).messageItemAt) (.message (hoption _ []).messageItemAt)
    (by decide) (by simp [MessageItem.adds])⟩

end Proto2

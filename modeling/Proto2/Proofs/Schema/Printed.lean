import Proto2.Proofs.Schema.Lines
import Proto2.Proofs.Schema.Names

/-!
Printed declarations.

The text of a declaration bears tokens in which the declaration stands, provided that it is
legible and follows the rules, and that its fully qualified name is the one its surroundings
give it.  A declaration has its items by kind, so its text has them in that order, whatever
order they were read in.  For messages this goes by induction on the types declared in them.
-/

namespace Proto2

open Proto2.Parser

/-! ### Extension ranges -/

/-- The ends of a range as they are printed. -/
def ExtensionRange.endsText (r : ExtensionRange) : List Char :=
  Numeral.text r.start ++
    if r.start = r.stop then []
    else if r.stop = Tag.greatest then " to max".toList
    else " to ".toList ++ Numeral.text r.stop

theorem ExtensionRange.text_eq (r : ExtensionRange) :
    r.text = Layout.commentLines r.documentation ++ ("extensions".toList ++ ' ' ::
      (r.endsText ++ [';', '\n'])) := by
  have hword : "extensions ".toList = "extensions".toList ++ [' '] := by simp
  have hend : ";\n".toList = [';', '\n'] := by simp
  simp only [ExtensionRange.text, endsText, hword, hend, List.append_assoc, List.cons_append,
    List.nil_append]

/-- A range of one number. -/
theorem lays_rangeOfOne {n : Int} (writable : Numeral.isWritable n = true) :
    Lays .gap (Numeral.text n) (.behind .integer) fun ts us =>
      NotAtWord "to" us → ∀ doc, RangeAt doc ts ⟨doc, n, n⟩ us := by
  refine (lays_number writable Pen.fits_gap).mono ?_
  rintro ts us ⟨number, rfl, hkind, hvalue⟩ stop doc
  exact .single hkind hvalue stop

/-- A number and the word before the end of the range, and then more. -/
theorem lays_rangeTo {n : Int} (writable : Numeral.isWritable n = true) {cs : List Char}
    {R : List Token → List Token → Prop} (h : Lays .gap cs (.behind .integer) R) :
    Lays .gap (Numeral.text n ++ ' ' :: ("to".toList ++ ' ' :: cs)) (.behind .integer)
      fun ts us => ∃ number word ms, ts = number :: word :: ms ∧ number.kind = .integer ∧
        number.integerValue = .ok n ∧ word.isWord "to" = true ∧ R ms us := by
  have hto : IsIdentifier "to" := isIdentifier_of rfl rfl rfl
  have hword := Lays.token hto.spells (fun c _ => Pen.fits_gap c)
    (Lays.space (p := .behind .identifier) h)
  refine ((lays_number writable Pen.fits_gap).append (Lays.space (p := .behind .integer) hword)).mono ?_
  rintro ts us ⟨_, ⟨number, rfl, hkind, hvalue⟩, word, ms, rfl, hword, hR⟩
  exact ⟨number, word, ms, rfl, hkind, hvalue, Token.isWord_of_written hword, hR⟩

/-- A range between two numbers. -/
theorem lays_rangeBetween {n m : Int} (writable : Numeral.isWritable n = true)
    (writable' : Numeral.isWritable m = true) :
    Lays .gap (Numeral.text n ++ ' ' :: ("to".toList ++ ' ' :: Numeral.text m))
      (.behind .integer) fun ts us => ∀ doc, RangeAt doc ts ⟨doc, n, m⟩ us := by
  refine (lays_rangeTo writable (lays_number writable' Pen.fits_gap)).mono ?_
  rintro ts us ⟨number, word, _, rfl, hkind, hvalue, hword, last, rfl, hlastKind, hlastValue⟩ doc
  exact .between hkind hvalue hword hlastKind hlastValue

/-- A range up to the greatest tag. -/
theorem lays_rangeOnwards {n : Int} (writable : Numeral.isWritable n = true) :
    Lays .gap (Numeral.text n ++ ' ' :: ("to".toList ++ ' ' :: "max".toList))
      (.behind .integer) fun ts us => ∀ doc, RangeAt doc ts ⟨doc, n, Tag.greatest⟩ us := by
  have hmax : IsIdentifier "max" := isIdentifier_of rfl rfl rfl
  refine (lays_rangeTo writable (Lays.single hmax.spells Pen.fits_gap)).mono ?_
  rintro ts us ⟨number, word, _, rfl, hkind, hvalue, hword, last, rfl, hlastKind, hlexeme⟩ doc
  rw [String.ofList_toList] at hlexeme
  exact .onwards hkind hvalue hword (Token.isWord_of hlastKind hlexeme)

/-- The ends of a range are one number, a number and the greatest tag, or two numbers. -/
theorem lays_range {r : ExtensionRange} (valid : r.IsValid) :
    Lays .gap r.endsText (.behind .integer) fun ts us =>
      AtKind .semicolon us → RangeAt r.documentation ts r us := by
  obtain ⟨doc, start, stop⟩ := r
  obtain ⟨hleast, hle, hgreatest⟩ := valid
  have hstart := Numeral.isWritable_of_le hleast (Int.le_trans hle hgreatest)
  have hstop := Numeral.isWritable_of_le (Int.le_trans hleast hle) hgreatest
  unfold ExtensionRange.endsText
  split
  case isTrue heq =>
    cases (heq : start = stop)
    refine ((lays_rangeOfOne hstart).of_eq (List.append_nil _)).mono ?_
    rintro ts _ hrange ⟨semi, us, rfl, hsemi⟩
    exact hrange (by simp [Token.isWord, hsemi]) doc
  case isFalse =>
    split
    case isTrue heq =>
      cases (heq : stop = Tag.greatest)
      exact ((lays_rangeOnwards hstart).of_eq (by simp)).mono fun ts us hrange _ => hrange doc
    case isFalse =>
      exact ((lays_rangeBetween hstart hstop).of_eq (by simp)).mono fun ts us hrange _ => hrange doc

/-- The text of an extension range. -/
theorem ExtensionRange.Legible.lays {r : ExtensionRange} (h : r.Legible) (valid : r.IsValid) :
    Lays .line r.text .line fun ts us => RangesAt ts [r] us := by
  have hends := (lays_range valid).append (lays_semicolon .integer)
  have hword := Lays.declared (w := "extensions") h (isIdentifier_of rfl rfl rfl)
    (Lays.space (p := .behind .identifier) hends)
  rw [ExtensionRange.text_eq]
  refine hword.mono ?_
  rintro ts us ⟨word, ms, rfl, hkind, hlexeme, hdoc, _, hrange, semi, rfl, hsemi⟩
  have hrange := hrange ⟨semi, us, rfl, hsemi⟩
  rw [← hdoc] at hrange
  exact .mk (Token.isWord_of hkind hlexeme) (.last hrange (by simp [hsemi])) hsemi

/-! ### Heads of declarations -/

/-- A word and a name, below documentation, and then more. -/
theorem lays_head {doc w name : String} {cs : List Char} {q : Pen}
    {R : List Token → List Token → Prop} (normal : Documentation.IsNormal doc)
    (word : IsIdentifier w) (identifier : IsIdentifier name)
    (h : Lays (.behind .identifier) cs q R) :
    Lays .line (Layout.commentLines doc ++ (w.toList ++ ' ' :: (name.toList ++ cs))) q
      fun ts us => ∃ t u ms, ts = t :: u :: ms ∧ t.isWord w = true ∧ t.documentation = doc ∧
        u.kind = .identifier ∧ u.lexeme = name ∧ R ms us := by
  have hname := Lays.token (p := .gap) identifier.spells (fun c _ => Pen.fits_gap c) h
  have hword := Lays.declared normal word (Lays.space (p := .behind .identifier) hname)
  refine hword.mono ?_
  rintro ts us ⟨t, _, rfl, hkind, hlexeme, hdoc, u, ms, rfl, hu, hms⟩
  have hname := Token.lexeme_of_written hu
  rw [String.ofList_toList] at hname
  exact ⟨t, u, ms, rfl, Token.isWord_of hkind hlexeme, hdoc, Token.kind_of_written hu, hname, hms⟩

/-- A declaration with a body. -/
theorem lays_block {α : Type} {At : List Token → α → List Token → Prop} {doc w name : String}
    {sections : List (List Char)} {as : List α} (normal : Documentation.IsNormal doc)
    (word : IsIdentifier w) (identifier : IsIdentifier name)
    (h : LaysSections At sections as) :
    Lays .line (Layout.block (Layout.commentLines doc ++ (w.toList ++ ' ' :: name.toList)) sections)
      .line fun ts us => ∃ t u opening ms closing, ts = t :: u :: opening :: ms ∧
        t.isWord w = true ∧ t.documentation = doc ∧ u.kind = .identifier ∧ u.lexeme = name ∧
        opening.kind = .openBrace ∧ Sequence At ms as (closing :: us) ∧
        closing.kind = .closeBrace := by
  have hhead := lays_head normal word identifier h.braces
  rw [Layout.block_eq, List.append_assoc, List.append_assoc, List.cons_append]
  refine hhead.mono ?_
  rintro ts us ⟨t, u, _, rfl, hword, hdoc, hkind, hlexeme, opening, ms, closing, rfl, hopening,
    hitems, hclosing⟩
  exact ⟨t, u, opening, ms, closing, rfl, hword, hdoc, hkind, hlexeme, hopening, hitems, hclosing⟩

/-! ### Enums -/

/-- An enum whose options stand before its values. -/
theorem EnumerationAt.of_parts {scope : Scope} {word name opening closing : Token}
    {ts us : List Token} {ss : List Setting} {vs : List EnumValue} (isWord : word.isWord "enum")
    (kind : name.kind = .identifier) (openKind : opening.kind = .openBrace)
    (body : Sequence EnumItemAt ts (ss.map .option ++ vs.map .value) (closing :: us))
    (closeKind : closing.kind = .closeBrace) :
    EnumerationAt scope (word :: name :: opening :: ts)
      ⟨name.lexeme, scope.qualify name.lexeme, word.documentation, ss, vs⟩ us := by
  simpa [List.filterMap_map, Function.comp_def, EnumItem.setting?, EnumItem.value?] using
    EnumerationAt.mk isWord kind openKind body closeKind

/-- The text of an enum. -/
theorem Enumeration.Legible.lays {e : Enumeration} {scope : Scope} (h : e.Legible)
    (valid : e.IsValid) (named : e.fullName = scope.qualify e.name) :
    Lays .line e.text .line fun ts us => EnumerationAt scope ts e us := by
  have hoptions : LaysSections EnumItemAt (Layout.sectionOf (e.options.map Layout.optionStatement))
      (e.options.map .option) :=
    .sectionOf fun s hs => (h.options s hs).laysStatement.mono fun _ _ hat => .option hat
  have hvalues : LaysSections EnumItemAt (Layout.sectionOf (e.values.map EnumValue.text))
      (e.values.map .value) :=
    .sectionOf fun v hv => ((h.values v hv).lays (valid.values v hv)).mono
      fun _ _ hat => .value hat
  have henum := lays_block (w := "enum") h.documentation (isIdentifier_of rfl rfl rfl) h.name
    (hoptions.append hvalues)
  have htext : e.text = Layout.block (Layout.commentLines e.documentation ++
      ("enum".toList ++ ' ' :: e.name.toList))
      (Layout.sectionOf (e.options.map Layout.optionStatement) ++
        Layout.sectionOf (e.values.map EnumValue.text)) := by
    simp [Enumeration.text]
  rw [htext]
  refine henum.mono ?_
  rintro ts us ⟨word, name, opening, ms, closing, rfl, hword, hdoc, hname, hlexeme, hopening,
    hitems, hclosing⟩
  have hat : EnumerationAt scope _ _ us := .of_parts hword hname hopening hitems hclosing
  rwa [hlexeme, hdoc, ← named] at hat

/-! ### Services -/

/-- What is printed behind the types of a procedure. -/
def Layout.rpcEnd (options : List Setting) : List Char :=
  if options.isEmpty then ";\n".toList
  else " \x7b\n".toList ++ (Text.indent (options.map optionStatement).flatten ++
    "\x7d;\n".toList)

theorem Rpc.text_eq (r : Rpc) :
    r.text = Layout.commentLines r.documentation ++ ("rpc".toList ++ ' ' :: (r.name.toList ++
      ' ' :: '(' :: (r.requestType.toList ++ ')' :: ' ' :: ("returns".toList ++ ' ' :: '(' ::
        (r.responseType.toList ++ ')' :: Layout.rpcEnd r.options))))) := by
  unfold Rpc.text Layout.rpcEnd
  split <;> simp

/-- The type of the argument or the result of a procedure, and then more. -/
theorem lays_rpcType {name : String} {cs : List Char} {q : Pen}
    {R : List Token → List Token → Prop} (h : IsName name)
    (rest : Lays (.behind .closeParen) cs q R) :
    Lays .gap ('(' :: (name.toList ++ ')' :: cs)) q fun ts us =>
      ∃ ms, RpcTypeAt ts name ms ∧ R ms us := by
  have hclosed := Lays.symbol (p := .behind .identifier) (c := ')') rfl (Pen.fits_behind rfl) rest
  have hname := (lays_name (p := .behind .openParen) h fun c => Pen.fits_behind rfl).append hclosed
  refine (Lays.symbol (p := .gap) (c := '(') rfl (Pen.fits_gap _) hname).mono ?_
  rintro ts us ⟨opening, _, rfl, hopening, _, hname, closing, ms, rfl, hclosing, hms⟩
  exact ⟨ms, .mk hopening (hname (.of_kind hclosing (by decide))) hclosing, hms⟩

/-- The types of a procedure, and then more. -/
theorem lays_rpcTypes {request response : String} {cs : List Char} {q : Pen}
    {R : List Token → List Token → Prop} (hrequest : IsName request) (hresponse : IsName response)
    (rest : Lays (.behind .closeParen) cs q R) :
    Lays .gap ('(' :: (request.toList ++ ')' :: ' ' :: ("returns".toList ++ ' ' :: '(' ::
        (response.toList ++ ')' :: cs)))) q fun ts us => ∃ returns ms ns,
          RpcTypeAt ts request (returns :: ms) ∧ returns.isWord "returns" = true ∧
          RpcTypeAt ms response ns ∧ R ns us := by
  have hform : IsIdentifier "returns" := isIdentifier_of rfl rfl rfl
  have hreturns := Lays.token (p := .gap) hform.spells (fun c _ => Pen.fits_gap c)
    (Lays.space (p := .behind .identifier) (lays_rpcType hresponse rest))
  refine (lays_rpcType hrequest (Lays.space (p := .behind .closeParen) hreturns)).mono ?_
  rintro ts us ⟨_, hrequest, returns, ms, rfl, hword, ns, hresponse, hrest⟩
  exact ⟨returns, ms, ns, hrequest, Token.isWord_of_written hword, hresponse, hrest⟩

theorem lays_rpcEnd {options : List Setting} (legible : LegibleSettings options) :
    Lays (.behind .closeParen) (Layout.rpcEnd options) .line fun ts us =>
      RpcBodyAt ts options us := by
  unfold Layout.rpcEnd
  split
  · rename_i hnone
    rw [List.isEmpty_iff.mp hnone]
    exact (lays_semicolon .closeParen).mono fun _ _ hsemi => .none hsemi
  · have hitems : LaysItems RpcItemAt (options.map Layout.optionStatement).flatten
        (options.map some) :=
      laysItems_flatten fun s hs => (legible s hs).laysStatement.mono fun _ _ hat => .option hat
    have hclosed := Lays.symbol (p := .line) (c := '\x7d') rfl (Pen.fits_line _)
      (lays_semicolon .closeBrace)
    have hbody := Lays.symbol (p := .gap) (c := '\x7b') rfl (Pen.fits_gap _)
      (Lays.newline (p := .behind .openBrace) ((Lays.indent hitems).append hclosed))
    refine (Lays.space (p := .behind .closeParen) hbody).mono ?_
    rintro ts us ⟨opening, ms, rfl, hopening, _, hitems, closing, _, rfl, hclosing, semi, rfl,
      hsemi⟩
    have hat := RpcBodyAt.some hopening hitems hclosing (.inl ⟨semi, rfl, hsemi⟩)
    simpa [List.filterMap_map, Function.comp_def] using hat

/-- The text of a procedure. -/
theorem Rpc.Legible.lays {r : Rpc} (h : r.Legible) :
    Lays .line r.text .line fun ts us => RpcAt ts r us := by
  have htypes := lays_rpcTypes h.requestType h.responseType (lays_rpcEnd h.options)
  have hrpc := lays_head (w := "rpc") h.documentation (isIdentifier_of rfl rfl rfl) h.name
    (Lays.space (p := .behind .identifier) htypes)
  rw [Rpc.text_eq]
  refine hrpc.mono ?_
  rintro ts us ⟨word, name, _, rfl, hword, hdoc, hname, hlexeme, returns, _, _, hrequest, hreturns,
    hresponse, hbody⟩
  have hat := RpcAt.mk hword hname hrequest hreturns hresponse hbody
  rwa [hlexeme, hdoc] at hat

/-- A service whose options stand before its procedures. -/
theorem ServiceAt.of_parts {scope : Scope} {word name opening closing : Token}
    {ts us : List Token} {ss : List Setting} {rs : List Rpc} (isWord : word.isWord "service")
    (kind : name.kind = .identifier) (openKind : opening.kind = .openBrace)
    (body : Sequence ServiceItemAt ts (ss.map .option ++ rs.map .rpc) (closing :: us))
    (closeKind : closing.kind = .closeBrace) :
    ServiceAt scope (word :: name :: opening :: ts)
      ⟨name.lexeme, scope.qualify name.lexeme, word.documentation, ss, rs⟩ us := by
  simpa [List.filterMap_map, Function.comp_def, ServiceItem.setting?, ServiceItem.rpc?] using
    ServiceAt.mk isWord kind openKind body closeKind

/-- The text of a service. -/
theorem Service.Legible.lays {s : Service} {scope : Scope} (h : s.Legible)
    (named : s.fullName = scope.qualify s.name) :
    Lays .line s.text .line fun ts us => ServiceAt scope ts s us := by
  have hoptions : LaysSections ServiceItemAt
      (Layout.sectionOf (s.options.map Layout.optionStatement)) (s.options.map .option) :=
    .sectionOf fun s hs => (h.options s hs).laysStatement.mono fun _ _ hat => .option hat
  have hrpcs : LaysSections ServiceItemAt (Layout.sectionOf (s.rpcs.map Rpc.text))
      (s.rpcs.map .rpc) :=
    .sectionOf fun r hr => (h.rpcs r hr).lays.mono fun _ _ hat => .rpc hat
  have hservice := lays_block (w := "service") h.documentation (isIdentifier_of rfl rfl rfl) h.name
    (hoptions.append hrpcs)
  have htext : s.text = Layout.block (Layout.commentLines s.documentation ++
      ("service".toList ++ ' ' :: s.name.toList))
      (Layout.sectionOf (s.options.map Layout.optionStatement) ++
        Layout.sectionOf (s.rpcs.map Rpc.text)) := by
    simp [Service.text]
  rw [htext]
  refine hservice.mono ?_
  rintro ts us ⟨word, name, opening, ms, closing, rfl, hword, hdoc, hname, hlexeme, hopening,
    hitems, hclosing⟩
  have hat : ServiceAt scope _ _ us := .of_parts hword hname hopening hitems hclosing
  rwa [hlexeme, hdoc, ← named] at hat

/-! ### Extensions -/

/-- An extension that has nothing but fields. -/
theorem ExtendAt.of_fields {scope : Scope} {word opening closing : Token}
    {ts ms us : List Token} {name : String} {fs : List Field} (isWord : word.isWord "extend")
    (extended : NameAt ts name (opening :: ms)) (openKind : opening.kind = .openBrace)
    (body : Sequence ExtendItemAt ms (fs.map some) (closing :: us))
    (closeKind : closing.kind = .closeBrace) :
    ExtendAt scope (word :: ts) ⟨name, scope.qualifyExtended name, word.documentation, fs⟩ us := by
  simpa [List.filterMap_map, Function.comp_def] using
    ExtendAt.mk isWord extended openKind body closeKind

/-- The text of an extension. -/
theorem Extend.Legible.lays {e : Extend} {scope : Scope} (h : e.Legible) (valid : e.IsValid)
    (named : e.fullName = scope.qualifyExtended e.name) :
    Lays .line e.text .line fun ts us => ExtendAt scope ts e us := by
  have hfields : LaysSections ExtendItemAt (Layout.sectionOf (e.fields.map Field.text))
      (e.fields.map some) :=
    .sectionOf fun f hf => ((h.fields f hf).lays (valid.fields f hf)).mono
      fun _ _ hat => .field hat
  have hname := (lays_name (p := .gap) h.name Pen.fits_gap).append hfields.braces
  have hextend := Lays.declared (w := "extend") h.documentation (isIdentifier_of rfl rfl rfl)
    (Lays.space (p := .behind .identifier) hname)
  have htext : e.text = Layout.commentLines e.documentation ++ ("extend".toList ++ ' ' ::
      (e.name.toList ++ ' ' :: '\x7b' ::
        (Layout.body (Layout.sectionOf (e.fields.map Field.text)) ++ ['\x7d', '\n']))) := by
    simp [Extend.text, Layout.block]
  rw [htext]
  refine hextend.mono ?_
  rintro ts us ⟨word, _, rfl, hkind, hlexeme, hdoc, _, hname, opening, ms, closing, rfl, hopening,
    hitems, hclosing⟩
  have hat : ExtendAt scope _ _ us := .of_fields (Token.isWord_of hkind hlexeme)
    (hname (.of_kind hopening (by decide))) hopening hitems hclosing
  rwa [hdoc, ← named] at hat

end Proto2

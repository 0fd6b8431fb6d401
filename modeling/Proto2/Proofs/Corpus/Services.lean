import Proto2.Proofs.Corpus.Lines

/-!
Random services.

Behind the body of a procedure a semicolon may stand, so a procedure with a body is read as such
only if none follows.  What follows is another procedure or the end of the service.
-/

namespace Proto2.Corpus

open Generator (Yields)

variable {σ : Type} {d : DrawSource σ}

/-- Lines that are made sometimes have a property if no lines have it as well. -/
theorem yields_sometimes {make : Generator σ (List Line)} {P : List Line → Prop} (percent : Nat)
    (h : Yields d make P) (none : P []) : Yields d (sometimes percent make) P := by
  refine .bind (.any _) fun present _ => ?_
  split
  · exact h
  · exact .pure none

/-- An option statement now and then. -/
theorem yields_options (inRange : d.InRange) (indent : Nat) :
    Yields d (sometimes 20 (optionLine (spaces indent))) (LaysBody OptionAt fun _ => True) := by
  refine yields_sometimes 20 ((yields_optionLine inRange indent).mono fun ls h => ?_) (.nil trivial)
  refine h.mono ?_
  rintro ts us ⟨s, hs⟩
  exact ⟨[s], .cons hs .nil, trivial⟩

/-! ### Procedures -/

theorem isName_empty : IsName (String.ofList "google.protobuf.Empty".toList) := by
  have hforms : ∀ part ∈ ["google".toList, "protobuf".toList, "Empty".toList],
      Lexeme.isIdentifierStart (part.headD ' ') = true ∧
        part.tail.all Lexeme.isIdentifierPart = true := by decide +kernel
  exact isName_joined (by simp) fun part hpart =>
    identifierForm_of_parts (hforms part hpart).1 (hforms part hpart).2

theorem yields_requestType : Yields d requestType fun cs => IsName (String.ofList cs) := by
  refine .bind yields_identifier fun plain hplain => .bind yields_identifier fun package hpackage =>
    .bind yields_identifier fun name hname => .oneOf ?_
  have hqualified := isName_joined (List.cons_ne_nil package [name]) (by simp [hpackage, hname])
  refine List.forall_mem_cons.mpr ⟨isName_empty, List.forall_mem_cons.mpr
    ⟨isName_of_form hplain, List.forall_mem_singleton.mpr ?_⟩⟩
  simpa [Text.joined] using hqualified

theorem yields_responseType : Yields d responseType fun cs => IsName (String.ofList cs) := by
  refine .bind yields_identifier fun plain hplain => .oneOf ?_
  exact List.forall_mem_cons.mpr
    ⟨isName_empty, List.forall_mem_singleton.mpr (isName_of_form hplain)⟩

/-- The lines bear tokens in which a procedure stands, if no semicolon follows. -/
def LaysRpc (ls : List Line) : Prop :=
  LaysLines ls fun ts us => NotAtKind .semicolon us → ∃ r, RpcAt ts r us

section Rpc

variable {name request response : Line} {doc : List Line} (form : Lexeme.IdentifierForm name)
  (hrequest : IsName (String.ofList request)) (hresponse : IsName (String.ofList response))

include form hrequest hresponse

/-- The line of a procedure up to its types, below whatever comments, and then more. -/
theorem lays_rpcHead (comments : List (Bool × String)) {cs : Line} {q : Pen}
    {R : List Token → List Token → Prop} (rest : Lays (.behind .closeParen) cs q R) :
    Lays (.under comments) (spaces 2 ++ ("rpc".toList ++ ' ' :: (name ++ ' ' :: '(' ::
        ((String.ofList request).toList ++ ')' :: ' ' :: ("returns".toList ++ ' ' :: '(' ::
          ((String.ofList response).toList ++ ')' :: cs)))))) q fun ts us =>
      ∃ word t returns ms ns ps, ts = word :: t :: ms ∧ word.isWord "rpc" = true ∧
        t.kind = .identifier ∧ RpcTypeAt ms (String.ofList request) (returns :: ns) ∧
        returns.isWord "returns" = true ∧ RpcTypeAt ns (String.ofList response) ps ∧ R ps us := by
  have hname := Lays.token (p := .gap) form.spells (fun c _ => Pen.fits_gap c)
    (Lays.space (p := .behind .identifier) (lays_rpcTypes hrequest hresponse rest))
  have hline := lays_keyword (w := "rpc") (isIdentifier_of rfl rfl rfl) hname 2 comments
  refine hline.mono ?_
  rintro ts us ⟨word, _, rfl, hword, t, ms, rfl, ht, returns, ns, ps, hrequest, hreturns, hresponse,
    hrest⟩
  exact ⟨word, t, returns, ms, ns, ps, rfl, hword, Token.kind_of_written ht, hrequest, hreturns,
    hresponse, hrest⟩

/-- A procedure without a body. -/
theorem laysRpc_plain (hdoc : IsRemark doc) :
    LaysRpc (doc ++ ["  rpc ".toList ++ name ++ " (".toList ++ request ++ ") returns (".toList ++
      response ++ [')'] ++ [';']]) := by
  have hline : LaysLines (doc ++ ["  rpc ".toList ++ name ++ " (".toList ++ request ++
      ") returns (".toList ++ response ++ [')'] ++ [';']]) _ :=
    .documented hdoc fun comments =>
      (lays_rpcHead form hrequest hresponse comments (lays_semicolon .closeParen)).of_eq
        (by simp [spaces])
  refine hline.mono ?_
  rintro ts us ⟨word, t, returns, ms, ns, ps, rfl, hword, hkind, hrequest, hreturns, hresponse,
    hsemi⟩ -
  exact ⟨_, .mk hword hkind hrequest hreturns hresponse (.none hsemi)⟩

/-- A procedure whose body sets an option. -/
theorem laysRpc_option (hdoc : IsRemark doc) {body : List Line}
    (hbody : LaysLines body fun ts us => ∃ s, OptionAt ts s us) :
    LaysRpc (doc ++ ["  rpc ".toList ++ name ++ " (".toList ++ request ++ ") returns (".toList ++
      response ++ [')'] ++ [' ', '\x7b']] ++ body ++
      [spaces 2 ++ ['\x7d']]) := by
  have hhead : LaysLines (doc ++ ["  rpc ".toList ++ name ++ " (".toList ++ request ++
      ") returns (".toList ++ response ++ [')'] ++ [' ', '\x7b']]) _ :=
    .documented hdoc fun comments =>
      (lays_rpcHead form hrequest hresponse comments (lays_opening .closeParen)).of_eq
        (by simp [spaces])
  refine ((hhead.append hbody).append (laysLines_closing 2)).mono ?_
  rintro ts us ⟨_, ⟨_, ⟨word, t, returns, ms, ns, _, rfl, hword, hkind, hrequest, hreturns,
    hresponse, opening, rfl, hopening⟩, s, hs⟩, closing, rfl, hclosing⟩ hsemi
  exact ⟨_, .mk hword hkind hrequest hreturns hresponse
    (.some hopening (.cons (.option hs) .nil) hclosing (.inr ⟨rfl, hsemi⟩))⟩

end Rpc

theorem yields_rpc (inRange : d.InRange) : Yields d rpc LaysRpc := by
  refine .bind yields_identifier fun name hname => .bind yields_requestType fun request hrequest =>
    .bind yields_responseType fun response hresponse => .bind (yields_documentation 2)
    fun doc hdoc => .bind (.any _) fun withBody _ => ?_
  split
  · exact .bind (yields_optionLine inRange 4) fun body hbody =>
      .pure (laysRpc_option hname hrequest hresponse hdoc hbody)
  · exact .pure (laysRpc_plain hname hrequest hresponse hdoc)

/-! ### Services -/

theorem notAtKind_of_rpcAt {ts us : List Token} {r : Rpc} (h : RpcAt ts r us) :
    NotAtKind .semicolon ts := by
  cases h with
  | mk isWord => simp [Token.kind_of_isWord isWord]

/-- Procedures behind one another, if no semicolon follows the last of them. -/
theorem laysLines_rpcs {lss : List (List Line)} (h : ∀ ls ∈ lss, LaysRpc ls) :
    LaysLines lss.flatten fun ts us => NotAtKind .semicolon us →
      NotAtKind .semicolon ts ∧ ∃ rs, Sequence RpcAt ts rs us := by
  induction lss with
  | nil =>
      refine LaysLines.nil.mono ?_
      rintro ts us rfl hsemi
      exact ⟨hsemi, [], .nil⟩
  | cons ls lss ih =>
      obtain ⟨hfirst, hrest⟩ := List.forall_mem_cons.mp h
      refine (hfirst.append (ih hrest)).mono ?_
      rintro ts us ⟨ms, hrpc, hrpcs⟩ hsemi
      obtain ⟨hsemi, rs, hrs⟩ := hrpcs hsemi
      obtain ⟨r, hr⟩ := hrpc hsemi
      exact ⟨notAtKind_of_rpcAt hr, r :: rs, .cons hr hrs⟩

/-- A service stands in its lines. -/
theorem yields_service (inRange : d.InRange) (scope : Scope) :
    Yields d service fun ls => LaysLines ls fun ts us => ∃ s, ServiceAt scope ts s us := by
  refine .bind yields_identifier fun name hname => .bind (yields_documentation 0) fun doc hdoc =>
    .bind (yields_options inRange 2) fun options hoptions => .bind (.any _) fun count _ =>
    .bind (.times (yields_rpc inRange) count) fun rpcs hrpcs => .pure ?_
  have hbody : LaysLines (options ++ rpcs.flatten) fun ts us => AtKind .closeBrace us →
      ∃ items, Sequence ServiceItemAt ts items us ∧
        ∃ (ss : List Setting) (rs : List Rpc), items = ss.map .option ++ rs.map .rpc := by
    refine (LaysLines.append hoptions (laysLines_rpcs hrpcs.2)).mono ?_
    rintro ts us ⟨ms, ⟨ss, hss, -⟩, hrpcs⟩ hclosing
    obtain ⟨-, rs, hrs⟩ := hrpcs (.of_atKind hclosing (by decide))
    have hsettings : Sequence ServiceItemAt ts (ss.map .option) ms := hss.map fun _ _ _ => .option
    have hprocedures : Sequence ServiceItemAt ms (rs.map .rpc) us := hrs.map fun _ _ _ => .rpc
    exact ⟨_, hsettings.append hprocedures, ss, rs, rfl⟩
  have hblock := laysLines_named (w := "service") (isIdentifier_of rfl rfl rfl) hname hdoc hbody 0
  refine (hblock.of_eq (by simp [spaces])).mono ?_
  rintro ts us ⟨word, t, opening, ms, closing, _, rfl, hword, hkind, -, hopening, hitems, hclosing,
    ss, rs, rfl⟩
  exact ⟨_, .of_parts hword hkind hopening hitems hclosing⟩

end Proto2.Corpus

import BlockC.Proofs.PlainReading

/-! # Reading plain statements

The statements of a plain program, each with its semicolon, are read one by one as what they are
(`reads_stmts`).  The induction is mutual over statements, what stands behind an `if`, and lists of
statements; each form of statement has a lemma of its own that puts its parts together.
-/
namespace BlockC
namespace Grammar

open Surface

section
variable {source : ByteArray}

/-- The semicolon that ends a statement. -/
def Semicolon (t : Token) : Prop :=
  t.kind = .punct .semicolon

theorem Semicolon.stops {t : Token} (h : Semicolon t) : Stops t :=
  stops_of_kind h (by decide) rfl

theorem Semicolon.noDot {t : Token} (h : Semicolon t) : NoDot t := by
  rw [Semicolon] at h
  simp [NoDot, h]

/-- A word of the language that is no literal has no node of its own. -/
theorem named_keyword {t : Token} {k : Keyword} (hk : t.kind = .keyword k)
    (h : k.isLiteral = false) : (Node.leaf t).named = false := by
  rw [Node.named_leaf, hk]
  exact h

theorem stops_of_keyword {t : Token} {k : Keyword} (hk : t.kind = .keyword k) : Stops t := by
  simp [Stops, hk, Kind.behindOperand?]

/-- An expression as a part of a statement. -/
theorem reads_exprPart {x : Plain.Expr} (hx : x.Proper) {ts : List Token}
    (hts : ts.map Token.word = x.words) (hstand : ∀ t ∈ ts, t.StandsIn source) :
    ∃ n : Node, n.named = true ∧ n.kind = "expr" ∧ (exprOf source n).plain? = some x ∧
      Reads (.expr .lowest) Stops ts n := by
  obtain ⟨n, hn, hkind, hplain, hread⟩ :=
    (reads_plain x hx .lowest x.readableAt_lowest ts hts hstand).reads
  exact ⟨n, hn, hkind, hplain, hread.mono fun t ht => ⟨ht.followsPlain x, ht.ends _⟩⟩

/-! ### Names with types -/

/-- The tokens are read as the name with its type. -/
def ReadsBinding (source : ByteArray) (ts : List Token) (b : Plain.Binding) : Prop :=
  ∃ n read, n.named = true ∧ n.kind = "typed_ident" ∧ bindingOf source n = .ok read ∧
    read.plain = b ∧ Reads .typedIdent NoDot ts n

theorem reads_binding {b : Plain.Binding} (hb : b.Proper) {ts : List Token}
    (hts : ts.map Token.word = b.words) (hstand : ∀ t ∈ ts, t.StandsIn source) :
    ReadsBinding source ts b := by
  obtain ⟨name, rest, rfl, hname, hrest⟩ := List.map_eq_cons_iff.mp hts
  obtain ⟨colon, us, rfl, hcolon, hus⟩ := List.map_eq_cons_iff.mp hrest
  obtain ⟨hk, hv⟩ := Prod.mk.inj hname
  have hc : colon.kind = .punct .colon := congrArg Prod.fst hcolon
  obtain ⟨n, type, -, hn, htype, hread⟩ :=
    reads_type b.type hb.2 us hus fun u hu => hstand u (by simp [hu])
  have hbegin : Production.typedIdent.begin name = .ok [typedIdentFrom name] := by
    simp [Production.begin, requiring, hk]
  have hfills : Fills "typed_ident" [.mark .colon, .node .typeExpr (some "typing")] NoDot
      (colon :: us) _ := .token hc hread.lastPart
  have hbinding : bindingOf source (.assemble "typed_ident" .origin
      [(Node.leaf name).inField (some "ident"), (Node.leaf colon).inField none,
        n.inField (some "typing")]) = _ :=
    bindingOf_eq rfl rfl ((hstand name (by simp)).leaf (some "ident"))
  rw [typeOf_inField, hn] at hbinding
  refine ⟨_, _, rfl, rfl, hbinding, ?_, hfills.opened.reads hbegin⟩
  rw [Binding.plain, htype, hv]

/-- What the named nodes of a parameter list are. -/
def paramsOf (source : ByteArray) (cs : List Node) : List Param :=
  (cs.filter (·.named)).map (paramOf source)

theorem paramOf_typedIdent {n : Node} {b : Binding} (hk : n.kind = "typed_ident")
    (h : bindingOf source n = .ok b) : paramOf source n = .binding b := by
  simp only [paramOf, hk, h]

/-- One parameter or more, or the mark of further ones, up to the parenthesis that closes them.
Which way the next token goes is the same for the first parameter as for the others. -/
theorem fills_parameter {closing : Token} (hc : closing.kind = .punct .closeParen)
    (variadic : Bool) : ∀ bs : List Plain.Binding, (∀ b ∈ bs, b.Proper) →
    bs ≠ [] ∨ variadic = true → ∀ ts : List Token,
    ts.map Token.word = Plain.commaWords (bs.map Plain.Binding.words ++
      if variadic then [[Punct.ellipsis.word]] else []) → (∀ t ∈ ts, t.StandsIn source) →
    ∃ (t : Token) (rest : List Token) (cs : List Node), ts = t :: rest ∧
      (t.kind = .identifier ∨ t.kind = .punct .ellipsis) ∧
      Param.plains? (paramsOf source cs) = some (bs, variadic) ∧
      Fills "params" (Choice.parameter.expand t.kind ++ [Part.mark .closeParen]) (fun _ => True)
        (ts ++ [closing]) (cs ++ [(Node.leaf closing).inField none])
  | [], _, hne, ts, hts, _ => by
    obtain rfl : variadic = true := by simpa using hne
    obtain ⟨dots, rfl, hdots⟩ := List.map_eq_singleton_iff.mp hts
    have hk : dots.kind = .punct .ellipsis := congrArg Prod.fst hdots
    have hread : Reads .variadic (fun _ => True) [dots]
        (.assemble "variadic" .origin [(Node.leaf dots).inField none]) := Fills.nil.opened.reads rfl
    have hfills : Fills "params" [.node .variadic none, .mark .closeParen] (fun _ => True)
        [dots, closing] _ := .node hread trivial (.token hc .nil)
    exact ⟨dots, [], [_], rfl, Or.inr hk, rfl, by rw [hk]; exact hfills⟩
  | b :: bs, hbs, _, ts, hts, hstand => by
    have hnext : ∀ u : Token, u.kind = .punct .comma ∨ u.kind = .punct .closeParen → NoDot u := by
      rintro u (hu | hu) <;> simp [NoDot, hu]
    by_cases hlast : bs = [] ∧ variadic = false
    · obtain ⟨rfl, rfl⟩ := hlast
      have hts' : ts.map Token.word = b.words := hts
      obtain ⟨n, read, hn, hkind, hb, rfl, hread⟩ := reads_binding (hbs b (by simp)) hts' hstand
      obtain ⟨name, rest, rfl, hname, -⟩ := List.map_eq_cons_iff.mp hts'
      have hk : name.kind = .identifier := congrArg Prod.fst hname
      refine ⟨name, rest, [n.inField none], rfl, Or.inl hk, ?_, ?_⟩
      · simp [paramsOf, hn, paramOf_typedIdent hkind hb, Param.plains?]
      · rw [hk]
        exact .node hread (hnext closing (Or.inr hc))
          (.choice rfl (by rw [hc]) rfl (.token hc .nil))
    · -- A comma follows, and then at least one more item.
      have hmore : bs ≠ [] ∨ variadic = true := by
        cases variadic <;> simp_all
      have hwords : ts.map Token.word = b.words ++ Punct.comma.word ::
          Plain.commaWords (bs.map Plain.Binding.words ++
            if variadic then [[Punct.ellipsis.word]] else []) := by
        rw [hts]
        cases bs with
        | nil =>
          obtain rfl : variadic = true := by simpa using hmore
          rfl
        | cons b' bs => rfl
      obtain ⟨us, behind, rfl, hus, hbehind⟩ := List.map_eq_append_iff.mp hwords
      obtain ⟨comma, vs, rfl, hcomma, hvs⟩ := List.map_eq_cons_iff.mp hbehind
      have hkc : comma.kind = .punct .comma := congrArg Prod.fst hcomma
      obtain ⟨n, read, hn, hkind, hb, rfl, hread⟩ := reads_binding (hbs b (by simp)) hus
        fun u hu => hstand u (by simp [hu])
      obtain ⟨name, rest, rfl, hname, -⟩ := List.map_eq_cons_iff.mp hus
      have hk : name.kind = .identifier := congrArg Prod.fst hname
      obtain ⟨v, vs', cs, rfl, hfirst, hplain, hfills⟩ := fills_parameter hc variadic bs
        (fun b' hb' => hbs b' (by simp [hb'])) hmore vs hvs fun u hu => hstand u (by simp [hu])
      have hopen :
          startsOpen (Choice.parameter.expand v.kind ++ [Part.mark .closeParen]) = false := by
        rcases hfirst with h | h <;> rw [h] <;> rfl
      have hrest : Fills "params" [.choice .moreParameters, .mark .closeParen] (fun _ => True)
          (comma :: (v :: vs' ++ [closing])) _ :=
        .choice rfl (by rw [hkc]) rfl (.token hkc (.choice rfl rfl hopen hfills))
      refine ⟨name, _, n.inField none :: (Node.leaf comma).inField none :: cs, rfl, Or.inl hk, ?_,
        ?_⟩
      · have hunnamed : (Node.leaf comma).named = false := by simp [hkc, Kind.isNamed]
        have hstep : paramsOf source (n.inField none :: (Node.leaf comma).inField none :: cs) =
            .binding read :: paramsOf source cs := by
          simp [paramsOf, hn, hunnamed, paramOf_typedIdent hkind hb]
        rw [hstep, Param.plains?, hplain]
        rfl
      · rw [hk, List.append_assoc, List.cons_append]
        exact .node hread (hnext comma (Or.inl hkc)) hrest

/-- The parameters between their parentheses. -/
theorem reads_params {h : Plain.Header} (hh : ∀ b ∈ h.params, b.Proper) {ts : List Token}
    (hts : ts.map Token.word = grouped (Plain.commaWords h.paramWords))
    (hstand : ∀ t ∈ ts, t.StandsIn source) :
    ∃ n : Node, Param.plains? (paramsOf source n.children) = some (h.params, h.variadic) ∧
      Reads .params (fun _ => True) ts n := by
  obtain ⟨opening, inner, closing, rfl, ho, hc, hinner⟩ := split_grouped hts
  have hbegin : Production.params.begin opening = .ok
      [opened "params" opening none [.choice .parameters, .mark .closeParen]] := by
    simp [Production.begin, requiring, ho]
  have hopen : (Node.leaf opening).named = false := by simp [ho, Kind.isNamed]
  have hclose : (Node.leaf closing).named = false := by simp [hc, Kind.isNamed]
  by_cases hempty : h.params = [] ∧ h.variadic = false
  · obtain ⟨hnone, hfixed⟩ := hempty
    rw [Plain.Header.paramWords, hnone, hfixed] at hinner
    obtain rfl : inner = [] := List.map_eq_nil_iff.mp hinner
    have hfills : Fills "params" [.choice .parameters, .mark .closeParen] (fun _ => True)
        [closing] _ := .choice rfl (by rw [hc]) rfl (.token hc .nil)
    refine ⟨_, ?_, hfills.opened.reads hbegin⟩
    rw [hnone, hfixed]
    simp [paramsOf, hopen, hclose, Param.plains?]
  · have hne : h.params ≠ [] ∨ h.variadic = true := by
      cases hv : h.variadic <;> simp_all
    obtain ⟨t, rest, cs, rfl, hfirst, hplain, hread⟩ := fills_parameter hc h.variadic h.params hh
      hne inner hinner fun u hu => hstand u (by simp [hu])
    -- The first parameter is chosen as any other one.
    have hchosen : Choice.parameters.expand t.kind = Choice.parameter.expand t.kind := by
      rcases hfirst with hk | hk <;> rw [hk] <;> rfl
    have hstarts :
        startsOpen (Choice.parameter.expand t.kind ++ [Part.mark .closeParen]) = false := by
      rcases hfirst with hk | hk <;> rw [hk] <;> rfl
    have hfills : Fills "params" [.choice .parameters, .mark .closeParen] (fun _ => True)
        (t :: rest ++ [closing]) _ := .choice rfl hchosen hstarts hread
    refine ⟨_, ?_, hfills.opened.reads hbegin⟩
    rw [← hplain]
    simp [paramsOf, hopen, hclose]

/-! ### Headers -/

/-- The tokens of a header are the first parts of a function, and what they are read as, whatever
stands behind them. -/
theorem reads_header {h : Plain.Header} (hh : h.Proper) {ts : List Token}
    (hts : ts.map Token.word = h.words) (hstand : ∀ t ∈ ts, t.StandsIn source) :
    ∃ keyword name list arrow type params returns,
      ts = keyword :: name :: (list ++ arrow :: type) ∧ keyword.kind = .keyword .fnKw ∧
      name.kind = .identifier ∧ arrow.kind = .punct .arrow ∧
      Reads .params (fun _ => True) list params ∧ Reads .typeExpr NoDot type returns ∧
      ∀ kind behind, ∃ read, headerOf source (.assemble kind .origin
        ((Node.leaf keyword).inField none :: (Node.leaf name).inField (some "func_name") ::
          params.inField (some "params") :: (Node.leaf arrow).inField none ::
          returns.inField (some "returns") :: behind)) = .ok read ∧ read.plain? = some h := by
  obtain ⟨keyword, rest, rfl, hkeyword, hrest⟩ := List.map_eq_cons_iff.mp hts
  obtain ⟨name, rest, rfl, hname, hrest⟩ := List.map_eq_cons_iff.mp hrest
  obtain ⟨list, rest, rfl, hlist, hrest⟩ := List.map_eq_append_iff.mp hrest
  obtain ⟨arrow, us, rfl, harrow, hus⟩ := List.map_eq_cons_iff.mp hrest
  obtain ⟨hk, hv⟩ := Prod.mk.inj hname
  obtain ⟨params, hparams, hreadparams⟩ :=
    reads_params hh.2.1 hlist fun u hu => hstand u (by simp [hu])
  obtain ⟨returns, type, -, hn, htype, hreadtype⟩ :=
    reads_type h.returns hh.2.2 us hus fun u hu => hstand u (by simp [hu])
  refine ⟨keyword, name, list, arrow, us, params, returns, rfl, congrArg Prod.fst hkeyword, hk,
    congrArg Prod.fst harrow, hreadparams, hreadtype, fun kind behind => ?_⟩
  refine ⟨_, headerOf_eq rfl rfl rfl ((hstand name (by simp)).leaf _), ?_⟩
  rw [typeOf_inField, hn, Header.plain?]
  change (Param.plains? (paramsOf source params.children)).bind _ = _
  rw [hparams]
  change some (⟨name.value, h.params, h.variadic, type.plain⟩ : Plain.Header) = some h
  rw [hv, htype]

/-! ### Blocks -/

/-- Tokens that read statements, each with a semicolon behind it. -/
inductive ReadsBody : List Token → List Node → Prop
  | nil : ReadsBody [] []
  | cons {ts us : List Token} {semicolon : Token} {n : Node} {ns : List Node}
      (h : Reads .stmt Semicolon ts n) (hk : Semicolon semicolon) (hs : ReadsBody us ns) :
      ReadsBody (ts ++ semicolon :: us) (n.inField none ::
        (Node.assemble "stmt" .origin [(Node.assemble "empty" .origin
          [(Node.leaf semicolon).inField none]).inField none]).inField none :: ns)

theorem stmtFrom_semicolon {t : Token} (ht : Semicolon t) :
    stmtFrom t = .ok [opened "empty" t none [], .partly "stmt" [] [.hole none]] := by
  rw [Semicolon] at ht
  simp only [stmtFrom, stmtFrame?, ht]

theorem reads_semicolon {t : Token} (ht : Semicolon t) :
    Reads .stmt (fun _ => True) [t] (.assemble "stmt" .origin
      [(Node.assemble "empty" .origin [(Node.leaf t).inField none]).inField none]) :=
  (Fills.nil.opened.wrapped "stmt").reads (stmtFrom_semicolon ht)

/-- A choice between a further statement and the end of a list of them. -/
structure Choice.Repeats (c : Choice) : Prop where
  rename : ∀ k, c.rename? k = none
  more : ∀ (t : Token) (frames : List Frame), stmtFrom t = .ok frames →
    c.expand t.kind = [.node .stmt none, .choice c]

/-- No statement starts with the end of the text or with that of a block. -/
theorem stmtFrom_inside {t : Token} {frames : List Frame} (h : stmtFrom t = .ok frames) :
    t.kind ≠ .eof ∧ t.kind ≠ .keyword .endKw := by
  constructor <;> intro hk <;>
    simp [stmtFrom, stmtFrame?, exprFrom, hk, Kind.isLiteral, Keyword.isLiteral, Kind.isSign,
      Except.map] at h

theorem topLevel_repeats : Choice.topLevel.Repeats where
  rename _ := rfl
  more t frames h := by
    obtain ⟨heof, -⟩ := stmtFrom_inside h
    cases hk : t.kind with
    | eof => exact absurd hk heof
    | _ => rfl

theorem statements_repeats : Choice.statements.Repeats where
  rename _ := rfl
  more t frames h := by
    obtain ⟨heof, hend⟩ := stmtFrom_inside h
    cases hk : t.kind with
    | eof => exact absurd hk heof
    | keyword w =>
      rw [hk] at hend
      cases w with
      | endKw => exact absurd rfl hend
      | _ => rfl
    | _ => rfl

/-- The statements of a list, given what is read behind them. -/
theorem fills_body {c : Choice} (hc : c.Repeats) {kind : String} {parts : List Part}
    {next : Token → Prop} {ts us : List Token} {ns cs : List Node} (h : ReadsBody ts ns)
    (hs : Fills kind (.choice c :: parts) next us cs) :
    Fills kind (.choice c :: parts) next (ts ++ us) (ns ++ cs) := by
  induction h with
  | nil => exact hs
  | @cons ts vs semicolon n ns h hk _ ih =>
    have hsemicolon : Fills kind (.choice c :: parts) next (semicolon :: (vs ++ us)) _ :=
      .choice (hc.rename _) (hc.more semicolon _ (stmtFrom_semicolon hk)) rfl
        (.closedNode (reads_semicolon hk) ih)
    obtain ⟨first, rest, frames, rfl, hbegin, hread⟩ := h
    rw [List.append_assoc]
    exact .choice (hc.rename _) (hc.more first frames hbegin) rfl
      (.node ⟨first, rest, frames, rfl, hbegin, hread⟩ hk hsemicolon)

theorem stmtsOf_append (ns ms : List Node) :
    stmtsOf source (ns ++ ms) = stmtsOf source ns ++ stmtsOf source ms := by
  induction ns with
  | nil => simp [stmtsOf]
  | cons n ns ih =>
    by_cases hn : n.named = true <;> simp [stmtsOf, hn, ih]

/-- The tokens are read as a block of these statements. -/
def ReadsBlock (source : ByteArray) (ts : List Token) (body : List Plain.Stmt) : Prop :=
  ∃ n : Node, n.kind = "codeblock" ∧ Stmt.plains? (stmtsOf source n.children) = some body ∧
    Reads .codeblock (fun _ => True) ts n

theorem reads_block {ts : List Token} {ns : List Node} {body : List Plain.Stmt}
    {first last : Token} (h : ReadsBody ts ns)
    (hplain : Stmt.plains? (stmtsOf source ns) = some body)
    (hf : first.kind = .keyword .doKw) (hl : last.kind = .keyword .endKw) :
    ReadsBlock source (first :: (ts ++ [last])) body := by
  have hbegin : Production.codeblock.begin first = .ok
      [opened "codeblock" first none [.choice .statements, .word .endKw]] := by
    simp [Production.begin, requiring, hf]
  have hfirst : (Node.leaf first).named = false := named_keyword hf rfl
  have hlast : (Node.leaf last).named = false := named_keyword hl rfl
  have hend : Fills "codeblock" [.choice .statements, .word .endKw] (fun _ => True) [last] _ :=
    .choice rfl (by rw [hl]) rfl (.token hl .nil)
  refine ⟨_, rfl, ?_, (fills_body statements_repeats h hend).opened.reads hbegin⟩
  rw [← hplain, Node.children_assemble, stmtsOf, if_neg (by simp [hfirst]), stmtsOf_append]
  simp [stmtsOf, hlast]

/-- A block starts with `do`. -/
theorem ReadsBlock.first {ts : List Token} {body : List Plain.Stmt}
    (h : ReadsBlock source ts body) :
    ∃ first rest, ts = first :: rest ∧ first.kind = .keyword .doKw := by
  obtain ⟨n, -, -, first, rest, frames, rfl, hbegin, -⟩ := h
  exact ⟨first, rest, rfl, (requiring_eq_ok hbegin).1⟩

/-- A condition and the block behind it. -/
theorem fills_test {kind : String} {parts : List Part} {next : Token → Prop} (field role : String)
    {us vs ws : List Token} {cs : List Node} {test body : Node} {first : Token}
    (htest : Reads (.expr .lowest) Stops us test)
    (hbody : Reads .codeblock (fun _ => True) (first :: vs) body)
    (hk : first.kind = .keyword .doKw) (h : Fills kind parts next ws cs) :
    Fills kind (.node (.expr .lowest) (some field) :: .node .codeblock (some role) :: parts) next
      (us ++ (first :: vs ++ ws))
      (test.inField (some field) :: body.inField (some role) :: cs) :=
  .node htest (stops_of_keyword hk) (.closedNode hbody h)

/-! ### Statements -/

/-- The tokens are read as the statement. -/
def ReadsStmt (source : ByteArray) (ts : List Token) (s : Plain.Stmt) : Prop :=
  ∃ n : Node, n.named = true ∧ (stmtOf source n).plain? = some s ∧ Reads .stmt Semicolon ts n

/-- A statement by the form under its wrapper. -/
theorem readsStmt_of_form {t : Token} {ts : List Token} {f : Frame} {form : Node} {read : Stmt}
    {s : Plain.Stmt} (ht : stmtFrame? t = some f) (h : Completes [f] Semicolon ts form)
    (hread : stmtInside source [form] = some read) (hs : read.plain? = some s) :
    ReadsStmt source (t :: ts) s := by
  have hfrom : Production.stmt.begin t = .ok [f, .partly "stmt" [] [.hole none]] := by
    simp only [Production.begin, stmtFrom, ht]
  refine ⟨_, rfl, ?_, (h.wrapped "stmt").reads hfrom⟩
  rw [stmtOf_wrapper _ ((stmtInside_inField form none).trans hread), hs]

theorem readsStmt_empty {t : Token} (hk : t.kind = .punct .semicolon) :
    ReadsStmt source [t] .empty := by
  have ht : stmtFrame? t = some (opened "empty" t none []) := by simp only [stmtFrame?, hk]
  exact readsStmt_of_form ht Fills.nil.opened (stmtInside_empty _) rfl

theorem readsStmt_mod {keyword name : Token} (hk : keyword.kind = .keyword .mod)
    (hn : name.kind = .identifier) (hs : name.StandsIn source) :
    ReadsStmt source [keyword, name] (.mod name.value) := by
  have ht : stmtFrame? keyword = some (modFrom keyword) := by simp only [stmtFrame?, hk]
  have hfills : Fills "mod" [.token .identifier (some "name")] Semicolon [name] _ :=
    .token hn .nil
  exact readsStmt_of_form ht hfills.opened (stmtInside_mod rfl (hs.leaf _)) rfl

theorem ReadsBinding.declare {keyword : Token} {ts : List Token} {b : Plain.Binding}
    (h : ReadsBinding source ts b) (hk : keyword.kind = .keyword .letKw) :
    ReadsStmt source (keyword :: ts) (.declare b none) := by
  obtain ⟨n, read, -, -, hbinding, rfl, hread⟩ := h
  have ht : stmtFrame? keyword = some (declareFrom keyword) := by simp only [stmtFrame?, hk]
  have hfills : Fills "declare" [.node .typedIdent (some "typed_ident"), .choice .initial]
      Semicolon ts _ := .lastNode hread (fun _ => Semicolon.noDot) (.noChoice fun t ht => by
        rw [Semicolon] at ht
        exact ⟨rfl, by rw [ht]; rfl⟩)
  have hform : stmtInside source [.assemble "declare" .origin
      [(Node.leaf keyword).inField none, n.inField (some "typed_ident")]] = _ :=
    stmtInside_declare none rfl rfl
  rw [bindingOf_inField, hbinding] at hform
  exact readsStmt_of_form ht hfills.opened hform rfl

theorem ReadsBinding.define {keyword equals : Token} {ts us : List Token} {b : Plain.Binding}
    {x : Plain.Expr} {value : Node} (h : ReadsBinding source ts b)
    (hk : keyword.kind = .keyword .letKw) (he : equals.kind = .punct .assign)
    (hx : (exprOf source value).plain? = some x) (hv : Reads (.expr .lowest) Stops us value) :
    ReadsStmt source (keyword :: (ts ++ equals :: us)) (.declare b (some x)) := by
  obtain ⟨n, read, -, -, hbinding, rfl, hread⟩ := h
  have ht : stmtFrame? keyword = some (declareFrom keyword) := by simp only [stmtFrame?, hk]
  have hdot : NoDot equals := by simp [NoDot, he]
  have hinitial : Fills "declare" [.choice .initial] Semicolon (equals :: us) _ :=
    .choice rfl (by rw [he]) rfl (.token he (.lastNode hv (fun _ => Semicolon.stops) .nil))
  have hform : stmtInside source [.assemble "declare" .origin
      [(Node.leaf keyword).inField none, n.inField (some "typed_ident"),
        (Node.leaf equals).inField none, value.inField (some "initial")]] = _ :=
    stmtInside_declare (some (exprOf source value)) rfl (by simp)
  rw [bindingOf_inField, hbinding] at hform
  refine readsStmt_of_form ht (Fills.node hread hdot hinitial).opened hform ?_
  simp [Stmt.plain?, hx]

theorem ReadsBinding.external {keyword : Token} {ts : List Token} {b : Plain.Binding}
    (h : ReadsBinding source ts b) (hk : keyword.kind = .keyword .external) :
    ReadsStmt source (keyword :: ts) (.externalVariable b) := by
  obtain ⟨n, read, -, -, hbinding, rfl, hread⟩ := h
  have ht : stmtFrame? keyword = some (externalFrom keyword) := by simp only [stmtFrame?, hk]
  obtain ⟨name, rest, frames, rfl, hbegin, hcompletes⟩ := hread
  obtain ⟨hi, rfl⟩ := requiring_eq_ok hbegin
  have hframes : Production.externalVariable.begin name = .ok ([typedIdentFrom name] ++
      [Frame.partly "external_variable" [] [.hole (some "typed_ident")]]) := by
    simp [Production.begin, requiring, hi]
  have hvariable : Reads .externalVariable NoDot (name :: rest) _ :=
    (hcompletes.wrapped "external_variable").reads hframes
  have hfills : Fills "external" [.choice .externalForm] Semicolon (name :: rest) _ :=
    .choice rfl (by rw [hi]) rfl (.lastNode hvariable (fun _ => Semicolon.noDot) .nil)
  have hform : stmtInside source [.assemble "external" .origin
      [(Node.leaf keyword).inField none, (Node.assemble "external_variable" .origin
        [n.inField (some "typed_ident")]).inField none]] = _ :=
    stmtInside_externalVariable rfl (named_keyword hk rfl) rfl rfl
  have hchild : (childIn (Node.assemble "external_variable" .origin
      [n.inField (some "typed_ident")]) "typed_ident" >>= bindingOf source) = .ok read := hbinding
  rw [hchild] at hform
  exact readsStmt_of_form ht hfills.opened hform rfl

theorem reads_externalFunction {keyword : Token} {ts : List Token} {h : Plain.Header}
    (hh : h.Proper) (hts : ts.map Token.word = h.words) (hstand : ∀ t ∈ ts, t.StandsIn source)
    (hk : keyword.kind = .keyword .external) :
    ReadsStmt source (keyword :: ts) (.externalFunction h) := by
  obtain ⟨word, name, list, arrow, type, params, returns, rfl, hword, hname, harrow, hparams,
    hreturns, hheader⟩ := reads_header hh hts hstand
  have ht : stmtFrame? keyword = some (externalFrom keyword) := by simp only [stmtFrame?, hk]
  have hparts : Fills "external_function" [.token .identifier (some "func_name"),
      .node .params (some "params"), .mark .arrow, .node .typeExpr (some "returns")] NoDot
      (name :: (list ++ arrow :: type)) _ :=
    .token hname (.node hparams trivial (.token harrow hreturns.lastPart))
  have hfunction : Reads .externalFunction NoDot (word :: name :: (list ++ arrow :: type)) _ :=
    hparts.opened.reads rfl
  have hfills : Fills "external" [.choice .externalForm] Semicolon
      (word :: name :: (list ++ arrow :: type)) _ :=
    .choice rfl (by rw [hword]) rfl (.lastNode hfunction (fun _ => Semicolon.noDot) .nil)
  obtain ⟨read, hread, hplain⟩ := hheader "external_function" []
  exact readsStmt_of_form ht hfills.opened
    (stmtInside_externalFunction rfl (named_keyword hk rfl) rfl rfl hread) (by
      simp [Stmt.plain?, hplain])

theorem ReadsBlock.func {ts us : List Token} {h : Plain.Header} {body : List Plain.Stmt}
    (hbody : ReadsBlock source us body) (hh : h.Proper) (hts : ts.map Token.word = h.words)
    (hstand : ∀ t ∈ ts, t.StandsIn source) : ReadsStmt source (ts ++ us) (.func h body) := by
  obtain ⟨word, name, list, arrow, type, params, returns, rfl, hword, hname, harrow, hparams,
    hreturns, hheader⟩ := reads_header hh hts hstand
  obtain ⟨first, rest, rfl, hfirst⟩ := hbody.first
  obtain ⟨block, hkind, hplainbody, hblock⟩ := hbody
  have ht : stmtFrame? word = some (funcFrom word) := by simp only [stmtFrame?, hword]
  have hdot : NoDot first := by simp [NoDot, hfirst]
  have hfills : Fills "func" [.token .identifier (some "func_name"),
      .node .params (some "params"), .mark .arrow, .node .typeExpr (some "returns"),
      .node .codeblock (some "body")] Semicolon
      (name :: (list ++ arrow :: (type ++ first :: rest))) _ :=
    .token hname (.node hparams trivial (.token harrow
      (.node hreturns hdot (.lastNode hblock (fun _ _ => trivial) .nil))))
  obtain ⟨read, hread, hplain⟩ := hheader "func" [block.inField (some "body")]
  have hbody : blockIn source "body" [(Node.leaf word).inField none,
      (Node.leaf name).inField (some "func_name"), params.inField (some "params"),
      (Node.leaf arrow).inField none, returns.inField (some "returns"),
      block.inField (some "body")] = some (.mk (stmtsOf source block.children) block.span) := by
    simp [hkind]
  rw [List.cons_append, List.cons_append, List.append_assoc, List.cons_append]
  exact readsStmt_of_form ht hfills.opened (stmtInside_func hread hbody) (by
    simp [Stmt.plain?, hplain, hplainbody])

theorem ReadsBlock.while {keyword : Token} {us vs : List Token} {x : Plain.Expr}
    {body : List Plain.Stmt} {test : Node} (hbody : ReadsBlock source vs body)
    (hk : keyword.kind = .keyword .whileKw) (hx : (exprOf source test).plain? = some x)
    (htest : Reads (.expr .lowest) Stops us test) :
    ReadsStmt source (keyword :: (us ++ vs)) (.whileLoop x body) := by
  obtain ⟨first, rest, rfl, hfirst⟩ := hbody.first
  obtain ⟨block, hkind, hplain, hblock⟩ := hbody
  have ht : stmtFrame? keyword = some (whileFrom keyword) := by simp only [stmtFrame?, hk]
  have hfills := fills_test "condition" "body" htest hblock hfirst
    (Fills.nil : Fills "while" [] Semicolon [] [])
  rw [List.append_nil] at hfills
  exact readsStmt_of_form ht hfills.opened (stmtInside_while rfl hkind) (by
    simp [Stmt.plain?, hx, hplain])

theorem readsStmt_return {keyword : Token} {ts : List Token} {x : Plain.Expr} {value : Node}
    (hk : keyword.kind = .keyword .returnKw) (hx : (exprOf source value).plain? = some x)
    (hv : Reads (.expr .lowest) Stops ts value) :
    ReadsStmt source (keyword :: ts) (.returned x) := by
  have ht : stmtFrame? keyword = some (returnFrom keyword) := by simp only [stmtFrame?, hk]
  have hfills : Fills "return" [.node (.expr .lowest) (some "returns")] Semicolon ts _ :=
    .lastNode hv (fun _ => Semicolon.stops) .nil
  exact readsStmt_of_form ht hfills.opened (stmtInside_return rfl) (by simp [Stmt.plain?, hx])

theorem ReadsType.alias {keyword name equals : Token} {ts : List Token} {x : Plain.TypeExpr}
    (h : ReadsType source ts x) (hk : keyword.kind = .keyword .typeKw)
    (hn : name.kind = .identifier) (hs : name.StandsIn source) (he : equals.kind = .punct .assign) :
    ReadsStmt source (keyword :: name :: equals :: ts) (.typeAlias name.value x) := by
  obtain ⟨n, type, -, htype, rfl, hread⟩ := h
  have ht : stmtFrame? keyword = some (typeAliasFrom keyword) := by simp only [stmtFrame?, hk]
  have hfills : Fills "type_alias" [.token .identifier (some "ident"), .mark .assign,
      .node .typeExpr (some "typing")] Semicolon (name :: equals :: ts) _ :=
    .token hn (.token he (.lastNode hread (fun _ => Semicolon.noDot) .nil))
  have hform : stmtInside source [.assemble "type_alias" .origin
      [(Node.leaf keyword).inField none, (Node.leaf name).inField (some "ident"),
        (Node.leaf equals).inField none, n.inField (some "typing")]] = _ :=
    stmtInside_typeAlias rfl (hs.leaf _)
  rw [htype] at hform
  exact readsStmt_of_form ht hfills.opened hform rfl

theorem readsStmt_expr {ts : List Token} {x : Plain.Expr} {value : Node} (hn : value.named = true)
    (hkind : value.kind = "expr") (hx : (exprOf source value).plain? = some x)
    (hv : Reads (.expr .lowest) Stops ts value) : ReadsStmt source ts (.expr x) := by
  obtain ⟨first, rest, frames, rfl, hbegin, hread⟩ := hv
  have hframe : stmtFrame? first = none := by
    unfold stmtFrame?
    split <;> simp_all [Production.begin, exprFrom, Kind.isLiteral, Keyword.isLiteral, Kind.isSign]
  have hfrom : Production.stmt.begin first =
      .ok (frames ++ [Frame.partly "stmt" [] [.hole none]]) := by
    have hexpr : exprFrom .lowest first = .ok frames := hbegin
    simp only [Production.begin, stmtFrom, hframe, hexpr, Except.map]
  refine ⟨_, rfl, ?_, ((hread.mono fun _ => Semicolon.stops).wrapped "stmt").reads hfrom⟩
  rw [stmtOf_wrapper _ ((stmtInside_inField value none).trans (stmtInside_expr hn hkind))]
  simp [Stmt.plain?, hx]

/-! ### Alternatives -/

/-- What the alternative of an `if` says, if there is one. -/
def otherwiseOf? : Option Block → Option Plain.Otherwise
  | none => some .nothing
  | some no => no.otherwise?

/-- The tokens are read as what stands behind the first block of an `if`. -/
def ReadsOtherwise (source : ByteArray) (ts : List Token) (o : Plain.Otherwise) : Prop :=
  ∃ cs, otherwiseOf? (alternativeIn source cs) = some o ∧
    Fills "if" [.choice .otherwise] Semicolon ts cs

/-- An `if` says the same as a statement and as an alternative. -/
theorem reads_if {keyword : Token} {us vs ws : List Token} {x : Plain.Expr}
    {yes : List Plain.Stmt} {o : Plain.Otherwise} {test : Node}
    (hx : (exprOf source test).plain? = some x) (htest : Reads (.expr .lowest) Stops us test)
    (hyes : ReadsBlock source vs yes) (ho : ReadsOtherwise source ws o) :
    ∃ cs read, Completes [ifFrom keyword] Semicolon (us ++ (vs ++ ws)) (.assemble "if" .origin cs) ∧
      stmtInside source [.assemble "if" .origin cs] = some read ∧
      read.plain? = some (.ifElse x yes o) ∧
      ∀ span, (Block.mk [read] span).otherwise? = some (.further x yes o) := by
  obtain ⟨first, rest, rfl, hfirst⟩ := hyes.first
  obtain ⟨block, hkind, hplain, hblock⟩ := hyes
  obtain ⟨cs, hno, hfills⟩ := ho
  have hall := fills_test "condition" "consequence" htest hblock hfirst hfills
  refine ⟨_, _, hall.opened, stmtInside_if rfl hkind, ?_⟩
  cases halt : alternativeIn source cs with
  | none =>
    rw [halt] at hno
    obtain rfl := Option.some.inj hno
    simp [Stmt.plain?, Block.otherwise?, hx, hplain]
  | some no =>
    rw [halt] at hno
    have hno' : no.otherwise? = some o := hno
    simp [Stmt.plain?, Block.otherwise?, hx, hplain, hno']

theorem readsOtherwise_nothing : ReadsOtherwise source [] .nothing := by
  refine ⟨[], rfl, .noChoice fun t ht => ?_⟩
  rw [Semicolon] at ht
  rw [ht]
  exact ⟨rfl, rfl⟩

/-- A block with its semicolons is not taken for a further `if`. -/
theorem otherwise?_of_plains? {body : List Stmt} {xs : List Plain.Stmt} (span : Span)
    (h : Stmt.plains? body = some xs) : (Block.mk body span).otherwise? = some (.block xs) := by
  rcases body with - | ⟨s, - | ⟨second, rest⟩⟩
  · obtain rfl := Option.some.inj h
    rfl
  · simp [Stmt.plains?] at h
  · simp [Block.otherwise?, h]

theorem ReadsBlock.otherwise {keyword : Token} {ts : List Token} {body : List Plain.Stmt}
    (h : ReadsBlock source ts body) (hk : keyword.kind = .keyword .elseKw) :
    ReadsOtherwise source (keyword :: ts) (.block body) := by
  obtain ⟨first, rest, rfl, hfirst⟩ := h.first
  obtain ⟨block, hkind, hplain, hblock⟩ := h
  have hchoice : Fills "if" [.choice .alternative] Semicolon (first :: rest) _ :=
    .choice rfl (by rw [hfirst]) rfl (.lastNode hblock (fun _ _ => trivial) .nil)
  have hfills : Fills "if" [.choice .otherwise] Semicolon (keyword :: first :: rest) _ :=
    .choice rfl (by rw [hk]) rfl (.token hk hchoice)
  refine ⟨_, ?_, hfills⟩
  simp [hkind, otherwiseOf?, otherwise?_of_plains? block.span hplain]

theorem readsOtherwise_further {keyword word : Token} {us vs ws : List Token} {x : Plain.Expr}
    {yes : List Plain.Stmt} {o : Plain.Otherwise} {test : Node}
    (hk : keyword.kind = .keyword .elseKw) (hw : word.kind = .keyword .ifKw)
    (hx : (exprOf source test).plain? = some x) (htest : Reads (.expr .lowest) Stops us test)
    (hyes : ReadsBlock source vs yes) (ho : ReadsOtherwise source ws o) :
    ReadsOtherwise source (keyword :: word :: (us ++ (vs ++ ws))) (.further x yes o) := by
  obtain ⟨cs, read, hcompletes, hread, -, hplain⟩ := reads_if hx htest hyes ho
  have hif : Reads .ifElse Semicolon (word :: (us ++ (vs ++ ws))) _ := hcompletes.reads rfl
  have hchoice : Fills "if" [.choice .alternative] Semicolon (word :: (us ++ (vs ++ ws))) _ :=
    .choice rfl (by rw [hw]) rfl hif.lastPart
  have hfills : Fills "if" [.choice .otherwise] Semicolon
      (keyword :: word :: (us ++ (vs ++ ws))) _ := .choice rfl (by rw [hk]) rfl (.token hk hchoice)
  refine ⟨_, ?_, hfills⟩
  rw [alternativeIn_skip (by simp), alternativeIn_if rfl rfl hread]
  exact hplain _

/-! ### Programs -/

/-- The tokens of a block, given those of its statements. -/
theorem split_block {ts : List Token} {ws : List Word}
    (h : ts.map Token.word = Plain.blockWords ws) :
    ∃ (first : Token) (inner : List Token) (last : Token), ts = first :: (inner ++ [last]) ∧
      first.kind = .keyword .doKw ∧ last.kind = .keyword .endKw ∧
      inner.map Token.word = ws := by
  obtain ⟨first, rest, rfl, hfirst, hrest⟩ := List.map_eq_cons_iff.mp h
  obtain ⟨inner, behind, rfl, hinner, hbehind⟩ := List.map_eq_append_iff.mp hrest
  obtain ⟨last, rfl, hlast⟩ := List.map_eq_singleton_iff.mp hbehind
  exact ⟨first, inner, last, rfl, congrArg Prod.fst hfirst, congrArg Prod.fst hlast, hinner⟩

mutual

/-- **The tokens of a plain statement are read as that statement.** -/
theorem reads_stmt : ∀ s : Plain.Stmt, s.Proper → ∀ ts : List Token,
    ts.map Token.word = s.words → (∀ t ∈ ts, t.StandsIn source) → ReadsStmt source ts s
  | .empty, _, ts, hts, _ => by
    obtain ⟨t, rfl, ht⟩ := List.map_eq_singleton_iff.mp hts
    exact readsStmt_empty (congrArg Prod.fst ht)
  | .mod name, _, ts, hts, hstand => by
    obtain ⟨keyword, rest, rfl, hk, hrest⟩ := List.map_eq_cons_iff.mp hts
    obtain ⟨t, rfl, ht⟩ := List.map_eq_singleton_iff.mp hrest
    obtain ⟨htk, rfl⟩ := Prod.mk.inj ht
    exact readsStmt_mod (congrArg Prod.fst hk) htk (hstand t (by simp))
  | .declare b none, h, ts, hts, hstand => by
    obtain ⟨keyword, rest, rfl, hk, hrest⟩ := List.map_eq_cons_iff.mp hts
    have hb := reads_binding h.1 hrest fun u hu => hstand u (by simp [hu])
    exact hb.declare (congrArg Prod.fst hk)
  | .declare b (some initial), h, ts, hts, hstand => by
    obtain ⟨keyword, rest, rfl, hk, hrest⟩ := List.map_eq_cons_iff.mp hts
    obtain ⟨us, rest, rfl, hus, hrest⟩ := List.map_eq_append_iff.mp hrest
    obtain ⟨equals, vs, rfl, he, hvs⟩ := List.map_eq_cons_iff.mp hrest
    have hb := reads_binding h.1 hus fun u hu => hstand u (by simp [hu])
    obtain ⟨value, -, -, hvalue, hread⟩ :=
      reads_exprPart (h.2 initial rfl) hvs fun u hu => hstand u (by simp [hu])
    exact hb.define (congrArg Prod.fst hk) (congrArg Prod.fst he) hvalue hread
  | .externalVariable b, h, ts, hts, hstand => by
    obtain ⟨keyword, rest, rfl, hk, hrest⟩ := List.map_eq_cons_iff.mp hts
    have hb := reads_binding h hrest fun u hu => hstand u (by simp [hu])
    exact hb.external (congrArg Prod.fst hk)
  | .externalFunction header, h, ts, hts, hstand => by
    obtain ⟨keyword, rest, rfl, hk, hrest⟩ := List.map_eq_cons_iff.mp hts
    exact reads_externalFunction h hrest (fun u hu => hstand u (by simp [hu]))
      (congrArg Prod.fst hk)
  | .whileLoop test body, h, ts, hts, hstand => by
    obtain ⟨keyword, rest, rfl, hk, hrest⟩ := List.map_eq_cons_iff.mp hts
    obtain ⟨us, vs, rfl, hus, hvs⟩ := List.map_eq_append_iff.mp hrest
    obtain ⟨first, inner, last, rfl, hf, hl, hinner⟩ := split_block hvs
    obtain ⟨n, -, -, hx, hread⟩ := reads_exprPart h.1 hus fun u hu => hstand u (by simp [hu])
    obtain ⟨ns, hbody, hplain⟩ :=
      reads_stmts body h.2 inner hinner fun u hu => hstand u (by simp [hu])
    exact (reads_block hbody hplain hf hl).while (congrArg Prod.fst hk) hx hread
  | .ifElse test yes otherwise, h, ts, hts, hstand => by
    obtain ⟨keyword, rest, rfl, hk, hrest⟩ := List.map_eq_cons_iff.mp hts
    obtain ⟨us, rest, rfl, hus, hrest⟩ := List.map_eq_append_iff.mp hrest
    obtain ⟨vs, ws, rfl, hvs, hws⟩ := List.map_eq_append_iff.mp hrest
    obtain ⟨first, inner, last, rfl, hf, hl, hinner⟩ := split_block hvs
    obtain ⟨n, -, -, hx, hread⟩ := reads_exprPart h.1 hus fun u hu => hstand u (by simp [hu])
    obtain ⟨ns, hbody, hplain⟩ :=
      reads_stmts yes h.2.1 inner hinner fun u hu => hstand u (by simp [hu])
    have ho := reads_otherwise otherwise h.2.2 ws hws fun u hu => hstand u (by simp [hu])
    obtain ⟨cs, read, hcompletes, hinside, hif, -⟩ :=
      reads_if hx hread (reads_block hbody hplain hf hl) ho
    have hframe : stmtFrame? keyword = some (ifFrom keyword) := by
      simp only [stmtFrame?, show keyword.kind = .keyword .ifKw from congrArg Prod.fst hk]
    exact readsStmt_of_form hframe hcompletes hinside hif
  | .returned value, h, ts, hts, hstand => by
    obtain ⟨keyword, rest, rfl, hk, hrest⟩ := List.map_eq_cons_iff.mp hts
    obtain ⟨n, -, -, hx, hread⟩ := reads_exprPart h hrest fun u hu => hstand u (by simp [hu])
    exact readsStmt_return (congrArg Prod.fst hk) hx hread
  | .typeAlias name type, h, ts, hts, hstand => by
    obtain ⟨keyword, rest, rfl, hk, hrest⟩ := List.map_eq_cons_iff.mp hts
    obtain ⟨t, rest, rfl, ht, hrest⟩ := List.map_eq_cons_iff.mp hrest
    obtain ⟨equals, us, rfl, he, hus⟩ := List.map_eq_cons_iff.mp hrest
    obtain ⟨htk, rfl⟩ := Prod.mk.inj ht
    have htype := reads_type type h.2 us hus fun u hu => hstand u (by simp [hu])
    exact htype.alias (congrArg Prod.fst hk) htk (hstand t (by simp)) (congrArg Prod.fst he)
  | .func header body, h, ts, hts, hstand => by
    obtain ⟨us, vs, rfl, hus, hvs⟩ := List.map_eq_append_iff.mp hts
    obtain ⟨first, inner, last, rfl, hf, hl, hinner⟩ := split_block hvs
    obtain ⟨ns, hbody, hplain⟩ :=
      reads_stmts body h.2 inner hinner fun u hu => hstand u (by simp [hu])
    exact (reads_block hbody hplain hf hl).func h.1 hus fun u hu => hstand u (by simp [hu])
  | .expr value, h, ts, hts, hstand => by
    obtain ⟨n, hn, hkind, hx, hread⟩ := reads_exprPart h hts hstand
    exact readsStmt_expr hn hkind hx hread

theorem reads_otherwise : ∀ o : Plain.Otherwise, o.Proper → ∀ ts : List Token,
    ts.map Token.word = o.words → (∀ t ∈ ts, t.StandsIn source) → ReadsOtherwise source ts o
  | .nothing, _, ts, hts, _ => by
    obtain rfl := List.map_eq_nil_iff.mp hts
    exact readsOtherwise_nothing
  | .block body, h, ts, hts, hstand => by
    obtain ⟨keyword, rest, rfl, hk, hrest⟩ := List.map_eq_cons_iff.mp hts
    obtain ⟨first, inner, last, rfl, hf, hl, hinner⟩ := split_block hrest
    obtain ⟨ns, hbody, hplain⟩ :=
      reads_stmts body h inner hinner fun u hu => hstand u (by simp [hu])
    exact (reads_block hbody hplain hf hl).otherwise (congrArg Prod.fst hk)
  | .further test yes otherwise, h, ts, hts, hstand => by
    obtain ⟨keyword, rest, rfl, hk, hrest⟩ := List.map_eq_cons_iff.mp hts
    obtain ⟨word, rest, rfl, hw, hrest⟩ := List.map_eq_cons_iff.mp hrest
    obtain ⟨us, rest, rfl, hus, hrest⟩ := List.map_eq_append_iff.mp hrest
    obtain ⟨vs, ws, rfl, hvs, hws⟩ := List.map_eq_append_iff.mp hrest
    obtain ⟨first, inner, last, rfl, hf, hl, hinner⟩ := split_block hvs
    obtain ⟨n, -, -, hx, hread⟩ := reads_exprPart h.1 hus fun u hu => hstand u (by simp [hu])
    obtain ⟨ns, hbody, hplain⟩ :=
      reads_stmts yes h.2.1 inner hinner fun u hu => hstand u (by simp [hu])
    have ho := reads_otherwise otherwise h.2.2 ws hws fun u hu => hstand u (by simp [hu])
    exact readsOtherwise_further (congrArg Prod.fst hk) (congrArg Prod.fst hw) hx hread
      (reads_block hbody hplain hf hl) ho

/-- **The tokens of a plain program are read as its statements.** -/
theorem reads_stmts : ∀ program : List Plain.Stmt, Plain.Stmt.AllProper program →
    ∀ ts : List Token, ts.map Token.word = Plain.Stmt.allWords program →
    (∀ t ∈ ts, t.StandsIn source) →
    ∃ ns, ReadsBody ts ns ∧ Stmt.plains? (stmtsOf source ns) = some program
  | [], _, ts, hts, _ => by
    obtain rfl := List.map_eq_nil_iff.mp hts
    exact ⟨[], .nil, rfl⟩
  | s :: rest, h, ts, hts, hstand => by
    obtain ⟨us, behind, rfl, hus, hbehind⟩ := List.map_eq_append_iff.mp hts
    obtain ⟨semicolon, vs, rfl, hsemicolon, hvs⟩ := List.map_eq_cons_iff.mp hbehind
    obtain ⟨n, hn, hplain, hread⟩ := reads_stmt s h.1 us hus fun u hu => hstand u (by simp [hu])
    obtain ⟨ns, hbody, hplains⟩ :=
      reads_stmts rest h.2 vs hvs fun u hu => hstand u (by simp [hu])
    refine ⟨_, .cons hread (congrArg Prod.fst hsemicolon) hbody, ?_⟩
    rw [stmtsOf, if_pos (by simpa using hn), stmtsOf, if_pos (by simp), stmtOf_inField,
      stmtOf_inField, stmtOf_wrapper _ ((stmtInside_inField _ none).trans (stmtInside_empty _))]
    simp [Stmt.plains?, hplain, hplains]

end

end
end Grammar
end BlockC

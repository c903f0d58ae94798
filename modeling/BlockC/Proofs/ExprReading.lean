import BlockC.Proofs.OperatorTree
import BlockC.Proofs.Reading
import BlockC.Proofs.TreeContract

/-! # Reading written expressions

The parser reads the tokens of a written operator tree as that tree (`reads`).  A written operand
stands in parentheses, so whatever level it is read at, the parser takes it as a whole; then it goes
on as if the operand had been there at once (`ReadsAs`).  An operation is put together from its
operands in the same way.
-/
namespace BlockC

/-- An expression has the operators and operands of a tree, up to parentheses. -/
def Surface.Expr.Shows (e : Surface.Expr) (x : OperatorTree) : Prop :=
  e.operatorTree?.map OperatorTree.bare = some x.bare

theorem Token.StandsIn.value_punct {source : ByteArray} {t : Token} {p : Punct}
    (ht : t.StandsIn source) (hk : t.kind = .punct p) : t.value = p.text := by
  have hlex := ht.lexeme
  rw [hk] at hlex
  exact hlex

namespace Surface.Expr

theorem shows_iff {e : Expr} {x : OperatorTree} :
    e.Shows x ↔ ∃ y, e.operatorTree? = some y ∧ y.bare = x.bare :=
  Option.map_eq_some_iff

/-- Parentheses do not show. -/
theorem Shows.group {e : Expr} {x : OperatorTree} (h : e.Shows x) (span : Span) :
    (Expr.parenthesized e span).Shows x := by
  obtain ⟨y, hy, hbare⟩ := shows_iff.mp h
  exact shows_iff.mpr ⟨.group y, by simp [operatorTree?, hy], by simpa [OperatorTree.bare]⟩

theorem Shows.binary {l r : Expr} {x y : OperatorTree} (hl : l.Shows x) (hr : r.Shows y)
    (op : BinaryOp) (span : Span) : (Expr.binary l op r span).Shows (.binary x op y) := by
  obtain ⟨a, ha, hx⟩ := shows_iff.mp hl
  obtain ⟨b, hb, hy⟩ := shows_iff.mp hr
  exact shows_iff.mpr ⟨.binary a op b, by simp [operatorTree?, ha, hb],
    by simp [OperatorTree.bare, hx, hy]⟩

theorem Shows.unary {e : Expr} {x : OperatorTree} (h : e.Shows x) (op : UnaryOp) (span : Span) :
    (Expr.unary op e span).Shows (.unary op x) := by
  obtain ⟨a, ha, hx⟩ := shows_iff.mp h
  exact shows_iff.mpr ⟨.unary op a, by simp [operatorTree?, ha], by simp [OperatorTree.bare, hx]⟩

theorem Shows.condition {e f g : Expr} {x y z : OperatorTree} (he : e.Shows x) (hf : f.Shows y)
    (hg : g.Shows z) (span : Span) : (Expr.condition e f g span).Shows (.condition x y z) := by
  obtain ⟨a, ha, hx⟩ := shows_iff.mp he
  obtain ⟨b, hb, hy⟩ := shows_iff.mp hf
  obtain ⟨c, hc, hz⟩ := shows_iff.mp hg
  exact shows_iff.mpr ⟨.condition a b c, by simp [operatorTree?, ha, hb, hc],
    by simp [OperatorTree.bare, hx, hy, hz]⟩

theorem Shows.assignment {l r : Expr} {x y : OperatorTree} (hl : l.Shows x) (hr : r.Shows y)
    (op : AssignOp) (span : Span) : (Expr.assignment l op r span).Shows (.assignment x op y) := by
  obtain ⟨a, ha, hx⟩ := shows_iff.mp hl
  obtain ⟨b, hb, hy⟩ := shows_iff.mp hr
  exact shows_iff.mpr ⟨.assignment a op b, by simp [operatorTree?, ha, hb],
    by simp [OperatorTree.bare, hx, hy]⟩

/-- Expressions have the operators and operands of trees, one by one. -/
def AllShow (es : List Expr) (xs : List OperatorTree) : Prop :=
  ∃ ys, operatorTrees? es = some ys ∧ OperatorTree.bareAll ys = OperatorTree.bareAll xs

theorem Shows.cons {e : Expr} {es : List Expr} {x : OperatorTree} {xs : List OperatorTree}
    (h : e.Shows x) (hs : AllShow es xs) : AllShow (e :: es) (x :: xs) := by
  obtain ⟨a, ha, hx⟩ := shows_iff.mp h
  obtain ⟨as, has, hxs⟩ := hs
  exact ⟨a :: as, by simp [operatorTrees?, ha, has], by simp [OperatorTree.bareAll, hx, hxs]⟩

theorem AllShow.call {es : List Expr} {xs : List OperatorTree} (h : AllShow es xs) (name : String)
    (place span : Span) : (Expr.call ⟨[name], place⟩ es span).Shows (.call name xs) := by
  obtain ⟨as, has, hxs⟩ := h
  exact shows_iff.mpr ⟨.call name as, by simp [operatorTree?, has, Ident.dotted, Text.joined],
    by simp [OperatorTree.bare, hxs]⟩

end Surface.Expr

namespace Grammar

open Surface

/-! ### Operands -/

/-- A token that goes on with no name and with no operand. -/
def Stops (t : Token) : Prop :=
  t.kind ≠ .punct .dot ∧ t.kind.behindOperand? = none

/-- A token that goes on with no name, and with an operand only to store a value in it. -/
def Loose (t : Token) : Prop :=
  t.kind ≠ .punct .dot ∧ ∀ level role, t.kind.behindOperand? = some (level, role) →
    level = .assignment

theorem Stops.loose {t : Token} (h : Stops t) : Loose t :=
  ⟨h.1, fun level role hop => by rw [h.2] at hop; cases hop⟩

theorem Stops.ends {t : Token} (h : Stops t) (level : Level) : Level.Ends level t :=
  fun l role hop => by rw [h.2] at hop; cases hop

theorem Loose.ends {t : Token} (h : Loose t) {level : Level} (hlevel : 1 ≤ level.rank) :
    Level.Ends level t := by
  intro l role hop
  rw [h.2 l role hop]
  exact hlevel

theorem stops_of_kind {t : Token} {p : Punct} (hk : t.kind = .punct p) (hp : p ≠ .dot)
    (hop : p.behindOperand? = none) : Stops t := by
  refine ⟨by simpa [hk] using hp, ?_⟩
  rw [hk]
  exact hop

/-- The tokens are read as an operand or an operation that is an expression with the property. -/
def ReadsAs (source : ByteArray) (above : Level) (next : Token → Prop) (ts : List Token)
    (P : Expr → Prop) : Prop :=
  ∃ (n : Node) (e : Expr), n.named = true ∧ exprInside source [n] = some e ∧ P e ∧
    ReadsOperand above next ts n

section
variable {source : ByteArray} {above : Level} {next next' : Token → Prop} {ts us : List Token}
  {P Q R S : Expr → Prop} {t : Token}

theorem ReadsAs.mono (h : ReadsAs source above next ts P) (hnext : ∀ t, next' t → next t) :
    ReadsAs source above next' ts P := by
  obtain ⟨n, e, hn, he, hP, hread⟩ := h
  exact ⟨n, e, hn, he, hP, hread.mono hnext⟩

/-- An expression that a frame asks for. -/
theorem ReadsAs.reads (h : ReadsAs source above next ts P) :
    ∃ n : Node, n.named = true ∧ n.kind = "expr" ∧ P (exprOf source n) ∧
      Reads (.expr above) (fun t => next t ∧ Level.Ends above t) ts n := by
  obtain ⟨n, e, -, he, hP, hread⟩ := h
  exact ⟨wrapped n, rfl, rfl, by rwa [exprOf_wrapped he], hread.reads⟩

theorem reads_number {value : UInt64} (ht : t.StandsIn source) (hk : t.kind = .number)
    (hv : t.value = Numeral.decimal value.toNat) (hS : ∀ span, S (.number value span)) :
    ReadsAs source above next [t] S := by
  have hread : numberOf source (Node.leaf t).head = .ok value := by
    rw [numberOf_eq_ok_iff (ht.text _ rfl), hv, Numeral.read?_decimal]
  have hnode : exprInside source [.leaf t] = _ := exprInside_number (by simp [hk, Kind.isNamed])
    (by simp [Node.leaf, Node.kind, hk, Kind.tag])
  rw [hread] at hnode
  exact ⟨_, _, by simp [hk, Kind.isNamed], hnode, hS _,
    readsOperand_literal (by simp [hk, Kind.isLiteral])⟩

theorem reads_string (ht : t.StandsIn source) (hk : t.kind = .string)
    (hS : ∀ span, S (.string t.value span)) : ReadsAs source above next [t] S := by
  have hnode : exprInside source [.leaf t] = _ := exprInside_string (by simp [hk, Kind.isNamed])
    (by simp [Node.leaf, Node.kind, hk, Kind.tag])
  rw [ht.text _ rfl] at hnode
  exact ⟨_, _, by simp [hk, Kind.isNamed], hnode, hS _,
    readsOperand_literal (by simp [hk, Kind.isLiteral])⟩

/-- The expression that a reserved word is, if it stands for a value. -/
def keywordExpr? (span : Span) : Keyword → Option Expr
  | .trueKw => some (.boolean true span)
  | .falseKw => some (.boolean false span)
  | .nullKw => some (.null span)
  | _ => none

theorem reads_keyword {k : Keyword} {e : Expr} (hk : t.kind = .keyword k)
    (he : keywordExpr? t.span k = some e) (hS : S e) : ReadsAs source above next [t] S := by
  obtain ⟨kind, value, span⟩ := t
  obtain rfl : kind = .keyword k := hk
  cases k <;> cases he <;> exact ⟨_, _, rfl, rfl, hS, readsOperand_literal rfl⟩

/-- The tokens of a name with the given segments. -/
def pathWords : List String → List Word
  | [] => []
  | [s] => [(.identifier, s)]
  | s :: rest => (.identifier, s) :: Punct.dot.word :: pathWords rest

/-- The tokens of a name are its first segment and further ones, and its node is read as it. -/
theorem split_path : ∀ {path : List String} {ts : List Token}, path ≠ [] →
    ts.map Token.word = pathWords path → (∀ t ∈ ts, t.StandsIn source) →
    ∃ t rest, ts = t :: rest ∧ t.kind = .identifier ∧ Segments rest ∧
      pathOf source (leafNodes ts) = .ok path
  | [], _, hne, _, _ => absurd rfl hne
  | [s], ts, _, hts, hstand => by
    obtain ⟨t, rfl, ht⟩ := List.map_eq_singleton_iff.mp hts
    obtain ⟨hk, rfl⟩ := Prod.mk.inj ht
    refine ⟨t, [], rfl, hk, .nil, ?_⟩
    have hnamed : ((Node.leaf t).inField none).named = true := by simp [hk, Kind.isNamed]
    rw [leafNodes, List.map_singleton, pathOf, if_pos hnamed, (hstand t (by simp)).leaf none]
    rfl
  | s :: s' :: path, ts, _, hts, hstand => by
    obtain ⟨t, rest, rfl, ht, hrest⟩ := List.map_eq_cons_iff.mp hts
    obtain ⟨dot, us, rfl, hd, hus⟩ := List.map_eq_cons_iff.mp hrest
    obtain ⟨hk, rfl⟩ := Prod.mk.inj ht
    have hdot : dot.kind = .punct .dot := congrArg Prod.fst hd
    obtain ⟨u, vs, rfl, hu, hsegments, hpath⟩ :=
      split_path (List.cons_ne_nil s' path) hus fun v hv => hstand v (by simp [hv])
    refine ⟨t, _, rfl, hk, .cons hdot hu hsegments, ?_⟩
    have hnamed : ((Node.leaf t).inField none).named = true := by simp [hk, Kind.isNamed]
    have hunnamed : ((Node.leaf dot).inField none).named = false := by simp [hdot, Kind.isNamed]
    rw [leafNodes, List.map_cons, List.map_cons, pathOf, if_pos hnamed, pathOf, hunnamed,
      (hstand t (by simp)).leaf none]
    change (do return _ :: (← pathOf source (leafNodes (u :: vs)))) = _
    rw [hpath]
    rfl

theorem reads_name (path : List String) (hne : path ≠ []) (hts : ts.map Token.word = pathWords path)
    (hstand : ∀ t ∈ ts, t.StandsIn source) (hS : ∀ span, S (.ident ⟨path, span⟩)) :
    ReadsAs source above NoDot ts S := by
  obtain ⟨t, rest, rfl, hk, hsegments, hpath⟩ := split_path hne hts hstand
  exact ⟨nameNode (t :: rest), _, rfl, exprInside_name hpath, hS _,
    readsOperand_name hk hsegments⟩

/-- An expression in parentheses, which can be followed by anything. -/
theorem reads_group {opening closing : Token} (h : ReadsAs source .lowest next ts P)
    (ho : opening.kind = .punct .openParen) (hc : closing.kind = .punct .closeParen)
    (hnext : next closing) (hS : ∀ e span, P e → S (.parenthesized e span)) :
    ReadsAs source above next' (opening :: (ts ++ [closing])) S := by
  obtain ⟨n, hn, -, hP, hread⟩ := h.reads
  have hnamed : (Node.leaf opening).named = false := by simp [ho, Kind.isNamed]
  have hnode : exprInside source [.assemble "parenthesized_expr" .origin
      [(Node.leaf opening).inField none, n.inField none, (Node.leaf closing).inField none]] = _ :=
    exprInside_parenthesized rfl hnamed hn
  have hends := (stops_of_kind hc (by decide) rfl).ends .lowest
  have hfills : Fills "parenthesized_expr" [.node (.expr .lowest) none, .mark .closeParen] next'
      (ts ++ [closing]) _ := .node hread ⟨hnext, hends⟩ (.token hc .nil)
  refine ⟨_, _, rfl, hnode, hS _ _ hP, hfills.opened.operand ?_⟩
  simp [exprFrom, ho, Kind.isLiteral, parenthesizedFrom]

/-- A sign before an operand. -/
theorem reads_unary {op : UnaryOp} (ht : t.StandsIn source) (hk : t.kind = .punct op.punct)
    (h : ReadsAs source .unary next ts P) (hS : ∀ e span, P e → S (.unary op e span)) :
    ReadsAs source above (fun u => next u ∧ Level.Ends .unary u) (t :: ts) S := by
  obtain ⟨n, -, -, hP, hread⟩ := h.reads
  have htext : UnaryOp.ofText? t.value = some op := by
    rw [ht.value_punct hk, op.text_punct]
    cases op <;> decide
  have hnode : exprInside source [.assemble "unary_expr" .origin
      [(Node.leaf t).inField (some "operator"), n.inField (some "argument")]] = _ :=
    exprInside_unary rfl (ht.leaf _) htext
  refine ⟨_, _, rfl, hnode, hS _ _ hP, hread.lastPart.opened.operand ?_⟩
  cases op <;> simp [exprFrom, hk, UnaryOp.punct, Kind.isLiteral, Kind.isSign, signedFrom]

/-! ### Operations -/

theorem reads_binary {op : BinaryOp} (ht : t.StandsIn source) (hk : t.kind = .punct op.punct)
    (habove : above.rank < op.level.rank) (hl : ReadsAs source above next ts P) (hnext : next t)
    (hr : ReadsAs source op.level next' us Q)
    (hS : ∀ l r span, P l → Q r → S (.binary l op r span)) :
    ReadsAs source above (fun u => next' u ∧ Level.Ends op.level u) (ts ++ t :: us) S := by
  obtain ⟨l, e, -, he, hP, hleft⟩ := hl
  obtain ⟨r, -, -, hQ, hright⟩ := hr.reads
  have htext : BinaryOp.ofText? t.value = some op := by
    rw [ht.value_punct hk, op.text_punct]
    cases op <;> decide
  have hnode : exprInside source [.assemble "binary_expr" .origin
      [(wrapped l).inField (some "left"), (Node.leaf t).inField (some "operator"),
        r.inField (some "right")]] = _ :=
    exprInside_binary rfl (ht.leaf _) htext
  rw [exprOf_wrapped he] at hnode
  exact ⟨_, _, rfl, hnode, hS _ _ _ hP hQ,
    hleft.binary hnext (by rw [hk]; exact op.behindOperand) habove hright⟩

/-- An assignment, whose value would go on with any operator. -/
theorem reads_assignment {op : AssignOp} (ht : t.StandsIn source) (hk : t.kind = .punct op.punct)
    (habove : above.rank < Level.assignment.rank) (hl : ReadsAs source above next ts P)
    (hnext : next t) (hr : ReadsAs source .lowest next' us Q)
    (hS : ∀ l r span, P l → Q r → S (.assignment l op r span)) :
    ReadsAs source above (fun u => next' u ∧ Level.Ends .lowest u) (ts ++ t :: us) S := by
  obtain ⟨l, e, -, he, hP, hleft⟩ := hl
  obtain ⟨r, -, -, hQ, hright⟩ := hr.reads
  have htext : AssignOp.ofText? t.value = some op := by
    rw [ht.value_punct hk, op.text_punct]
    cases op <;> decide
  have hnode : exprInside source [.assemble "assignment_expr" .origin
      [(wrapped l).inField (some "left"), (Node.leaf t).inField (some "operator"),
        r.inField (some "right")]] = _ :=
    exprInside_assignment rfl (ht.leaf _) htext
  rw [exprOf_wrapped he] at hnode
  exact ⟨_, _, rfl, hnode, hS _ _ _ hP hQ,
    hleft.assignment hnext (by rw [hk]; exact op.behindOperand) habove hright⟩

theorem reads_condition {question colon : Token} {vs : List Token} {next'' : Token → Prop}
    (hq : question.kind = .punct .question) (hc : colon.kind = .punct .colon)
    (habove : above.rank < Level.conditional.rank) (htest : ReadsAs source above next ts P)
    (hnext : next question) (hyes : ReadsAs source .lowest next' us Q) (hnext' : next' colon)
    (hno : ReadsAs source .assignment next'' vs R)
    (hS : ∀ e f g span, P e → Q f → R g → S (.condition e f g span)) :
    ReadsAs source above (fun u => next'' u ∧ Level.Ends .assignment u)
      (ts ++ question :: (us ++ colon :: vs)) S := by
  obtain ⟨test, e, -, he, hP, hread⟩ := htest
  obtain ⟨yes, -, -, hQ, hread'⟩ := hyes.reads
  obtain ⟨no, -, -, hR, hread''⟩ := hno.reads
  have hnode : exprInside source [.assemble "cond_expr" .origin
      [(wrapped test).inField (some "condition"), .leaf question,
        yes.inField (some "consequence"), (Node.leaf colon).inField none,
        no.inField (some "alternative")]] = _ :=
    exprInside_condition rfl rfl
  rw [exprOf_wrapped he] at hnode
  have hends := (stops_of_kind hc (by decide) rfl).ends .lowest
  exact ⟨_, _, rfl, hnode, hS _ _ _ _ hP hQ hR,
    hread.condition hnext hq habove hread' ⟨hnext', hends⟩ hc hread''⟩

/-! ### Calls -/

theorem exprsOf_append (ns ms : List Node) :
    exprsOf source (ns ++ ms) = exprsOf source ns ++ exprsOf source ms := by
  induction ns with
  | nil => rfl
  | cons n ns ih =>
    simp only [List.cons_append, exprsOf, ih]
    cases n.named <;> rfl

/-- Tokens that are read as expressions with commas between them. -/
inductive ReadsList (source : ByteArray) : List Token → (List Expr → Prop) → Prop
  | last {ts : List Token} {P : Expr → Prop} {Ps : List Expr → Prop}
      (h : ReadsAs source .lowest Stops ts P) (hPs : ∀ e, P e → Ps [e]) : ReadsList source ts Ps
  | more {ts us : List Token} {comma : Token} {P : Expr → Prop} {Ps Qs : List Expr → Prop}
      (h : ReadsAs source .lowest Stops ts P) (hc : comma.kind = .punct .comma)
      (hs : ReadsList source us Qs) (hPs : ∀ e es, P e → Qs es → Ps (e :: es)) :
      ReadsList source (ts ++ comma :: us) Ps

theorem ReadsList.items {Ps : List Expr → Prop} (h : ReadsList source ts Ps) :
    ∃ ns, Ps (exprsOf source ns) ∧
      ReadsItems (.expr .lowest) (fun t => Stops t ∧ Level.Ends .lowest t) ts ns := by
  induction h with
  | last h hPs =>
    obtain ⟨n, hn, -, hP, hread⟩ := h.reads
    refine ⟨_, ?_, .last hread⟩
    rw [exprsOf, if_pos (by simpa using hn), exprOf_inField, exprsOf]
    exact hPs _ hP
  | more h hc _ hPs ih =>
    obtain ⟨n, hn, -, hP, hread⟩ := h.reads
    obtain ⟨ns, hQs, hitems⟩ := ih
    refine ⟨_, ?_, .more hread hc hitems⟩
    rw [exprsOf, if_pos (by simpa using hn), exprOf_inField, exprsOf,
      if_neg (by simp [hc, Kind.isNamed])]
    exact hPs _ _ hP hQs

/-- What starts an expression does not close a list. -/
theorem expand_arguments {frames : List Frame} (h : exprFrom .lowest t = .ok frames) :
    Choice.arguments.expand t.kind = [.node (.expr .lowest) none, .choice .moreArguments] := by
  have hclose : t.kind ≠ .punct .closeParen := by
    intro hk
    simp [exprFrom, hk, Kind.isLiteral, Kind.isSign] at h
  cases hk : t.kind with
  | punct p =>
    rw [hk] at hclose
    cases p with
    | closeParen => exact absurd rfl hclose
    | _ => rfl
  | _ => rfl

theorem ReadsList.first {Ps : List Expr → Prop} (h : ReadsList source ts Ps) :
    ∃ t rest frames, ts = t :: rest ∧ exprFrom .lowest t = .ok frames := by
  cases h with
  | last h _ =>
    obtain ⟨-, -, -, -, -, t, rest, frames, hts, hfrom, -⟩ := h
    exact ⟨t, rest, frames, hts, hfrom⟩
  | more h _ _ _ =>
    obtain ⟨-, -, -, -, -, t, rest, frames, rfl, hfrom, -⟩ := h
    exact ⟨t, _, frames, rfl, hfrom⟩

/-- The arguments of a call, if there are any, and the parenthesis that closes them. -/
theorem fills_arguments {Ps : List Expr → Prop} {closing : Token}
    (hc : closing.kind = .punct .closeParen) (h : ts = [] ∧ Ps [] ∨ ReadsList source ts Ps) :
    ∃ cs, Ps (exprsOf source cs) ∧ Fills "argument_list" [.choice .arguments, .mark .closeParen]
      (fun _ => True) (ts ++ [closing]) cs := by
  have hunnamed : ((Node.leaf closing).inField none).named = false := by simp [hc, Kind.isNamed]
  rcases h with ⟨rfl, hnil⟩ | h
  · refine ⟨[(Node.leaf closing).inField none], ?_,
      .choice rfl (by rw [hc]) rfl (.token hc .nil)⟩
    rwa [exprsOf, hunnamed]
  · obtain ⟨ns, hPs, hitems⟩ := h.items
    obtain ⟨t, rest, frames, rfl, hfrom⟩ := h.first
    refine ⟨ns ++ [(Node.leaf closing).inField none], ?_,
      .choice rfl (expand_arguments hfrom) rfl
        (fills_items ⟨fun _ => rfl, rfl, rfl⟩ ?_ ?_ hitems hc)⟩
    · rw [exprsOf_append, exprsOf, hunnamed]
      simpa [exprsOf] using hPs
    · intro u hu
      have hstops := stops_of_kind hu (by decide) rfl
      exact ⟨hstops, hstops.ends _⟩
    · intro u hu
      have hstops := stops_of_kind hu (by decide) rfl
      exact ⟨hstops, hstops.ends _⟩

theorem reads_call (path : List String) {Ps : List Expr → Prop} {opening closing : Token}
    (hne : path ≠ []) (hts : ts.map Token.word = pathWords path)
    (hstand : ∀ t ∈ ts, t.StandsIn source) (ho : opening.kind = .punct .openParen)
    (hc : closing.kind = .punct .closeParen) (habove : above.rank < Level.call.rank)
    (hargs : us = [] ∧ Ps [] ∨ ReadsList source us Ps)
    (hS : ∀ es place span, Ps es → S (.call ⟨path, place⟩ es span)) :
    ReadsAs source above next (ts ++ opening :: (us ++ [closing])) S := by
  obtain ⟨t, rest, rfl, hk, hsegments, hpath⟩ := split_path hne hts hstand
  obtain ⟨cs, hPs, hfills⟩ := fills_arguments hc hargs
  have hunnamed : ((Node.leaf opening).inField none).named = false := by simp [ho, Kind.isNamed]
  have hnode : exprInside source [.assemble "call_expr" .origin
      [((nameNode (t :: rest)).inField none).inField (some "func_name"),
        (Node.assemble "argument_list" .origin
          ((Node.leaf opening).inField none :: cs)).inField (some "args")]] = _ :=
    exprInside_call rfl hpath
  refine ⟨_, _, rfl, hnode, hS _ _ _ ?_, (readsOperand_name hk hsegments).call ho
    (by simp [NoDot, ho]) habove rfl rfl (hfills.mono fun _ _ => trivial).opened⟩
  rw [Node.children_assemble, exprsOf, hunnamed]
  exact hPs

end

/-! ### Trees -/

section
open OperatorTree

variable {source : ByteArray}

/-- The tokens of a group are those inside it, between two parentheses. -/
theorem split_grouped {ts : List Token} {ws : List Word} (h : ts.map Token.word = grouped ws) :
    ∃ (opening : Token) (inner : List Token) (closing : Token),
      ts = opening :: (inner ++ [closing]) ∧
      opening.kind = .punct .openParen ∧ closing.kind = .punct .closeParen ∧
      inner.map Token.word = ws := by
  obtain ⟨opening, rest, rfl, hopen, hrest⟩ := List.map_eq_cons_iff.mp h
  obtain ⟨inner, last, rfl, hinner, hlast⟩ := List.map_eq_append_iff.mp hrest
  obtain ⟨closing, nothing, rfl, hclose, hnil⟩ := List.map_eq_cons_iff.mp hlast
  obtain rfl : nothing = [] := List.map_eq_nil_iff.mp hnil
  exact ⟨opening, inner, closing, rfl, congrArg Prod.fst hopen, congrArg Prod.fst hclose, hinner⟩

/-- What may follow a written tree. -/
def Follows (x : OperatorTree) : Token → Prop :=
  if x.isAssignment then Stops else Loose

theorem Stops.follows {t : Token} (h : Stops t) (x : OperatorTree) : Follows x t := by
  unfold Follows
  split
  · exact h
  · exact h.loose

/-- The tokens of the tree are read as the tree. -/
def ReadsBack (source : ByteArray) (x : OperatorTree) : Prop :=
  ∀ ts : List Token, ts.map Token.word = x.words → (∀ t ∈ ts, t.StandsIn source) →
    ReadsAs source .lowest (Follows x) ts (·.Shows x)

/-- A written operand is read whole at every level. -/
theorem ReadsBack.grouped {x : OperatorTree} (h : ReadsBack source x) {ts : List Token}
    (hts : ts.map Token.word = grouped x.words) (hstand : ∀ t ∈ ts, t.StandsIn source)
    (above : Level) : ReadsAs source above (fun _ => True) ts (·.Shows x) := by
  obtain ⟨opening, inner, closing, rfl, ho, hc, hinner⟩ := split_grouped hts
  have hread := h inner hinner fun t ht => hstand t (by simp [ht])
  exact reads_group hread ho hc ((stops_of_kind hc (by decide) rfl).follows x)
    fun e span he => he.group span

mutual

/-- **The tokens of a written tree are read as that tree.** -/
theorem reads : ∀ x : OperatorTree, x.Proper → ReadsBack source x
  | .name s, _, ts, hts, hstand => by
    have hread : ReadsAs source .lowest _ _ (·.Shows (.name s)) :=
      reads_name [s] (by simp) hts hstand fun _ => rfl
    exact hread.mono fun _ h => h.1
  | .number value, _, ts, hts, hstand => by
    obtain ⟨t, rfl, ht⟩ := List.map_eq_singleton_iff.mp hts
    obtain ⟨hk, hv⟩ := Prod.mk.inj ht
    exact reads_number (hstand t (by simp)) hk hv fun _ => rfl
  | .string s, _, ts, hts, hstand => by
    obtain ⟨t, rfl, ht⟩ := List.map_eq_singleton_iff.mp hts
    obtain ⟨hk, rfl⟩ := Prod.mk.inj ht
    exact reads_string (hstand t (by simp)) hk fun _ => rfl
  | .boolean true, _, ts, hts, _ | .boolean false, _, ts, hts, _ | .null, _, ts, hts, _ => by
    obtain ⟨t, rfl, ht⟩ := List.map_eq_singleton_iff.mp hts
    exact reads_keyword (congrArg Prod.fst ht) rfl rfl
  | .binary left op right, h, ts, hts, hstand => by
    obtain ⟨ls, rest, rfl, hls, hrest⟩ := List.map_eq_append_iff.mp hts
    obtain ⟨t, rs, rfl, ht, hrs⟩ := List.map_eq_cons_iff.mp hrest
    have hleft := (reads left h.1).grouped hls fun u hu => hstand u (by simp [hu])
    have hright := (reads right h.2).grouped hrs fun u hu => hstand u (by simp [hu])
    have hlevel : 1 ≤ op.level.rank := Nat.le_trans (by decide) op.level_between.1
    have hread : ReadsAs source .lowest _ _ (·.Shows (.binary left op right)) :=
      reads_binary (hstand t (by simp)) (congrArg Prod.fst ht) hlevel (hleft .lowest) trivial
        (hright op.level) fun _ _ span hl hr => hl.binary hr op span
    exact hread.mono fun u hu => ⟨trivial, Loose.ends hu hlevel⟩
  | .unary op argument, h, ts, hts, hstand => by
    obtain ⟨t, rest, rfl, ht, hrest⟩ := List.map_eq_cons_iff.mp hts
    have harg := (reads argument h).grouped hrest fun u hu => hstand u (by simp [hu])
    have hread : ReadsAs source .lowest _ _ (·.Shows (.unary op argument)) :=
      reads_unary (hstand t (by simp)) (congrArg Prod.fst ht) (harg .unary)
        fun _ span he => he.unary op span
    exact hread.mono fun u hu => ⟨trivial, Loose.ends hu (by decide)⟩
  | .condition test yes no, h, ts, hts, hstand => by
    obtain ⟨cs, rest, rfl, hcs, hrest⟩ := List.map_eq_append_iff.mp hts
    obtain ⟨question, rest, rfl, hq, hrest⟩ := List.map_eq_cons_iff.mp hrest
    obtain ⟨ys, rest, rfl, hys, hrest⟩ := List.map_eq_append_iff.mp hrest
    obtain ⟨colon, ns, rfl, hc, hns⟩ := List.map_eq_cons_iff.mp hrest
    have htest := (reads test h.1).grouped hcs fun u hu => hstand u (by simp [hu])
    have hyes := (reads yes h.2.1).grouped hys fun u hu => hstand u (by simp [hu])
    have hno := (reads no h.2.2).grouped hns fun u hu => hstand u (by simp [hu])
    have hread : ReadsAs source .lowest _ _ (·.Shows (.condition test yes no)) :=
      reads_condition (congrArg Prod.fst hq) (congrArg Prod.fst hc) (by decide) (htest .lowest)
        trivial (hyes .lowest) trivial (hno .assignment)
        fun _ _ _ span he hf hg => he.condition hf hg span
    exact hread.mono fun u hu => ⟨trivial, Loose.ends hu (by decide)⟩
  | .call callee args, h, ts, hts, hstand => by
    obtain ⟨t, rest, rfl, ht, hrest⟩ := List.map_eq_cons_iff.mp hts
    obtain ⟨opening, inner, closing, rfl, ho, hc, hinner⟩ := split_grouped hrest
    have hargs := readsList args h.2 inner hinner fun u hu => hstand u (by simp [hu])
    have hname : [t].map Token.word = pathWords [callee] := by
      rw [List.map_singleton, ht]
      rfl
    have hcallee : ∀ u ∈ [t], u.StandsIn source := by simpa using hstand t (by simp)
    have hread : ReadsAs source .lowest (Follows (.call callee args))
        ([t] ++ opening :: (inner ++ [closing])) (·.Shows (.call callee args)) :=
      reads_call [callee] (by simp) hname hcallee ho hc (by decide) hargs
        fun _ place span (hs : Expr.AllShow _ args) => hs.call callee place span
    exact hread
  | .assignment left op right, h, ts, hts, hstand => by
    obtain ⟨ls, rest, rfl, hls, hrest⟩ := List.map_eq_append_iff.mp hts
    obtain ⟨t, rs, rfl, ht, hrs⟩ := List.map_eq_cons_iff.mp hrest
    have hleft := reads left h.1 ls hls fun u hu => hstand u (by simp [hu])
    have hright := (reads right h.2.2).grouped hrs fun u hu => hstand u (by simp [hu])
    rw [Follows, h.2.1] at hleft
    have hk : t.kind = .punct op.punct := congrArg Prod.fst ht
    have hloose : Loose t := by
      refine ⟨?_, fun level role hop => ?_⟩
      · rw [hk]
        cases op <;> decide
      · rw [hk, op.behindOperand] at hop
        cases hop
        rfl
    have hread : ReadsAs source .lowest _ _ (·.Shows (.assignment left op right)) :=
      reads_assignment (hstand t (by simp)) hk (by decide) hleft hloose (hright .lowest)
        fun _ _ span hl hr => hl.assignment hr op span
    exact hread.mono fun u hu => ⟨trivial, Stops.ends hu _⟩
  | .group inner, h, ts, hts, hstand => by
    have hinner := (reads inner h).grouped hts hstand .lowest
    exact hinner.mono fun _ _ => trivial

/-- The arguments of a written call are read one by one. -/
theorem readsList : ∀ xs : List OperatorTree, AllProper xs → ∀ ts : List Token,
    ts.map Token.word = argWords xs → (∀ t ∈ ts, t.StandsIn source) →
    ts = [] ∧ Expr.AllShow [] xs ∨ ReadsList source ts (Expr.AllShow · xs)
  | [], _, ts, hts, _ => Or.inl ⟨List.map_eq_nil_iff.mp hts, [], rfl, rfl⟩
  | [x], h, ts, hts, hstand => by
    have hx := reads x h.1 ts hts hstand
    exact Or.inr (.last (hx.mono fun t ht => ht.follows x) fun e he => he.cons ⟨[], rfl, rfl⟩)
  | x :: y :: rest, h, ts, hts, hstand => by
    obtain ⟨us, behind, rfl, hus, hbehind⟩ := List.map_eq_append_iff.mp hts
    obtain ⟨comma, vs, rfl, hc, hvs⟩ := List.map_eq_cons_iff.mp hbehind
    have hx := reads x h.1 us hus fun u hu => hstand u (by simp [hu])
    rcases readsList (y :: rest) h.2 vs hvs fun u hu => hstand u (by simp [hu]) with
      ⟨-, ys, hys, hbare⟩ | hlist
    · cases hys
      cases hbare
    · exact Or.inr (.more (hx.mono fun t ht => ht.follows x) (congrArg Prod.fst hc) hlist
        fun e es he hs => he.cons hs)

end
end

end Grammar
end BlockC

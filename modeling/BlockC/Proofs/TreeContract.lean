import BlockC.Proofs.LocalInvariant
import BlockC.Proofs.StackInvariant
import BlockC.Proofs.TreeReading
import BlockC.Tree.Check

/-! # What the reader of trees can rely on

Every piece that the grammar builds from the tokens of a text can be read (`Readable`), so a tree in
order is read as a proper program (`stmtsOf_allProper_of_check`).  The contract asks of each piece
just what the pieces around it need to be read in turn.
-/
namespace BlockC
namespace Grammar

open Surface

variable (source : ByteArray)

/-- An operand: it can be read as an expression, and if it stores a value then no operator follows.
A name can be read as a path as well. -/
def ReadableOperand (t : Token) (n : Node) : Prop :=
  n.named = true ∧
    (∃ e, exprInside source [n] = some e ∧ e.Proper ∧
      (e.isAssignment = true → t.kind.behindOperand? = none)) ∧
    (n.kind = "ident_expr" → ∃ path, pathOf source n.children = .ok path ∧ IsPath path)

/-- What the reader of trees asks of each piece that the grammar builds. -/
def Readable : Piece → Token → Node → Prop
  | .expr above, t, n => n.named = true ∧ n.kind = "expr" ∧ (exprOf source n).Proper ∧
      ∀ level role, t.kind.behindOperand? = some (level, role) → level.rank ≤ above.rank
  | .operand _, t, n => ReadableOperand source t n
  | .arguments, _, n => Expr.AllProper (exprsOf source n.children)
  | .typeExpr, _, n => n.named = true ∧ Reading TypeExpr.Proper (typeOf source n)
  | .typeForm, _, n => n.named = true ∧
      ∃ r, typeInside source [n] = some r ∧ Reading TypeExpr.Proper r
  | .typeList, _, n => Reading TypeExpr.AllProper (typesOf source n.children)
  | .stmt, _, n => n.named = true ∧ (stmtOf source n).Proper
  | .form, _, n => n.named = true ∧ ∃ s, stmtInside source [n] = some s ∧ s.Proper
  | .ifElse, _, n => n.named = true ∧ n.kind = "if" ∧
      ∃ s, stmtInside source [n] = some s ∧ s.Proper
  | .codeblock, _, n => n.kind = "codeblock" ∧ Stmt.AllProper (stmtsOf source n.children)
  | .typedIdent, _, n => n.named = true ∧ n.kind = "typed_ident" ∧
      Reading Binding.Proper (bindingOf source n)
  | .params, _, n => ∀ c ∈ n.children, c.named = true → (paramOf source c).Proper
  | .variadic, _, n => n.named = true ∧ n.kind = "variadic"
  | .externalFunction, _, n => n.named = true ∧ n.kind = "external_function" ∧
      ∃ h, headerOf source n = .ok h ∧ h.Proper
  | .externalVariable, _, n => n.named = true ∧ n.kind = "external_variable" ∧
      Reading Binding.Proper (childIn n "typed_ident" >>= bindingOf source)
  | .file, _, n => n.kind = "source_file" ∧ Stmt.AllProper (stmtsOf source n.children)
  | .loose, _, _ => True

variable {source}

/-! ### Operands -/

theorem readable_wrapped {t : Token} {n : Node} {above : Level}
    (h : ReadableOperand source t n)
    (ht : ∀ level role, t.kind.behindOperand? = some (level, role) → level.rank ≤ above.rank) :
    Readable source (.expr above) t (wrapped n) := by
  obtain ⟨hnamed, ⟨e, he, hproper, -⟩, -⟩ := h
  refine ⟨rfl, rfl, ?_, ht⟩
  rw [wrapped, exprOf_wrapper _ ((exprInside_inField n none).trans he)]
  exact hproper

/-- An operand that is not a name. -/
theorem readableOperand_of_expr {t : Token} {n : Node} {e : Expr} (hn : n.named = true)
    (hk : n.kind ≠ "ident_expr") (he : exprInside source [n] = some e) (hproper : e.Proper)
    (ha : e.isAssignment = true → t.kind.behindOperand? = none) : ReadableOperand source t n :=
  ⟨hn, ⟨e, he, hproper, ha⟩, fun h => absurd h hk⟩

theorem kind_literal_ne_ident {t : Token} (h : t.kind.isLiteral = true) :
    (Node.leaf t).kind ≠ "ident_expr" := by
  obtain ⟨kind, value, span⟩ := t
  change kind.tag ≠ "ident_expr"
  match kind, h with
  | .number, _ | .string, _ => decide
  | .keyword .trueKw, _ | .keyword .falseKw, _ | .keyword .nullKw, _ => decide

theorem readable_literal {t : Token} (ht : t.StandsIn source) (hk : t.kind.isLiteral = true)
    (next : Token) : ReadableOperand source next (.leaf t) := by
  have hname := kind_literal_ne_ident hk
  have hlex := ht.lexeme
  have htext := ht.text (Node.leaf t).head rfl
  have hnumber := ht.number (Node.leaf t).head rfl
  obtain ⟨kind, value, span⟩ := t
  match kind, hk with
  | .number, _ =>
    refine readableOperand_of_expr rfl hname
      (exprInside_number rfl rfl) ?_ ?_
    · cases hread : numberOf source (Node.leaf ⟨.number, value, span⟩).head with
      | ok v => trivial
      | error d =>
        rw [hread] at hnumber
        exact hnumber
    · cases numberOf source (Node.leaf ⟨.number, value, span⟩).head <;>
        simp [orBad, Except.map, Expr.isAssignment]
  | .string, _ =>
    have hread : exprInside source [.leaf ⟨.string, value, span⟩] =
        some (orBad ((textOf source _).map (.string · span))) := exprInside_string rfl rfl
    rw [htext] at hread
    exact readableOperand_of_expr rfl hname hread hlex
      (by simp [orBad, Except.map, Expr.isAssignment])
  | .keyword .trueKw, _ =>
    exact readableOperand_of_expr (e := .boolean true span) rfl hname rfl trivial
      (by simp [Expr.isAssignment])
  | .keyword .falseKw, _ =>
    exact readableOperand_of_expr (e := .boolean false span) rfl hname rfl trivial
      (by simp [Expr.isAssignment])
  | .keyword .nullKw, _ =>
    exact readableOperand_of_expr (e := .null span) rfl hname rfl trivial
      (by simp [Expr.isAssignment])

/-! ### Names -/

/-- The segments behind the first one of a name. -/
theorem segments_names {next : Token} {kind kind' : String} {cs : List Node}
    (h : Fits (Readable source) (Token.StandsIn source) next kind [.choice .segments] kind' cs) :
    kind' = kind ∧ ∀ c ∈ cs, c.named = true →
      ∃ s, textOf source c.head = .ok s ∧ Lexical.IsName s := by
  refine fits_all [.choice .segments, .mark .dot, .token .identifier none] ?_ h (by simp)
  simp only [List.forall_mem_cons, List.not_mem_nil, false_imp_iff, implies_true, and_true]
  refine ⟨⟨by decide, by simp [Choice.options]⟩, ?_, ?_⟩
  · intro t _ hk hnamed
    simp [hk, Kind.isNamed] at hnamed
  · intro t ht hk _
    have hlex := ht.lexeme
    rw [hk] at hlex
    exact ⟨t.value, ht.leaf none, hlex⟩

/-- A name can be read as a path, an expression and a type. -/
theorem name_reading {t next : Token} {kind' : String} {cs : List Node}
    (ht : t.StandsIn source) (hk : t.kind = .identifier)
    (h : Fits (Readable source) (Token.StandsIn source) next "ident_expr" [.choice .segments]
      kind' cs) :
    kind' = "ident_expr" ∧
      ∃ path, pathOf source ((Node.leaf t).inField none :: cs) = .ok path ∧ IsPath path := by
  obtain ⟨hkind, hcs⟩ := segments_names h
  obtain ⟨path, hpath, hnames⟩ := pathOf_names hcs
  have hlex := ht.lexeme
  rw [hk] at hlex
  refine ⟨hkind, t.value :: path, ?_, List.cons_ne_nil _ _, ?_⟩
  · have hnamed : ((Node.leaf t).inField none).named = true := by simp [hk, Kind.isNamed]
    rw [pathOf, if_pos hnamed, ht.leaf none, hpath]
    rfl
  · intro s hs
    rcases List.mem_cons.mp hs with rfl | hs
    · exact hlex
    · exact hnames s hs

theorem ready_name {t : Token} {above : Level} (ht : t.StandsIn source)
    (hk : t.kind = .identifier) (t' : Token) :
    (nameFrom t).Ready (Readable source) (Token.StandsIn source) (.operand above) t' := by
  intro next kind' cs _ hfits
  obtain ⟨rfl, path, hpath, hproper⟩ := name_reading ht hk hfits
  exact ⟨rfl, ⟨_, exprInside_name hpath, hproper, by simp [Expr.isAssignment]⟩,
    fun _ => ⟨path, hpath, hproper⟩⟩

theorem ready_typeName {t : Token} (ht : t.StandsIn source) (hk : t.kind = .identifier)
    (t' : Token) : (nameFrom t).Ready (Readable source) (Token.StandsIn source) .typeForm t' := by
  intro next kind' cs _ hfits
  obtain ⟨rfl, path, hpath, hproper⟩ := name_reading ht hk hfits
  exact ⟨rfl, _, typeInside_name hpath, hproper⟩

/-! ### Operators -/

theorem rank_pos_of_behindOperand {k : Kind} {level : Level} {role : OperatorRole}
    (h : k.behindOperand? = some (level, role)) : 0 < level.rank := by
  match k with
  | .punct p => cases p <;> cases h <;> decide

theorem binaryOp_of_behindOperand {k : Kind} {level : Level} {s : String}
    (h : k.behindOperand? = some (level, .binary)) (hs : Lexical.IsLexeme k s) :
    ∃ op, BinaryOp.ofText? s = some op := by
  match k with
  | .punct p =>
    obtain rfl : s = p.text := hs
    apply Option.isSome_iff_exists.mp
    cases p <;> cases h <;> decide

theorem assignOp_of_behindOperand {k : Kind} {level : Level} {s : String}
    (h : k.behindOperand? = some (level, .assignment)) (hs : Lexical.IsLexeme k s) :
    ∃ op, AssignOp.ofText? s = some op := by
  match k with
  | .punct p =>
    obtain rfl : s = p.text := hs
    apply Option.isSome_iff_exists.mp
    cases p <;> cases h <;> decide

theorem openParen_of_behindOperand {k : Kind} {level : Level}
    (h : k.behindOperand? = some (level, .call)) : k = .punct .openParen := by
  match k with
  | .punct p => cases p <;> cases h; rfl

theorem unaryOp_of_isSign {k : Kind} {s : String} (h : k.isSign = true)
    (hs : Lexical.IsLexeme k s) : ∃ op, UnaryOp.ofText? s = some op := by
  match k with
  | .punct p =>
    obtain rfl : s = p.text := hs
    apply Option.isSome_iff_exists.mp
    cases p <;> cases h <;> decide

theorem ready_signed {t : Token} {above : Level} (ht : t.StandsIn source)
    (hk : t.kind.isSign = true) (t' : Token) :
    (signedFrom t).Ready (Readable source) (Token.StandsIn source) (.operand above) t' := by
  intro next kind' cs _ hfits
  obtain ⟨u, n, _, ⟨-, -, hn, -⟩, -, rfl, hnil⟩ := fits_node.mp hfits
  obtain ⟨rfl, rfl⟩ := fits_nil.mp hnil
  obtain ⟨op, hop⟩ := unaryOp_of_isSign hk ht.lexeme
  exact readableOperand_of_expr rfl (by simp) (exprInside_unary rfl (ht.leaf _) hop) hn
    (by simp [Expr.isAssignment])

theorem ready_parenthesized {t : Token} {above : Level} (hk : t.kind = .punct .openParen)
    (t' : Token) :
    (parenthesizedFrom t).Ready (Readable source) (Token.StandsIn source) (.operand above) t' := by
  intro next kind' cs _ hfits
  obtain ⟨u, n, _, ⟨hnamed, -, hn, -⟩, -, rfl, hrest⟩ := fits_node.mp hfits
  obtain ⟨v, _, -, -, rfl, hnil⟩ := fits_token.mp hrest
  obtain ⟨rfl, rfl⟩ := fits_nil.mp hnil
  have hopen : (Node.leaf t).named = false := by simp [hk, Kind.isNamed]
  exact readableOperand_of_expr rfl (by simp) (exprInside_parenthesized rfl hopen hnamed) hn
    (by simp [Expr.isAssignment])

/-- What is read under the wrapper of an operand. -/
theorem exprOf_wrapped {n : Node} {e : Expr} (h : exprInside source [n] = some e) :
    exprOf source (wrapped n) = e :=
  exprOf_wrapper _ ((exprInside_inField n none).trans h)

theorem onlyNamedChild?_wrapped {n : Node} (h : n.named = true) :
    (wrapped n).onlyNamedChild? = some (n.inField none) := by
  simp [wrapped, Node.onlyNamedChild?, Node.namedChildren, h]
  rfl

/-! ### Lists in brackets -/

theorem within_unnamed {P : Node → Prop} {parts : List Part} {k : Kind} {field : Option String}
    (hk : k.isNamed = false) :
    (Part.token k field).Within (Readable source) (Token.StandsIn source)
      (fun c => c.named = true → P c) parts := by
  intro t _ ht hnamed
  simp [ht, hk] at hnamed

/-- The named nodes of a list that starts with a piece of punctuation. -/
theorem fits_list (parts : List Part) {P : Node → Prop} {t next : Token} {kind kind' : String}
    {todo : List Part} {cs : List Node} (ht : t.kind.isNamed = false)
    (hparts : ∀ part ∈ parts, part.Within (Readable source) (Token.StandsIn source)
      (fun c => c.named = true → P c) parts)
    (h : Fits (Readable source) (Token.StandsIn source) next kind todo kind' cs)
    (htodo : todo ⊆ parts) :
    kind' = kind ∧ ∀ c ∈ (Node.leaf t).inField none :: cs, c.named = true → P c := by
  obtain ⟨hkind, hall⟩ := fits_all parts hparts h htodo
  refine ⟨hkind, fun c hc => ?_⟩
  rcases List.mem_cons.mp hc with rfl | hc
  · simp [ht]
  · exact hall c hc

theorem ready_arguments {t : Token} (hk : t.kind = .punct .openParen) (t' : Token) :
    (opened "argument_list" t none [.choice .arguments, .mark .closeParen]).Ready
      (Readable source) (Token.StandsIn source) .arguments t' := by
  intro next kind' cs _ hfits
  have hlist := fits_list (P := fun c => (exprOf source c).Proper)
    [.choice .arguments, .choice .moreArguments, .mark .comma, .mark .closeParen,
      .node (.expr .lowest) none] (by rw [hk]; rfl) ?_ hfits (by simp)
  · exact exprsOf_allProper hlist.2
  · simp only [List.forall_mem_cons, List.not_mem_nil, false_imp_iff, implies_true, and_true]
    refine ⟨⟨by decide, by simp [Choice.options]⟩, ⟨by decide, by simp [Choice.options]⟩,
      within_unnamed rfl, within_unnamed rfl, fun u n hn _ => ?_⟩
    rw [exprOf_inField]
    exact hn.2.2.1

theorem ready_typeList {t : Token} (hk : t.kind = .punct .openParen) (t' : Token) :
    (opened "type_list" t none [.choice .types, .mark .closeParen]).Ready
      (Readable source) (Token.StandsIn source) .typeList t' := by
  intro next kind' cs _ hfits
  have hlist := fits_list (P := fun c => Reading TypeExpr.Proper (typeOf source c))
    [.choice .types, .choice .moreTypes, .mark .comma, .mark .closeParen,
      .node .typeExpr none] (by rw [hk]; rfl) ?_ hfits (by simp)
  · exact typesOf_allProper hlist.2
  · simp only [List.forall_mem_cons, List.not_mem_nil, false_imp_iff, implies_true, and_true]
    refine ⟨⟨by decide, by simp [Choice.options]⟩, ⟨by decide, by simp [Choice.options]⟩,
      within_unnamed rfl, within_unnamed rfl, fun u n hn _ => ?_⟩
    rw [typeOf_inField]
    exact hn.2

theorem ready_params {t : Token} (hk : t.kind = .punct .openParen) (t' : Token) :
    (opened "params" t none [.choice .parameters, .mark .closeParen]).Ready
      (Readable source) (Token.StandsIn source) .params t' := by
  intro next kind' cs _ hfits
  have hlist := fits_list (P := fun c => (paramOf source c).Proper)
    [.choice .parameters, .choice .moreParameters, .choice .parameter, .mark .comma,
      .mark .closeParen, .node .variadic none, .node .typedIdent none] (by rw [hk]; rfl) ?_ hfits
    (by simp)
  · exact hlist.2
  · simp only [List.forall_mem_cons, List.not_mem_nil, false_imp_iff, implies_true, and_true]
    refine ⟨⟨by decide, by simp [Choice.options]⟩, ⟨by decide, by simp [Choice.options]⟩,
      ⟨by decide, by simp [Choice.options]⟩, within_unnamed rfl, within_unnamed rfl, ?_, ?_⟩
    · rintro u n ⟨-, hkind⟩ -
      simp [paramOf, hkind, Param.Over]
    · rintro u n ⟨-, hkind, hbinding⟩ -
      change (paramOf source n).Proper
      simp only [paramOf, hkind]
      cases hb : bindingOf source n with
      | ok b =>
        rw [hb] at hbinding
        exact hbinding
      | error d =>
        rw [hb] at hbinding
        exact hbinding

theorem ready_codeblock {t : Token} (hk : t.kind = .keyword .doKw) (t' : Token) :
    (opened "codeblock" t none [.choice .statements, .word .endKw]).Ready
      (Readable source) (Token.StandsIn source) .codeblock t' := by
  intro next kind' cs _ hfits
  have hlist := fits_list (P := fun c => (stmtOf source c).Proper)
    [.choice .statements, .word .endKw, .node .stmt none] (by rw [hk]; rfl) ?_ hfits (by simp)
  · exact ⟨hlist.1, stmtsOf_allProper hlist.2⟩
  · simp only [List.forall_mem_cons, List.not_mem_nil, false_imp_iff, implies_true, and_true]
    refine ⟨⟨by decide, by simp [Choice.options]⟩, within_unnamed rfl, fun u n hn _ => ?_⟩
    rw [stmtOf_inField]
    exact hn.2

/-- A source file is a list without brackets. -/
theorem ready_sourceFile (t' : Token) :
    sourceFile.Ready (Readable source) (Token.StandsIn source) .file t' := by
  intro next kind' cs _ hfits
  have hlist := fits_all (P := fun c => c.named = true → (stmtOf source c).Proper)
    [.choice .topLevel, .node .stmt none] ?_ hfits (by simp)
  · exact ⟨hlist.1, stmtsOf_allProper hlist.2⟩
  · simp only [List.forall_mem_cons, List.not_mem_nil, false_imp_iff, implies_true, and_true]
    refine ⟨⟨by decide, by simp [Choice.options]⟩, fun u n hn _ => ?_⟩
    rw [stmtOf_inField]
    exact hn.2

/-! ### Operations -/

theorem operation_reads {n : Node} {t : Token} {above level : Level} {role : OperatorRole}
    {frames : List Frame} (ht : t.StandsIn source) (hn : ReadableOperand source t n)
    (hop : t.kind.behindOperand? = some (level, role))
    (h : operation? (wrapped n) t level role = some frames) :
    Builds (Readable source) (Token.StandsIn source) (.operand above) frames := by
  obtain ⟨hnamed, ⟨e, he, hproper, hassign⟩, hname⟩ := hn
  have hleft := exprOf_wrapped he
  cases role with
  | binary =>
    cases h
    obtain ⟨op, hread⟩ := binaryOp_of_behindOperand hop ht.lexeme
    refine ⟨.operand above, fun t' next kind' cs _ hfits => ?_, rfl⟩
    obtain ⟨u, right, _, ⟨-, -, hright, -⟩, -, rfl, hnil⟩ := fits_node.mp hfits
    obtain ⟨rfl, rfl⟩ := fits_nil.mp hnil
    refine readableOperand_of_expr rfl (by simp) (exprInside_binary rfl (ht.leaf _) hread) ?_
      (by simp [Expr.isAssignment])
    rw [hleft]
    exact ⟨hproper, hright⟩
  | assignment =>
    cases h
    obtain ⟨op, hread⟩ := assignOp_of_behindOperand hop ht.lexeme
    refine ⟨.operand above, fun t' next kind' cs _ hfits => ?_, rfl⟩
    obtain ⟨u, right, _, ⟨-, -, hright, hloose⟩, hlast, rfl, hnil⟩ := fits_node.mp hfits
    obtain ⟨rfl, rfl⟩ := fits_nil.mp hnil
    obtain rfl := hlast rfl
    refine readableOperand_of_expr rfl (by simp) (exprInside_assignment rfl (ht.leaf _) hread) ?_ ?_
    · rw [hleft]
      refine ⟨hproper, ?_, hright⟩
      -- An operand that stores a value is followed by no operator, but this one is.
      cases ha : e.isAssignment with
      | false => rfl
      | true => simp [hassign ha] at hop
    · intro _
      -- The right side takes in every operator, so none is left behind it.
      cases hnext : next.kind.behindOperand? with
      | none => rfl
      | some found =>
        have hpos := rank_pos_of_behindOperand hnext
        have hle := hloose _ _ hnext
        exact absurd (Nat.lt_of_lt_of_le hpos hle) (Nat.lt_irrefl 0)
  | conditional =>
    cases h
    refine ⟨.operand above, fun t' next kind' cs _ hfits => ?_, rfl⟩
    obtain ⟨u, yes, _, ⟨-, -, hyes, -⟩, -, rfl, hcolon⟩ := fits_node.mp hfits
    obtain ⟨v, _, -, -, rfl, hlast⟩ := fits_token.mp hcolon
    obtain ⟨w, no, _, ⟨-, -, hno, -⟩, -, rfl, hnil⟩ := fits_node.mp hlast
    obtain ⟨rfl, rfl⟩ := fits_nil.mp hnil
    refine readableOperand_of_expr rfl (by simp) (exprInside_condition rfl rfl) ?_
      (by simp [Expr.isAssignment])
    rw [hleft]
    exact ⟨hproper, hyes, hno⟩
  | call =>
    rw [operation?, onlyNamedChild?_wrapped hnamed] at h
    simp only [Node.kind_inField, beq_iff_eq] at h
    split at h
    · rename_i hident
      cases h
      obtain ⟨path, hpath, hproper⟩ := hname hident
      refine ⟨.arguments, ready_arguments (openParen_of_behindOperand hop),
        .operand above, ?_, rfl⟩
      intro u args next kind' cs hargs _ hfits
      obtain ⟨rfl, rfl⟩ := fits_nil.mp hfits
      exact readableOperand_of_expr rfl (by simp) (exprInside_call rfl hpath) ⟨hproper, hargs⟩
        (by simp [Expr.isAssignment])
    · cases h

theorem expr_reads {t : Token} {above : Level} {frames : List Frame} (ht : t.StandsIn source)
    (h : exprFrom above t = .ok frames) :
    Builds (Readable source) (Token.StandsIn source) (.expr above) frames := by
  cases exprBegins_of_ok h with
  | literal hk => exact ⟨.expr above, fun t' => ⟨rfl, _, rfl, readable_literal ht hk t'⟩, rfl⟩
  | name hk => exact ⟨.operand above, ready_name ht hk, _, ⟨rfl, rfl⟩, rfl⟩
  | parenthesized hk => exact ⟨.operand above, ready_parenthesized hk, _, ⟨rfl, rfl⟩, rfl⟩
  | signed hk => exact ⟨.operand above, ready_signed ht hk, _, ⟨rfl, rfl⟩, rfl⟩

/-! ### Types -/

theorem ready_pointerType (t t' : Token) :
    (pointerTypeFrom t).Ready (Readable source) (Token.StandsIn source) .typeForm t' := by
  intro next kind' cs _ hfits
  obtain ⟨u, n, _, ⟨-, hn⟩, -, rfl, hnil⟩ := fits_node.mp hfits
  obtain ⟨rfl, rfl⟩ := fits_nil.mp hnil
  exact ⟨rfl, _, typeInside_pointer rfl, hn.bind fun pointee hp => hp⟩

theorem ready_arrayType (t t' : Token) :
    (arrayTypeFrom t).Ready (Readable source) (Token.StandsIn source) .typeForm t' := by
  intro next kind' cs _ hfits
  obtain ⟨k, hexpand⟩ := fits_choice.mp hfits
  by_cases hk : k = .punct .closeBracket
  · subst hk
    obtain ⟨u, _, -, -, rfl, hrest⟩ := fits_token.mp hexpand
    obtain ⟨v, n, _, ⟨-, hn⟩, -, rfl, hnil⟩ := fits_node.mp hrest
    obtain ⟨rfl, rfl⟩ := fits_nil.mp hnil
    exact ⟨rfl, _, typeInside_slice rfl, hn.bind fun element he => he⟩
  · have hsize : Choice.size.expand k =
        [.token .number (some "size"), .mark .closeBracket, .node .typeExpr (some "element")] := by
      simp [Choice.expand]
    have hkind : (Choice.size.rename? k).getD "array_type" = "array_type" := by
      simp [Choice.rename?, hk]
    rw [hsize, hkind] at hexpand
    obtain ⟨u, _, hu, -, rfl, hclose⟩ := fits_token.mp hexpand
    obtain ⟨v, _, -, -, rfl, hrest⟩ := fits_token.mp hclose
    obtain ⟨w, n, _, ⟨-, hn⟩, -, rfl, hnil⟩ := fits_node.mp hrest
    obtain ⟨rfl, rfl⟩ := fits_nil.mp hnil
    refine ⟨rfl, _, typeInside_array rfl, ?_⟩
    exact (hu.number _ rfl).bind fun count _ => hn.bind fun element he => he

theorem ready_funcType (t t' : Token) :
    (funcTypeFrom t).Ready (Readable source) (Token.StandsIn source) .typeForm t' := by
  intro next kind' cs _ hfits
  obtain ⟨u, params, _, hparams, -, rfl, harrow⟩ := fits_node.mp hfits
  obtain ⟨v, _, -, -, rfl, hrest⟩ := fits_token.mp harrow
  obtain ⟨w, returns, _, ⟨-, hreturns⟩, -, rfl, hnil⟩ := fits_node.mp hrest
  obtain ⟨rfl, rfl⟩ := fits_nil.mp hnil
  refine ⟨rfl, _, typeInside_func rfl, ?_⟩
  exact hparams.bind fun ps hps => hreturns.bind fun r hr => ⟨hps, hr⟩

theorem awaits_typeForm :
    (Frame.partly "type_expr" [] [.hole none]).Awaits (Readable source) (Token.StandsIn source)
      .typeForm .typeExpr := by
  rintro t n next kind' cs ⟨-, r, hread, hr⟩ - hfits
  obtain ⟨rfl, rfl⟩ := fits_nil.mp hfits
  refine ⟨rfl, ?_⟩
  have hof : typeOf source (.assemble "type_expr" .origin [n.inField none]) = r :=
    typeOf_wrapper _ ((typeInside_inField n none).trans hread)
  change Reading TypeExpr.Proper (typeOf source (.assemble "type_expr" .origin [n.inField none]))
  rw [hof]
  exact hr

theorem type_reads {t : Token} {frames : List Frame} (ht : t.StandsIn source)
    (h : typeFrom t = .ok frames) :
    Builds (Readable source) (Token.StandsIn source) .typeExpr frames := by
  unfold typeFrom at h
  split at h
  · rename_i hk
    cases h
    exact ⟨_, ready_typeName ht hk, _, awaits_typeForm, rfl⟩
  · cases h
    exact ⟨_, ready_pointerType t, _, awaits_typeForm, rfl⟩
  · cases h
    exact ⟨_, ready_arrayType t, _, awaits_typeForm, rfl⟩
  · cases h
    exact ⟨_, ready_funcType t, _, awaits_typeForm, rfl⟩
  · cases h

/-! ### Names with types -/

theorem ready_typedIdent {t : Token} (ht : t.StandsIn source) (hk : t.kind = .identifier)
    (t' : Token) :
    (typedIdentFrom t).Ready (Readable source) (Token.StandsIn source) .typedIdent t' := by
  intro next kind' cs _ hfits
  obtain ⟨u, _, -, -, rfl, hrest⟩ := fits_token.mp hfits
  obtain ⟨v, typing, _, ⟨-, htyping⟩, -, rfl, hnil⟩ := fits_node.mp hrest
  obtain ⟨rfl, rfl⟩ := fits_nil.mp hnil
  have hname := ht.lexeme
  rw [hk] at hname
  refine ⟨rfl, rfl, ?_⟩
  rw [bindingOf_eq rfl rfl (ht.leaf (some "ident")), typeOf_inField]
  exact htyping.bind fun type htype => ⟨hname, htype⟩

theorem awaits_externalVariable :
    (Frame.partly "external_variable" [] [.hole (some "typed_ident")]).Awaits (Readable source)
      (Token.StandsIn source) .typedIdent .externalVariable := by
  rintro t n next kind' cs ⟨-, -, hread⟩ - hfits
  obtain ⟨rfl, rfl⟩ := fits_nil.mp hfits
  exact ⟨rfl, rfl, hread⟩

/-- The first parts of a function, whatever stands behind them. -/
theorem header_reads {kind : String} {t next : Token} {kind' : String} {rest : List Part}
    {cs : List Node}
    (h : Fits (Readable source) (Token.StandsIn source) next kind
      (.token .identifier (some "func_name") :: .node .params (some "params") ::
        .mark .arrow :: .node .typeExpr (some "returns") :: rest) kind' cs) :
    ∃ (name params arrow returns : Node) (cs' : List Node), cs = name.inField (some "func_name") ::
        params.inField (some "params") :: arrow.inField none ::
        returns.inField (some "returns") :: cs' ∧
      Fits (Readable source) (Token.StandsIn source) next kind rest kind' cs' ∧
      ∃ h, headerOf source (.assemble kind' .origin ((Node.leaf t).inField none :: cs)) = .ok h ∧
        h.Proper := by
  obtain ⟨u, _, hu, hk, rfl, hparams⟩ := fits_token.mp h
  obtain ⟨v, params, _, hps, -, rfl, harrow⟩ := fits_node.mp hparams
  obtain ⟨w, _, -, -, rfl, hreturns⟩ := fits_token.mp harrow
  obtain ⟨x, returns, cs', ⟨-, hr⟩, -, rfl, hrest⟩ := fits_node.mp hreturns
  have hname := hu.lexeme
  rw [hk] at hname
  refine ⟨_, _, _, _, cs', rfl, hrest, _, headerOf_eq rfl rfl rfl (hu.leaf _), hname, ?_, ?_⟩
  · intro p hp
    obtain ⟨c, hc, rfl⟩ := List.mem_map.mp hp
    obtain ⟨hmem, hnamed⟩ := List.mem_filter.mp hc
    exact hps c hmem hnamed
  · rw [typeOf_inField]
    exact hr.bind fun type htype => htype

theorem ready_externalFunction (t t' : Token) :
    (externalFunctionFrom t).Ready (Readable source) (Token.StandsIn source)
      .externalFunction t' := by
  intro next kind' cs _ hfits
  obtain ⟨name, params, arrow, returns, cs', rfl, hnil, hheader⟩ := header_reads (t := t) hfits
  obtain ⟨rfl, rfl⟩ := fits_nil.mp hnil
  exact ⟨rfl, rfl, hheader⟩

/-! ### Statements -/

theorem ready_empty (t t' : Token) :
    (opened "empty" t none []).Ready (Readable source) (Token.StandsIn source) .form t' := by
  intro next kind' cs _ hfits
  obtain ⟨rfl, rfl⟩ := fits_nil.mp hfits
  exact ⟨rfl, _, stmtInside_empty _, trivial⟩

theorem ready_mod (t t' : Token) :
    (modFrom t).Ready (Readable source) (Token.StandsIn source) .form t' := by
  intro next kind' cs _ hfits
  obtain ⟨u, _, hu, hk, rfl, hnil⟩ := fits_token.mp hfits
  obtain ⟨rfl, rfl⟩ := fits_nil.mp hnil
  have hname := hu.lexeme
  rw [hk] at hname
  exact ⟨rfl, _, stmtInside_mod rfl (hu.leaf _), hname⟩

theorem ready_declare (t t' : Token) :
    (declareFrom t).Ready (Readable source) (Token.StandsIn source) .form t' := by
  intro next kind' cs _ hfits
  obtain ⟨u, n, cs', ⟨-, -, hn⟩, -, rfl, hinitial⟩ := fits_node.mp hfits
  obtain ⟨k, hexpand⟩ := fits_choice.mp hinitial
  by_cases hk : k = .punct .assign
  · subst hk
    obtain ⟨v, _, -, -, rfl, hrest⟩ := fits_token.mp hexpand
    obtain ⟨w, value, _, ⟨-, -, hvalue, -⟩, -, rfl, hnil⟩ := fits_node.mp hrest
    obtain ⟨rfl, rfl⟩ := fits_nil.mp hnil
    refine ⟨rfl, _, stmtInside_declare (some (exprOf source value)) rfl ?_, ?_⟩
    · simp
    · rw [bindingOf_inField]
      cases hb : bindingOf source n with
      | ok b =>
        rw [hb] at hn
        exact ⟨hn, by simpa [proper] using hvalue⟩
      | error d =>
        rw [hb] at hn
        exact ⟨hvalue, hn⟩
  · have hnone : Choice.initial.expand k = [] := by simp [Choice.expand]
    rw [hnone] at hexpand
    obtain ⟨rfl, rfl⟩ := fits_nil.mp hexpand
    refine ⟨rfl, _, stmtInside_declare none rfl ?_, ?_⟩
    · simp
    · rw [bindingOf_inField]
      cases hb : bindingOf source n with
      | ok b =>
        rw [hb] at hn
        exact ⟨hn, by simp⟩
      | error d =>
        rw [hb] at hn
        exact hn

theorem ready_external {t : Token} (hk : t.kind = .keyword .external) (t' : Token) :
    (externalFrom t).Ready (Readable source) (Token.StandsIn source) .form t' := by
  intro next kind' cs _ hfits
  obtain ⟨k, hexpand⟩ := fits_choice.mp hfits
  have hword : (Node.leaf t).named = false := by simp [hk, Kind.isNamed, Keyword.isLiteral]
  by_cases hfn : k = .keyword .fnKw
  · subst hfn
    obtain ⟨u, n, _, ⟨hnamed, hkind, h, hread, hproper⟩, -, rfl, hnil⟩ := fits_node.mp hexpand
    obtain ⟨rfl, rfl⟩ := fits_nil.mp hnil
    exact ⟨rfl, _, stmtInside_externalFunction rfl hword hnamed hkind hread, hproper⟩
  · have hvar : Choice.externalForm.expand k = [.node .externalVariable none] := by
      simp [Choice.expand]
    rw [hvar] at hexpand
    obtain ⟨u, n, _, ⟨hnamed, hkind, hread⟩, -, rfl, hnil⟩ := fits_node.mp hexpand
    obtain ⟨rfl, rfl⟩ := fits_nil.mp hnil
    refine ⟨rfl, _, stmtInside_externalVariable rfl hword hnamed hkind, ?_⟩
    cases hb : childIn n "typed_ident" >>= bindingOf source with
    | ok b =>
      rw [hb] at hread
      exact hread
    | error d =>
      rw [hb] at hread
      exact hread

theorem ready_func (t t' : Token) :
    (funcFrom t).Ready (Readable source) (Token.StandsIn source) .form t' := by
  intro next kind' cs _ hfits
  obtain ⟨name, params, arrow, returns, cs', rfl, hbody, h, hread, hproper⟩ :=
    header_reads (t := t) hfits
  obtain ⟨u, body, _, ⟨hkind, hstmts⟩, -, rfl, hnil⟩ := fits_node.mp hbody
  obtain ⟨rfl, rfl⟩ := fits_nil.mp hnil
  have hblock : blockIn source "body" ((Node.leaf t).inField none ::
      name.inField (some "func_name") :: params.inField (some "params") :: arrow.inField none ::
      returns.inField (some "returns") :: [body.inField (some "body")]) =
      some (.mk (stmtsOf source body.children) body.span) := by simp [hkind]
  exact ⟨rfl, _, stmtInside_func hread hblock, hproper, hstmts⟩

theorem ready_typeAlias (t t' : Token) :
    (typeAliasFrom t).Ready (Readable source) (Token.StandsIn source) .form t' := by
  intro next kind' cs _ hfits
  obtain ⟨u, _, hu, hk, rfl, hequals⟩ := fits_token.mp hfits
  obtain ⟨v, _, -, -, rfl, hrest⟩ := fits_token.mp hequals
  obtain ⟨w, typing, _, ⟨-, htyping⟩, -, rfl, hnil⟩ := fits_node.mp hrest
  obtain ⟨rfl, rfl⟩ := fits_nil.mp hnil
  have hname := hu.lexeme
  rw [hk] at hname
  refine ⟨rfl, _, stmtInside_typeAlias rfl (hu.leaf _), ?_⟩
  cases htype : typeOf source typing with
  | ok type =>
    rw [htype] at htyping
    exact ⟨hname, htyping⟩
  | error d =>
    rw [htype] at htyping
    exact htyping

theorem ready_while (t t' : Token) :
    (whileFrom t).Ready (Readable source) (Token.StandsIn source) .form t' := by
  intro next kind' cs _ hfits
  obtain ⟨u, test, _, ⟨-, -, htest, -⟩, -, rfl, hbody⟩ := fits_node.mp hfits
  obtain ⟨v, body, _, ⟨hkind, hstmts⟩, -, rfl, hnil⟩ := fits_node.mp hbody
  obtain ⟨rfl, rfl⟩ := fits_nil.mp hnil
  exact ⟨rfl, _, stmtInside_while rfl hkind, htest, hstmts⟩

/-- An `if` is a statement, and may stand behind an `else` as well. -/
theorem ready_if (t t' : Token) :
    (ifFrom t).Ready (Readable source) (Token.StandsIn source) .ifElse t' := by
  intro next kind' cs _ hfits
  obtain ⟨u, test, _, ⟨-, -, htest, -⟩, -, rfl, hyes⟩ := fits_node.mp hfits
  obtain ⟨v, yes, _, ⟨hkind, hstmts⟩, -, rfl, hrest⟩ := fits_node.mp hyes
  obtain ⟨k, hexpand⟩ := fits_choice.mp hrest
  by_cases helse : k = .keyword .elseKw
  · subst helse
    obtain ⟨w, _, -, -, rfl, hchoice⟩ := fits_token.mp hexpand
    obtain ⟨k, hexpand⟩ := fits_choice.mp hchoice
    by_cases hif : k = .keyword .ifKw
    · subst hif
      obtain ⟨x, no, _, ⟨hnamed, hno, s, hread, hproper⟩, -, rfl, hnil⟩ := fits_node.mp hexpand
      obtain ⟨rfl, rfl⟩ := fits_nil.mp hnil
      refine ⟨rfl, rfl, _, stmtInside_if rfl hkind, ?_⟩
      rw [alternativeIn_skip (by simp), alternativeIn_if hnamed hno hread]
      exact ⟨htest, hstmts, hproper, trivial⟩
    · have hblock : Choice.alternative.expand k = [.node .codeblock (some "alternative")] := by
        simp [Choice.expand]
      rw [hblock] at hexpand
      obtain ⟨x, no, _, ⟨hno, hother⟩, -, rfl, hnil⟩ := fits_node.mp hexpand
      obtain ⟨rfl, rfl⟩ := fits_nil.mp hnil
      refine ⟨rfl, rfl, _, stmtInside_if rfl hkind, ?_⟩
      rw [alternativeIn_skip (by simp), alternativeIn_block hno]
      exact ⟨htest, hstmts, hother⟩
  · have hnone : Choice.otherwise.expand k = [] := by simp [Choice.expand]
    rw [hnone] at hexpand
    obtain ⟨rfl, rfl⟩ := fits_nil.mp hexpand
    exact ⟨rfl, rfl, _, stmtInside_if rfl hkind, htest, hstmts⟩

theorem ready_return (t t' : Token) :
    (returnFrom t).Ready (Readable source) (Token.StandsIn source) .form t' := by
  intro next kind' cs _ hfits
  obtain ⟨u, value, _, ⟨-, -, hvalue, -⟩, -, rfl, hnil⟩ := fits_node.mp hfits
  obtain ⟨rfl, rfl⟩ := fits_nil.mp hnil
  exact ⟨rfl, _, stmtInside_return rfl, hvalue⟩

/-- Whatever can be read as a statement can be wrapped as one. -/
theorem awaits_stmt {p : Piece}
    (hp : ∀ t n, Readable source p t n → ∃ s, stmtInside source [n] = some s ∧ s.Proper) :
    (Frame.partly "stmt" [] [.hole none]).Awaits (Readable source) (Token.StandsIn source)
      p .stmt := by
  intro t n next kind' cs hn _ hfits
  obtain ⟨rfl, rfl⟩ := fits_nil.mp hfits
  obtain ⟨s, hread, hs⟩ := hp t n hn
  refine ⟨rfl, ?_⟩
  have hof : stmtOf source (.assemble "stmt" .origin [n.inField none]) = s :=
    stmtOf_wrapper _ ((stmtInside_inField n none).trans hread)
  change (stmtOf source (.assemble "stmt" .origin [n.inField none])).Proper
  rw [hof]
  exact hs

theorem form_reads {t : Token} {f : Frame} (h : stmtFrame? t = some f) :
    Builds (Readable source) (Token.StandsIn source) .stmt
      [f, .partly "stmt" [] [.hole none]] := by
  have hform : (Frame.partly "stmt" [] [.hole none]).Awaits (Readable source)
      (Token.StandsIn source) .form .stmt := awaits_stmt fun _ _ hn => hn.2
  unfold stmtFrame? at h
  split at h
  · cases h
    exact ⟨_, ready_empty t, _, hform, rfl⟩
  · cases h
    exact ⟨_, ready_mod t, _, hform, rfl⟩
  · cases h
    exact ⟨_, ready_declare t, _, hform, rfl⟩
  · rename_i hk
    cases h
    exact ⟨_, ready_external hk, _, hform, rfl⟩
  · cases h
    exact ⟨_, ready_func t, _, hform, rfl⟩
  · cases h
    exact ⟨_, ready_typeAlias t, _, hform, rfl⟩
  · cases h
    exact ⟨_, ready_while t, _, hform, rfl⟩
  · cases h
    exact ⟨_, ready_if t, _, awaits_stmt fun _ _ hn => hn.2.2, rfl⟩
  · cases h
    exact ⟨_, ready_return t, _, hform, rfl⟩
  · cases h

theorem stmt_reads {t : Token} {frames : List Frame} (ht : t.StandsIn source)
    (h : stmtFrom t = .ok frames) :
    Builds (Readable source) (Token.StandsIn source) .stmt frames := by
  cases stmtBegins_of_ok h with
  | form hf => exact form_reads hf
  | expr he =>
    refine builds_append (expr_reads ht he) ⟨_, awaits_stmt fun u n hn => ?_, rfl⟩
    obtain ⟨hnamed, hkind, hproper, -⟩ := hn
    exact ⟨_, stmtInside_expr hnamed hkind, hproper⟩

/-! ### The contract is closed -/

theorem builds_requiring {k : Kind} {t : Token} {p : Piece} {fs frames : List Frame}
    (h : requiring k t fs = .ok frames)
    (hfs : t.kind = k → Builds (Readable source) (Token.StandsIn source) p fs) :
    Builds (Readable source) (Token.StandsIn source) p frames := by
  obtain ⟨hk, rfl⟩ := requiring_eq_ok h
  exact hfs hk

/-- Nothing is asked of a form that only its first word chooses. -/
theorem builds_loose {f : Frame} (h : ∃ kind done todo, f = .partly kind done todo) :
    Builds (Readable source) (Token.StandsIn source) .loose [f] := by
  obtain ⟨kind, done, todo, rfl⟩ := h
  exact ⟨.loose, fun _ _ _ _ _ _ => trivial, rfl⟩

theorem closed_readable : Closed (Readable source) (Token.StandsIn source) where
  start := by
    intro p t frames ht h
    cases p with
    | expr above => exact expr_reads ht h
    | literal =>
      simp only [Production.begin] at h
      split at h
      · rename_i hk
        cases h
        exact ⟨.operand .call, readable_literal ht hk, rfl⟩
      · cases h
    | name => exact builds_requiring h fun hk => ⟨.operand .call, ready_name ht hk, rfl⟩
    | typeExpr => exact type_reads ht h
    | typeList => exact builds_requiring h fun hk => ⟨.typeList, ready_typeList hk, rfl⟩
    | stmt => exact stmt_reads ht h
    | typedIdent => exact builds_requiring h fun hk => ⟨.typedIdent, ready_typedIdent ht hk, rfl⟩
    | params => exact builds_requiring h fun hk => ⟨.params, ready_params hk, rfl⟩
    | variadic =>
      cases h
      refine ⟨.variadic, fun _ next kind' cs _ hfits => ?_, rfl⟩
      obtain ⟨rfl, rfl⟩ := fits_nil.mp hfits
      exact ⟨rfl, rfl⟩
    | codeblock => exact builds_requiring h fun hk => ⟨.codeblock, ready_codeblock hk, rfl⟩
    | externalFunction =>
      cases h
      exact ⟨.externalFunction, ready_externalFunction t, rfl⟩
    | externalVariable =>
      exact builds_requiring h fun hk =>
        ⟨.typedIdent, ready_typedIdent ht hk, .externalVariable, awaits_externalVariable, rfl⟩
    | ifElse =>
      cases h
      exact ⟨.ifElse, ready_if t, rfl⟩
    | signed | parenthesized | pointerType | arrayType | funcType | mod | declare | external
    | func | typeAlias | whileLoop | returned =>
      cases h
      exact builds_loose ⟨_, _, _, rfl⟩
  operation ht hn hop _ h := operation_reads ht hn hop h
  expr := readable_wrapped

/-! ### Trees in order -/

/-- Where nothing is wrong, nothing is wrong with any node or with what it holds. -/
theorem defect?_eq_none {pending : List Node} (h : Node.firstDefect? source pending = none) :
    ∀ n ∈ pending, Node.defect? source n.head = none ∧
      ∀ c ∈ n.children, Node.defect? source c.head = none := by
  fun_induction Node.firstDefect? source pending with
  | case1 => simp
  | case2 => cases h
  | case3 head children rest hnone ih =>
    have hall := ih h
    intro n hn
    rcases List.mem_cons.mp hn with rfl | hn
    · exact ⟨hnone, fun c hc => (hall c (List.mem_append_left _ hc)).1⟩
    · exact hall n (List.mem_append_right _ hn)

/-- The record of a fault is an error or a placeholder. -/
theorem defect?_record (all : List Token) (fault : Fault) :
    Node.defect? source (fault.record all).head ≠ none := by
  cases fault with
  | unexpected index => simp [Fault.record, Node.assemble, Node.defect?]
  | missing kind named pos => simp [Fault.record, Node.absent, Node.defect?]

/-- The tree of a text that is read to its end. -/
theorem parse_of_ok {source : String} {root : Node}
    (h : (drive (Stream.ofString source) [sourceFile] (tokens source)).result = .ok root) :
    parse source = root := by
  have h' : (drive (Stream.ofString source) [sourceFile] (Stream.ofString source).ahead).result =
    .ok root := h
  simp only [parse, h']

/-- The tree of a text that is not read to its end. -/
theorem parse_of_error {source : String} {fault : Fault}
    (h : (drive (Stream.ofString source) [sourceFile] (tokens source)).result = .error fault) :
    parse source = .assemble "source_file" .origin
      (Stack.outermost (drive (Stream.ofString source) [sourceFile] (tokens source)).pending ++
        [fault.record (tokens source)]) := by
  have h' : (drive (Stream.ofString source) [sourceFile] (Stream.ofString source).ahead).result =
    .error fault := h
  simp only [parse, h']
  rfl

/-- A tree in order is what the stack ended with: a fault would have left its record. -/
theorem result_of_check {source : String} (h : (parse source).check source.toUTF8 = .ok ()) :
    (drive (Stream.ofString source) [sourceFile] (tokens source)).result =
      .ok (parse source) := by
  cases hr : (drive (Stream.ofString source) [sourceFile] (tokens source)).result with
  | ok root => rw [parse_of_ok hr]
  | error fault =>
    exfalso
    have hrecord : fault.record (tokens source) ∈ (parse source).children := by
      rw [parse_of_error hr]
      simp
    unfold Node.check at h
    split at h
    · cases h
    · rename_i hnone
      have hchildren := (defect?_eq_none hnone (parse source) (by simp)).2
      exact defect?_record (tokens source) fault (hchildren _ hrecord)

theorem result_of_clean {source : String} (h : (parse source).Clean) :
    (drive (Stream.ofString source) [sourceFile] (tokens source)).result =
      .ok (parse source) :=
  result_of_check (Node.check_eq_ok_iff.mpr h)

/-- **A text in order is a proper program.** -/
theorem stmtsOf_allProper_of_check {source : String}
    (h : (parse source).check source.toUTF8 = .ok ()) :
    (parse source).kind = "source_file" ∧
      Stmt.AllProper (stmtsOf source.toUTF8 (parse source).children) := by
  have hstart : Builds (Readable source.toUTF8) (Token.StandsIn source.toUTF8) .file
      [sourceFile] := ⟨.file, ready_sourceFile, rfl⟩
  exact drive_meets closed_readable hstart (fun t ht => standsIn_of_mem_tokens ht)
    (result_of_check h)

end Grammar
end BlockC

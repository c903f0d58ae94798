import BlockC.Proofs.ProperProgram
import BlockC.Proofs.SourceText

/-! # Reading nodes of known children

How a node is read once its children are known, for the kinds of node that the grammar builds.  A
node is read the same way in every role, and lists of nodes are read node by node.
-/
namespace BlockC

namespace Node

@[simp] theorem kind_inField (n : Node) (field : Option String) :
    (n.inField field).kind = n.kind := rfl

@[simp] theorem field_inField (n : Node) (field : Option String) :
    (n.inField field).field = field := rfl

@[simp] theorem named_inField (n : Node) (field : Option String) :
    (n.inField field).named = n.named := rfl

@[simp] theorem children_inField (n : Node) (field : Option String) :
    (n.inField field).children = n.children := rfl

@[simp] theorem kind_assemble (kind : String) (pos : Position) (cs : List Node) :
    (assemble kind pos cs).kind = kind := rfl

@[simp] theorem named_assemble (kind : String) (pos : Position) (cs : List Node) :
    (assemble kind pos cs).named = true := rfl

@[simp] theorem children_assemble (kind : String) (pos : Position) (cs : List Node) :
    (assemble kind pos cs).children = cs := rfl

@[simp] theorem children_leaf (t : Token) : (leaf t).children = [] := rfl

@[simp] theorem named_leaf (t : Token) : (leaf t).named = t.kind.isNamed := rfl

@[simp] theorem child?_assemble (kind field : String) (pos : Position) (cs : List Node) :
    (assemble kind pos cs).child? field = cs.find? (·.field == some field) := rfl

end Node

namespace Surface

variable {source : ByteArray}

/-! ### The role of a node does not matter -/

@[simp] theorem exprInside_inField (n : Node) (field : Option String) :
    exprInside source [n.inField field] = exprInside source [n] := by
  obtain ⟨head, children⟩ := n
  simp only [Node.inField, exprInside, Node.head_mk, Node.children_mk]
  rfl

@[simp] theorem exprOf_inField (n : Node) (field : Option String) :
    exprOf source (n.inField field) = exprOf source n := by
  obtain ⟨head, children⟩ := n
  simp only [Node.inField, exprOf, Node.head_mk, Node.children_mk]
  rfl

@[simp] theorem typeInside_inField (n : Node) (field : Option String) :
    typeInside source [n.inField field] = typeInside source [n] := by
  obtain ⟨head, children⟩ := n
  simp only [Node.inField, typeInside, Node.head_mk, Node.children_mk]
  rfl

@[simp] theorem typeOf_inField (n : Node) (field : Option String) :
    typeOf source (n.inField field) = typeOf source n := by
  obtain ⟨head, children⟩ := n
  simp only [Node.inField, typeOf, Node.head_mk, Node.children_mk]
  rfl

@[simp] theorem stmtInside_inField (n : Node) (field : Option String) :
    stmtInside source [n.inField field] = stmtInside source [n] := by
  obtain ⟨head, children⟩ := n
  simp only [Node.inField, stmtInside, Node.head_mk, Node.children_mk]
  rfl

@[simp] theorem stmtOf_inField (n : Node) (field : Option String) :
    stmtOf source (n.inField field) = stmtOf source n := by
  obtain ⟨head, children⟩ := n
  simp only [Node.inField, stmtOf, Node.head_mk, Node.children_mk]
  rfl

@[simp] theorem bindingOf_inField (n : Node) (field : Option String) :
    bindingOf source (n.inField field) = bindingOf source n := rfl

@[simp] theorem headerOf_inField (n : Node) (field : Option String) :
    headerOf source (n.inField field) = headerOf source n := rfl

@[simp] theorem paramOf_inField (n : Node) (field : Option String) :
    paramOf source (n.inField field) = paramOf source n := rfl

/-! ### Lists of nodes -/

/-- The segments of a name are names if each named node is one. -/
theorem pathOf_names {cs : List Node}
    (h : ∀ c ∈ cs, c.named = true →
      ∃ s, textOf source c.head = .ok s ∧ Lexical.IsName s) :
    ∃ path, pathOf source cs = .ok path ∧ ∀ s ∈ path, Lexical.IsName s := by
  induction cs with
  | nil => exact ⟨[], rfl, by simp⟩
  | cons c cs ih =>
    obtain ⟨path, hpath, hnames⟩ := ih fun d hd => h d (by simp [hd])
    by_cases hc : c.named = true
    · obtain ⟨s, hs, hname⟩ := h c (by simp) hc
      refine ⟨s :: path, ?_, ?_⟩
      · rw [pathOf, if_pos hc, hs, hpath]
        rfl
      · intro s' hs'
        rcases List.mem_cons.mp hs' with rfl | hs'
        · exact hname
        · exact hnames s' hs'
    · exact ⟨path, by rw [pathOf, if_neg hc, hpath], hnames⟩

theorem exprsOf_allProper {cs : List Node}
    (h : ∀ c ∈ cs, c.named = true → (exprOf source c).Proper) :
    Expr.AllProper (exprsOf source cs) := by
  induction cs with
  | nil => simp [exprsOf, Expr.AllProper]
  | cons c cs ih =>
    have hcs := ih fun d hd => h d (by simp [hd])
    by_cases hc : c.named = true
    · rw [exprsOf, if_pos hc]
      exact ⟨h c (by simp) hc, hcs⟩
    · rw [exprsOf, if_neg hc]
      exact hcs

theorem stmtsOf_allProper {cs : List Node}
    (h : ∀ c ∈ cs, c.named = true → (stmtOf source c).Proper) :
    Stmt.AllProper (stmtsOf source cs) := by
  induction cs with
  | nil => simp [stmtsOf, Stmt.AllOver]
  | cons c cs ih =>
    have hcs := ih fun d hd => h d (by simp [hd])
    by_cases hc : c.named = true
    · rw [stmtsOf, if_pos hc]
      exact ⟨h c (by simp) hc, hcs⟩
    · rw [stmtsOf, if_neg hc]
      exact hcs

theorem typesOf_allProper {cs : List Node}
    (h : ∀ c ∈ cs, c.named = true → Reading TypeExpr.Proper (typeOf source c)) :
    Reading TypeExpr.AllProper (typesOf source cs) := by
  induction cs with
  | nil => simp [typesOf, Meets, TypeExpr.AllProper]
  | cons c cs ih =>
    have hcs := ih fun d hd => h d (by simp [hd])
    by_cases hc : c.named = true
    · rw [typesOf, if_pos hc]
      refine (h c (by simp) hc).bind fun type htype => ?_
      exact hcs.bind fun types htypes => ⟨htype, htypes⟩
    · rw [typesOf, if_neg hc]
      exact hcs

/-! ### Expressions -/

theorem exprOf_wrapper {n : Node} {e : Expr} (pos : Position)
    (h : exprInside source [n] = some e) : exprOf source (.assemble "expr" pos [n]) = e := by
  simp [Node.assemble, exprOf, h]

theorem exprInside_assemble (kind : String) (cs : List Node) :
    exprInside source [.assemble kind .origin cs] =
      some (exprForm source (Node.assemble kind .origin cs).head cs
        (fun field => exprIn source field cs) (fun _ => firstExpr source cs)
        (fun field => exprsIn source field cs)) := rfl

theorem exprInside_name {cs : List Node} {path : List String}
    (h : pathOf source cs = .ok path) :
    exprInside source [.assemble "ident_expr" .origin cs] =
      some (.ident ⟨path, Node.extent .origin cs⟩) := by
  change some (orBad (do return .ident ⟨← pathOf source cs, Node.extent .origin cs⟩)) = _
  rw [h]
  rfl

theorem exprInside_number {n : Node} (hn : n.named = true) (hk : n.kind = "number_literal") :
    exprInside source [n] = some (orBad ((numberOf source n.head).map (.number · n.span))) := by
  obtain ⟨⟨kind, role, named, missing, error, span⟩, children⟩ := n
  obtain rfl : kind = "number_literal" := hk
  obtain rfl : named = true := hn
  change some (orBad (do
    return .number (← numberOf source ⟨"number_literal", role, true, missing, error, span⟩) span)) =
      some (orBad ((numberOf source ⟨"number_literal", role, true, missing, error, span⟩).map _))
  cases numberOf source ⟨"number_literal", role, true, missing, error, span⟩ <;> rfl

theorem exprInside_string {n : Node} (hn : n.named = true) (hk : n.kind = "string_literal") :
    exprInside source [n] = some (orBad ((textOf source n.head).map (.string · n.span))) := by
  obtain ⟨⟨kind, role, named, missing, error, span⟩, children⟩ := n
  obtain rfl : kind = "string_literal" := hk
  obtain rfl : named = true := hn
  change some (orBad (do
    return .string (← textOf source ⟨"string_literal", role, true, missing, error, span⟩) span)) =
      some (orBad ((textOf source ⟨"string_literal", role, true, missing, error, span⟩).map _))
  cases textOf source ⟨"string_literal", role, true, missing, error, span⟩ <;> rfl

/-- An operator is read by its text. -/
theorem operatorOf_eq {α : Type} {n operator : Node} {text : String} {op : α}
    {ofText? : String → Option α} (what : String)
    (hc : n.child? "operator" = some operator) (ht : textOf source operator.head = .ok text)
    (hop : ofText? text = some op) : operatorOf source n ofText? what = .ok op := by
  simp [operatorOf, childIn, hc, ht, hop, bind, Except.bind, pure, Except.pure]

theorem exprInside_binary {cs : List Node} {left operator right : Node} {text : String}
    {op : BinaryOp}
    (hcs : cs = [left.inField (some "left"), operator.inField (some "operator"),
      right.inField (some "right")])
    (ht : textOf source (operator.inField (some "operator")).head = .ok text)
    (hop : BinaryOp.ofText? text = some op) :
    exprInside source [.assemble "binary_expr" .origin cs] =
      some (.binary (exprOf source left) op (exprOf source right) (Node.extent .origin cs)) := by
  have hc : (Node.assemble "binary_expr" .origin cs).child? "operator" =
      some (operator.inField (some "operator")) := by simp [hcs]
  have hread := operatorOf_eq "binary" hc ht hop
  have hleft : exprIn source "left" cs = some (exprOf source left) := by simp [hcs, exprIn]
  have hright : exprIn source "right" cs = some (exprOf source right) := by simp [hcs, exprIn]
  rw [exprInside_assemble]
  unfold Node.assemble at hread ⊢
  unfold exprForm
  simp only [Node.head_mk, hread, hleft, hright, Option.getD_some]

theorem exprInside_assignment {cs : List Node} {left operator right : Node} {text : String}
    {op : AssignOp}
    (hcs : cs = [left.inField (some "left"), operator.inField (some "operator"),
      right.inField (some "right")])
    (ht : textOf source (operator.inField (some "operator")).head = .ok text)
    (hop : AssignOp.ofText? text = some op) :
    exprInside source [.assemble "assignment_expr" .origin cs] =
      some (.assignment (exprOf source left) op (exprOf source right)
        (Node.extent .origin cs)) := by
  have hc : (Node.assemble "assignment_expr" .origin cs).child? "operator" =
      some (operator.inField (some "operator")) := by simp [hcs]
  have hread := operatorOf_eq "assignment" hc ht hop
  have hleft : exprIn source "left" cs = some (exprOf source left) := by simp [hcs, exprIn]
  have hright : exprIn source "right" cs = some (exprOf source right) := by simp [hcs, exprIn]
  rw [exprInside_assemble]
  unfold Node.assemble at hread ⊢
  unfold exprForm
  simp only [Node.head_mk, hread, hleft, hright, Option.getD_some]

theorem exprInside_unary {cs : List Node} {operator argument : Node} {text : String}
    {op : UnaryOp}
    (hcs : cs = [operator.inField (some "operator"), argument.inField (some "argument")])
    (ht : textOf source (operator.inField (some "operator")).head = .ok text)
    (hop : UnaryOp.ofText? text = some op) :
    exprInside source [.assemble "unary_expr" .origin cs] =
      some (.unary op (exprOf source argument) (Node.extent .origin cs)) := by
  have hc : (Node.assemble "unary_expr" .origin cs).child? "operator" =
      some (operator.inField (some "operator")) := by simp [hcs]
  have hread := operatorOf_eq "unary" hc ht hop
  have harg : exprIn source "argument" cs = some (exprOf source argument) := by
    simp [hcs, exprIn]
  change some (orBad (do
    return .unary (← operatorOf source (.assemble "unary_expr" .origin cs) UnaryOp.ofText? "unary")
      ((exprIn source "argument" cs).getD _) _)) = _
  rw [hread, harg]
  rfl

theorem exprInside_condition {cs : List Node}
    {condition question consequence colon alternative : Node}
    (hcs : cs = [condition.inField (some "condition"), question,
      consequence.inField (some "consequence"), colon.inField none,
      alternative.inField (some "alternative")]) (hq : question.field = none) :
    exprInside source [.assemble "cond_expr" .origin cs] =
      some (.condition (exprOf source condition) (exprOf source consequence)
        (exprOf source alternative) (Node.extent .origin cs)) := by
  have h₁ : exprIn source "condition" cs = some (exprOf source condition) := by
    simp [hcs, exprIn]
  have h₂ : exprIn source "consequence" cs = some (exprOf source consequence) := by
    simp [hcs, exprIn, hq]
  have h₃ : exprIn source "alternative" cs = some (exprOf source alternative) := by
    simp [hcs, exprIn, hq]
  change some (Expr.condition ((exprIn source "condition" cs).getD _)
    ((exprIn source "consequence" cs).getD _) ((exprIn source "alternative" cs).getD _) _) = _
  rw [h₁, h₂, h₃]
  rfl

theorem exprInside_call {cs : List Node} {callee args : Node} {path : List String}
    (hcs : cs = [callee.inField (some "func_name"), args.inField (some "args")])
    (h : pathOf source callee.children = .ok path) :
    exprInside source [.assemble "call_expr" .origin cs] =
      some (.call ⟨path, callee.span⟩ (exprsOf source args.children)
        (Node.extent .origin cs)) := by
  obtain ⟨head, children⟩ := args
  have hargs : exprsIn source "args" cs = some (exprsOf source children) := by
    simp [hcs, exprsIn, Node.inField]
  have hcallee (head : NodeHead) :
      childIn (.mk head cs) "func_name" = .ok (callee.inField (some "func_name")) := by
    simp [hcs, childIn, Node.child?]
  change some (orBad (do
    let callee ← childIn (Node.assemble "call_expr" .origin cs) "func_name"
    let path ← pathOf source callee.children
    return .call ⟨path, callee.span⟩ ((exprsIn source "args" cs).getD _) _)) = _
  rw [Node.assemble, hcallee, hargs]
  simp only [bind, Except.bind, Node.children_inField, h]
  rfl

theorem exprInside_parenthesized {cs : List Node} {opening inner closing : Node}
    (hcs : cs = [opening.inField none, inner.inField none, closing.inField none])
    (ho : opening.named = false) (hi : inner.named = true) :
    exprInside source [.assemble "parenthesized_expr" .origin cs] =
      some (.parenthesized (exprOf source inner) (Node.extent .origin cs)) := by
  have hfirst : firstExpr source cs = some (exprOf source inner) := by
    simp [hcs, firstExpr, ho, hi]
  rw [exprInside_assemble]
  unfold Node.assemble
  unfold exprForm
  simp only [Node.head_mk, hfirst]

/-! ### Types -/

theorem typeOf_wrapper {n : Node} {r : Except Diagnostic TypeExpr} (pos : Position)
    (h : typeInside source [n] = some r) : typeOf source (.assemble "type_expr" pos [n]) = r := by
  simp [Node.assemble, typeOf, h]

theorem typeInside_name {cs : List Node} {path : List String}
    (h : pathOf source cs = .ok path) :
    typeInside source [.assemble "ident_expr" .origin cs] =
      some (.ok (.name path (Node.extent .origin cs))) := by
  change some (do return TypeExpr.name (← pathOf source cs) (Node.extent .origin cs)) = _
  rw [h]
  rfl

theorem typeInside_pointer {cs : List Node} {star pointee : Node}
    (hcs : cs = [star.inField none, pointee.inField (some "pointee")]) :
    typeInside source [.assemble "pointer_type" .origin cs] =
      some (do return .pointer (← typeOf source pointee) (Node.extent .origin cs)) := by
  have h : typeIn source "pointee" cs = some (typeOf source pointee) := by simp [hcs, typeIn]
  change some (do
    return TypeExpr.pointer (← required _ "pointee" (typeIn source "pointee" cs)) _) = _
  rw [h]
  rfl

theorem typeInside_slice {cs : List Node} {opening closing element : Node}
    (hcs : cs = [opening.inField none, closing.inField none,
      element.inField (some "element")]) :
    typeInside source [.assemble "slice_type" .origin cs] =
      some (do return .slice (← typeOf source element) (Node.extent .origin cs)) := by
  have h : typeIn source "element" cs = some (typeOf source element) := by simp [hcs, typeIn]
  change some (do
    return TypeExpr.slice (← required _ "element" (typeIn source "element" cs)) _) = _
  rw [h]
  rfl

theorem typeInside_array {cs : List Node} {opening size closing element : Node}
    (hcs : cs = [opening.inField none, size.inField (some "size"), closing.inField none,
      element.inField (some "element")]) :
    typeInside source [.assemble "array_type" .origin cs] =
      some (do
        let count ← numberOf source (size.inField (some "size")).head
        return .array count (← typeOf source element) (Node.extent .origin cs)) := by
  have h : typeIn source "element" cs = some (typeOf source element) := by simp [hcs, typeIn]
  have hsize (head : NodeHead) :
      childIn (.mk head cs) "size" = .ok (size.inField (some "size")) := by
    simp [hcs, childIn, Node.child?]
  change some (do
    let size ← childIn (Node.assemble "array_type" .origin cs) "size"
    let count ← numberOf source size.head
    return TypeExpr.array count (← required _ "element" (typeIn source "element" cs)) _) = _
  rw [Node.assemble, hsize, h]
  rfl

theorem typeInside_func {cs : List Node} {keyword params arrow returns : Node}
    (hcs : cs = [keyword.inField none, params.inField (some "params"), arrow.inField none,
      returns.inField (some "returns")]) :
    typeInside source [.assemble "func_type" .origin cs] =
      some (do
        let params ← typesOf source params.children
        return .func params (← typeOf source returns) (Node.extent .origin cs)) := by
  obtain ⟨head, children⟩ := params
  have hparams : typesIn source "params" cs = some (typesOf source children) := by
    simp [hcs, typesIn, Node.inField]
  have hreturns : typeIn source "returns" cs = some (typeOf source returns) := by
    simp [hcs, typeIn]
  change some (do
    let params ← required _ "params" (typesIn source "params" cs)
    return TypeExpr.func params (← required _ "returns" (typeIn source "returns" cs)) _) = _
  rw [hparams, hreturns]
  rfl

/-! ### Names and functions -/

theorem nameIn_eq {n child : Node} {field text : String} (hc : n.child? field = some child)
    (ht : textOf source child.head = .ok text) :
    nameIn source n field = .ok ⟨text, child.start⟩ := by
  simp [nameIn, childIn, hc, ht, bind, Except.bind, pure, Except.pure]

theorem typeUseIn_eq {n child : Node} {field : String} (hc : n.child? field = some child) :
    typeUseIn source n field = (do return ⟨← typeOf source child, child.start⟩) := by
  simp [typeUseIn, childIn, hc, bind, Except.bind]

theorem bindingOf_eq {n ident typing : Node} {text : String}
    (hi : n.child? "ident" = some ident) (ht : n.child? "typing" = some typing)
    (htext : textOf source ident.head = .ok text) :
    bindingOf source n = (do
      let type ← typeOf source typing
      return ⟨⟨text, ident.start⟩, ⟨type, typing.start⟩, n.span⟩) := by
  rw [bindingOf, nameIn_eq hi htext, typeUseIn_eq ht]
  cases typeOf source typing <;> rfl

theorem headerOf_eq {n name params returns : Node} {text : String}
    (hn : n.child? "func_name" = some name) (hp : n.child? "params" = some params)
    (hr : n.child? "returns" = some returns) (ht : textOf source name.head = .ok text) :
    headerOf source n = .ok ⟨⟨text, name.start⟩, params.namedChildren.map (paramOf source),
      params.start, do return ⟨← typeOf source returns, returns.start⟩⟩ := by
  rw [headerOf, nameIn_eq hn ht, typeUseIn_eq hr]
  simp [childIn, hp, bind, Except.bind, pure, Except.pure]

/-! ### Statements -/

theorem stmtOf_wrapper {n : Node} {s : Stmt} (pos : Position)
    (h : stmtInside source [n] = some s) : stmtOf source (.assemble "stmt" pos [n]) = s := by
  simp [Node.assemble, stmtOf, h]

theorem stmtInside_named {n : Node} (h : n.named = true) :
    stmtInside source [n] = some (stmtForm source n (fun field => blockIn source field n.children)
      (fun _ => alternativeIn source n.children)) := by
  obtain ⟨head, children⟩ := n
  simp only [Node.named, Node.head_mk] at h
  simp [stmtInside, h]

@[simp] theorem blockIn_here {b : Node} {rest : List Node} (field : String)
    (hk : b.kind = "codeblock") :
    blockIn source field (b.inField (some field) :: rest) =
      some (.mk (stmtsOf source b.children) b.span) := by
  obtain ⟨head, children⟩ := b
  simp only [Node.kind, Node.head_mk] at hk
  simp [Node.inField, blockIn, hk, Node.span]

@[simp] theorem blockIn_skip {n : Node} {rest : List Node} {field : String}
    {role : Option String} (h : role ≠ some field) :
    blockIn source field (n.inField role :: rest) = blockIn source field rest := by
  simp [Node.inField, blockIn, h]

/-- A block as the alternative. -/
@[simp] theorem alternativeIn_block {b : Node} {rest : List Node} (hk : b.kind = "codeblock") :
    alternativeIn source (b.inField (some "alternative") :: rest) =
      some (.mk (stmtsOf source b.children) b.span) := by
  obtain ⟨head, children⟩ := b
  simp only [Node.kind, Node.head_mk] at hk
  simp [Node.inField, alternativeIn, hk, Node.span]

/-- A further `if` as the alternative. -/
theorem alternativeIn_if {n : Node} {rest : List Node} {s : Stmt} (hn : n.named = true)
    (hk : n.kind = "if") (h : stmtInside source [n] = some s) :
    alternativeIn source (n.inField (some "alternative") :: rest) = some (.mk [s] n.span) := by
  rw [stmtInside_named hn] at h
  obtain rfl := Option.some.inj h
  obtain ⟨⟨kind, role, named, missing, error, span⟩, children⟩ := n
  obtain rfl : kind = "if" := hk
  simp only [Node.inField, alternativeIn, Node.head_mk, Node.children_mk, beq_self_eq_true,
    if_true]
  rfl

@[simp] theorem alternativeIn_skip {n : Node} {rest : List Node} {role : Option String}
    (h : role ≠ some "alternative") :
    alternativeIn source (n.inField role :: rest) = alternativeIn source rest := by
  simp [Node.inField, alternativeIn, h]

theorem stmtInside_empty (cs : List Node) :
    stmtInside source [.assemble "empty" .origin cs] =
      some (.empty (Node.extent .origin cs)) := by
  rw [stmtInside_named rfl]
  rfl

theorem stmtInside_mod {cs : List Node} {keyword name : Node} {text : String}
    (hcs : cs = [keyword.inField none, name.inField (some "name")])
    (ht : textOf source (name.inField (some "name")).head = .ok text) :
    stmtInside source [.assemble "mod" .origin cs] =
      some (.mod ⟨text, name.start⟩ (Node.extent .origin cs)) := by
  have hc : (Node.assemble "mod" .origin cs).child? "name" =
      some (name.inField (some "name")) := by simp [hcs]
  rw [stmtInside_named rfl]
  change some (orBadStmt (do
    return .mod (← nameIn source (.assemble "mod" .origin cs) "name") _)) = _
  rw [nameIn_eq hc ht]
  rfl

theorem stmtInside_declare {cs : List Node} {n : Node} (initial : Option Expr)
    (hb : (Node.assemble "declare" .origin cs).child? "typed_ident" = some n)
    (hi : ((Node.assemble "declare" .origin cs).child? "initial").map (exprOf source) = initial) :
    stmtInside source [.assemble "declare" .origin cs] =
      some (match bindingOf source n with
        | .ok b => .declare b initial (Node.extent .origin cs)
        | .error d => initial.elim (.bad d) (.stuck · d)) := by
  rw [stmtInside_named rfl]
  change some (declareForm source (.assemble "declare" .origin cs)) = _
  simp only [declareForm, hi, childIn, hb, bind, Except.bind]
  cases bindingOf source n <;> cases initial <;> rfl

theorem stmtInside_externalVariable {cs : List Node} {keyword declaration : Node}
    (hcs : cs = [keyword.inField none, declaration.inField none])
    (hw : keyword.named = false) (hd : declaration.named = true)
    (hk : declaration.kind = "external_variable") :
    stmtInside source [.assemble "external" .origin cs] =
      some (orBadStmt do
        let b ← childIn declaration "typed_ident" >>= bindingOf source
        return .externalVariable b declaration.span.start (Node.extent .origin cs)) := by
  have hnamed : (Node.assemble "external" .origin cs).namedChildren =
      [declaration.inField none] := by simp [Node.namedChildren, hcs, hw, hd]
  have hkind : (declaration.inField none).kind = "external_variable" := hk
  rw [stmtInside_named rfl]
  change some (externalForm source (.assemble "external" .origin cs)) = _
  simp only [externalForm, hnamed, hkind]
  change some (orBadStmt (childIn declaration "typed_ident" >>= _)) = _
  cases childIn declaration "typed_ident" <;> rfl

theorem stmtInside_externalFunction {cs : List Node} {keyword declaration : Node} {h : Header}
    (hcs : cs = [keyword.inField none, declaration.inField none])
    (hw : keyword.named = false) (hd : declaration.named = true)
    (hk : declaration.kind = "external_function") (hh : headerOf source declaration = .ok h) :
    stmtInside source [.assemble "external" .origin cs] =
      some (.externalFunction h declaration.span (Node.extent .origin cs)) := by
  have hnamed : (Node.assemble "external" .origin cs).namedChildren =
      [declaration.inField none] := by simp [Node.namedChildren, hcs, hw, hd]
  have hkind : (declaration.inField none).kind = "external_function" := hk
  rw [stmtInside_named rfl]
  change some (externalForm source (.assemble "external" .origin cs)) = _
  simp only [externalForm, hnamed, hkind, headerOf_inField, hh]
  rfl

theorem stmtInside_while {cs : List Node} {keyword test body : Node}
    (hcs : cs = [keyword.inField none, test.inField (some "condition"),
      body.inField (some "body")]) (hk : body.kind = "codeblock") :
    stmtInside source [.assemble "while" .origin cs] =
      some (.whileLoop (exprOf source test) (.mk (stmtsOf source body.children) body.span)
        (Node.extent .origin cs)) := by
  have hc : (Node.assemble "while" .origin cs).child? "condition" =
      some (test.inField (some "condition")) := by simp [hcs]
  have hbody : blockIn source "body" cs = some (.mk (stmtsOf source body.children) body.span) := by
    simp [hcs, hk]
  rw [stmtInside_named rfl]
  change some (withBlock _ "body" (exprField source (.assemble "while" .origin cs) "condition")
    (blockIn source "body" cs) fun body => .whileLoop
      (exprField source (.assemble "while" .origin cs) "condition") body _) = _
  simp only [hbody, withBlock, exprField, childIn, hc, exprOf_inField]
  rfl

/-- An `if` by what stands behind its first block. -/
theorem stmtInside_if {cs : List Node} {keyword test yes : Node} {rest : List Node}
    (hcs : cs = keyword.inField none :: test.inField (some "condition") ::
      yes.inField (some "consequence") :: rest) (hk : yes.kind = "codeblock") :
    stmtInside source [.assemble "if" .origin cs] =
      some (match alternativeIn source rest with
        | some no => .ifElse (exprOf source test)
            (.mk (stmtsOf source yes.children) yes.span) no (Node.extent .origin cs)
        | none => .ifThen (exprOf source test)
            (.mk (stmtsOf source yes.children) yes.span) (Node.extent .origin cs)) := by
  have hc : (Node.assemble "if" .origin cs).child? "condition" =
      some (test.inField (some "condition")) := by simp [hcs]
  have hyes : blockIn source "consequence" cs =
      some (.mk (stmtsOf source yes.children) yes.span) := by simp [hcs, hk]
  have hno : alternativeIn source cs = alternativeIn source rest := by simp [hcs]
  rw [stmtInside_named rfl]
  change some (ifForm source (.assemble "if" .origin cs) (fun field => blockIn source field cs)
    (fun _ => alternativeIn source cs)) = _
  simp only [ifForm, hyes, hno, withBlock, exprField, childIn, hc, exprOf_inField]
  rfl

theorem stmtInside_return {cs : List Node} {keyword value : Node}
    (hcs : cs = [keyword.inField none, value.inField (some "returns")]) :
    stmtInside source [.assemble "return" .origin cs] =
      some (.returned (exprOf source value) (Node.extent .origin cs)) := by
  have hc : (Node.assemble "return" .origin cs).child? "returns" =
      some (value.inField (some "returns")) := by simp [hcs]
  rw [stmtInside_named rfl]
  change some (Stmt.returned (exprField source (.assemble "return" .origin cs) "returns") _) = _
  simp only [exprField, childIn, hc, exprOf_inField]
  rfl

theorem stmtInside_typeAlias {cs : List Node} {keyword name equals typing : Node}
    {text : String}
    (hcs : cs = [keyword.inField none, name.inField (some "ident"), equals.inField none,
      typing.inField (some "typing")])
    (ht : textOf source (name.inField (some "ident")).head = .ok text) :
    stmtInside source [.assemble "type_alias" .origin cs] =
      some (orBadStmt do
        let type ← typeOf source typing
        return .typeAlias ⟨text, name.start⟩ ⟨type, typing.start⟩ (Node.extent .origin cs)) := by
  have hn : (Node.assemble "type_alias" .origin cs).child? "ident" =
      some (name.inField (some "ident")) := by simp [hcs]
  have hu : (Node.assemble "type_alias" .origin cs).child? "typing" =
      some (typing.inField (some "typing")) := by simp [hcs]
  rw [stmtInside_named rfl]
  change some (orBadStmt (do
    let name ← nameIn source (.assemble "type_alias" .origin cs) "ident"
    return .typeAlias name (← typeUseIn source (.assemble "type_alias" .origin cs) "typing") _)) = _
  rw [nameIn_eq hn ht, typeUseIn_eq hu, typeOf_inField]
  cases typeOf source typing <;> rfl

theorem stmtInside_func {cs : List Node} {body : Node} {h : Header}
    (hh : headerOf source (.assemble "func" .origin cs) = .ok h)
    (hb : blockIn source "body" cs = some (.mk (stmtsOf source body.children) body.span)) :
    stmtInside source [.assemble "func" .origin cs] =
      some (.func h (.mk (stmtsOf source body.children) body.span)
        (Node.extent .origin cs)) := by
  rw [stmtInside_named rfl]
  change some (orBadStmt (do
    let header ← headerOf source (.assemble "func" .origin cs)
    return .func header ((blockIn source "body" cs).getD _) _)) = _
  rw [hh, hb]
  rfl

theorem stmtInside_expr {n : Node} (hn : n.named = true) (hk : n.kind = "expr") :
    stmtInside source [n] = some (.expr (exprOf source n) n.span) := by
  obtain ⟨⟨kind, role, named, missing, error, span⟩, children⟩ := n
  obtain rfl : kind = "expr" := hk
  obtain rfl : named = true := hn
  rfl

end Surface

/-! ### Leaves -/

theorem Token.StandsIn.leaf {source : ByteArray} {t : Token} (h : t.StandsIn source)
    (field : Option String) :
    Surface.textOf source ((Node.leaf t).inField field).head = .ok t.value :=
  h.text _ rfl

/-- The text of a number, if it can be read, is that of a number literal. -/
theorem Token.StandsIn.number {source : ByteArray} {t : Token} (h : t.StandsIn source)
    (head : NodeHead) (hspan : head.span = t.span) :
    Reading (fun _ => True) (Surface.numberOf source head) := by
  unfold Surface.numberOf
  rw [h.text head hspan]
  simp only [bind, Except.bind]
  split
  · trivial
  · exact ⟨_, rfl⟩

end BlockC

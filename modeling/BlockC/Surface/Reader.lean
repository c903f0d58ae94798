import BlockC.Surface.Program
import BlockC.Text.Utf8
import BlockC.Tree.Node

/-! # Reading trees

From a concrete tree, which may come from anywhere, to a surface program.  Names, numbers and
operators are read from the source that the tree lies over.  Each kind of node has a form: how it is
read, given how the nodes below it are read.
-/
namespace BlockC
namespace Surface

/-- The diagnostic for a node that is not as it should be. -/
def malformed (head : NodeHead) (message : String) : Diagnostic :=
  ⟨.malformedTree (message ++ " (in `" ++ head.kind ++ "`)"), head.span.start⟩

/-- The diagnostic for a node without a child in some role. -/
def missingField (head : NodeHead) (field : String) : Diagnostic :=
  malformed head ("missing field `" ++ field ++ "`")

/-- The diagnostic for a node in the place of a node of another kind. -/
def unwanted (head : NodeHead) (wanted : String) : Diagnostic :=
  malformed head ("expected `" ++ wanted ++ "`")

/-- The diagnostic for a node that should hold another one. -/
def emptyWrapper (head : NodeHead) : Diagnostic :=
  malformed head "empty wrapper node"

/-- The source text of a node. -/
def textOf (source : ByteArray) (head : NodeHead) : Except Diagnostic String :=
  match Utf8.slice? source head.span.start.offset head.span.stop.offset with
  | none => .error (malformed head "node lies outside the source buffer")
  | some bytes =>
    match String.fromUTF8? bytes with
    | none => .error (malformed head "node text is not UTF-8")
    | some s => .ok s

/-- The child of a node in the given role. -/
def childIn (n : Node) (field : String) : Except Diagnostic Node :=
  match n.child? field with
  | some child => .ok child
  | none => .error (missingField n.head field)

/-- The texts of the named nodes. -/
def pathOf (source : ByteArray) : List Node → Except Diagnostic (List String)
  | [] => .ok []
  | n :: rest =>
    if n.named then do
      let segment ← textOf source n.head
      let path ← pathOf source rest
      return segment :: path
    else pathOf source rest

/-- A number literal that is a whole node. -/
def numberOf (source : ByteArray) (head : NodeHead) : Except Diagnostic UInt64 := do
  let literal ← textOf source head
  match Numeral.read? literal with
  | some value => return value
  | none => throw ⟨.numberParse literal, head.span.start⟩

/-- What was read in a role, or the diagnostic for its absence. -/
def required {α : Type} (head : NodeHead) (field : String) (found : Option (Except Diagnostic α)) :
    Except Diagnostic α :=
  found.getD (.error (missingField head field))

/-- How a type is read, given the types and the lists of types in each role below it. -/
def typeForm (source : ByteArray) (head : NodeHead) (children : List Node)
    (one : String → Option (Except Diagnostic TypeExpr))
    (list : String → Option (Except Diagnostic (List TypeExpr))) : Except Diagnostic TypeExpr :=
  match head.kind with
  | "ident_expr" => do return .name (← pathOf source children) head.span
  | "pointer_type" => do return .pointer (← required head "pointee" (one "pointee")) head.span
  | "array_type" => do
    let size ← childIn (.mk head children) "size"
    let count ← numberOf source size.head
    return .array count (← required head "element" (one "element")) head.span
  | "slice_type" => do return .slice (← required head "element" (one "element")) head.span
  | "func_type" => do
    let params ← required head "params" (list "params")
    return .func params (← required head "returns" (one "returns")) head.span
  | _ => .error (malformed head "unknown type expression")

mutual

/-- The type that a `type_expr` node holds. -/
def typeOf (source : ByteArray) : Node → Except Diagnostic TypeExpr
  | .mk head children =>
    if head.kind == "type_expr" then (typeInside source children).getD (.error (emptyWrapper head))
    else .error (unwanted head "type_expr")

/-- The type that the first named node is. -/
def typeInside (source : ByteArray) : List Node → Option (Except Diagnostic TypeExpr)
  | [] => none
  | .mk head children :: rest =>
    if head.named then
      some (typeForm source head children (fun field => typeIn source field children)
        (fun field => typesIn source field children))
    else typeInside source rest

/-- The type held by the first node in a role. -/
def typeIn (source : ByteArray) (field : String) :
    List Node → Option (Except Diagnostic TypeExpr)
  | [] => none
  | n :: rest =>
    if n.field == some field then some (typeOf source n) else typeIn source field rest

/-- The types held by the named nodes below the first node in a role. -/
def typesIn (source : ByteArray) (field : String) :
    List Node → Option (Except Diagnostic (List TypeExpr))
  | [] => none
  | .mk head children :: rest =>
    if head.field == some field then some (typesOf source children)
    else typesIn source field rest

/-- The types held by the named nodes. -/
def typesOf (source : ByteArray) : List Node → Except Diagnostic (List TypeExpr)
  | [] => .ok []
  | n :: rest =>
    if n.named then do
      let type ← typeOf source n
      let types ← typesOf source rest
      return type :: types
    else typesOf source rest

end

/-- An operator in its role below a node, by its text. -/
def operatorOf {α : Type} (source : ByteArray) (n : Node) (ofText? : String → Option α)
    (what : String) : Except Diagnostic α := do
  let operator ← childIn n "operator"
  let text ← textOf source operator.head
  match ofText? text with
  | some op => return op
  | none => throw (malformed operator.head ("unknown " ++ what ++ " operator"))

/-- What was read, or the diagnostic that is due instead. -/
def orBad : Except Diagnostic Expr → Expr
  | .ok e => e
  | .error d => .bad d

/-- How an expression is read, given the expressions in each role below it, the first one below it,
and the lists of expressions in each role. -/
def exprForm (source : ByteArray) (head : NodeHead) (children : List Node)
    (one : String → Option Expr) (first : Unit → Option Expr)
    (list : String → Option (List Expr)) : Expr :=
  let node := Node.mk head children
  let span := head.span
  let sub (field : String) : Expr := (one field).getD (.bad (missingField head field))
  match head.kind with
  | "ident_expr" => orBad do return .ident ⟨← pathOf source children, span⟩
  | "binary_expr" =>
    match operatorOf source node BinaryOp.ofText? "binary" with
    | .ok op => .binary (sub "left") op (sub "right") span
    | .error d => .stuck (sub "left") d
  | "unary_expr" => orBad do
    return .unary (← operatorOf source node UnaryOp.ofText? "unary") (sub "argument") span
  | "cond_expr" => .condition (sub "condition") (sub "consequence") (sub "alternative") span
  | "call_expr" => orBad do
    let callee ← childIn node "func_name"
    let path ← pathOf source callee.children
    return .call ⟨path, callee.span⟩ ((list "args").getD [.bad (missingField head "args")]) span
  | "assignment_expr" =>
    match operatorOf source node AssignOp.ofText? "assignment" with
    | .ok op => .assignment (sub "left") op (sub "right") span
    | .error d => .stuck (sub "left") d
  | "parenthesized_expr" =>
    match first () with
    | some inner => .parenthesized inner span
    | none => .bad (malformed head "empty parentheses")
  | "number_literal" => orBad do return .number (← numberOf source head) span
  | "string_literal" => orBad do return .string (← textOf source head) span
  | "true_lit" => .boolean true span
  | "false_lit" => .boolean false span
  | "null_lit" => .null span
  | _ => .bad (malformed head "unknown expression")

mutual

/-- The expression that an `expr` node holds. -/
def exprOf (source : ByteArray) : Node → Expr
  | .mk head children =>
    if head.kind == "expr" then (exprInside source children).getD (.bad (emptyWrapper head))
    else .bad (unwanted head "expr")

/-- The expression that the first named node is. -/
def exprInside (source : ByteArray) : List Node → Option Expr
  | [] => none
  | .mk head children :: rest =>
    if head.named then
      some (exprForm source head children (fun field => exprIn source field children)
        (fun _ => firstExpr source children) (fun field => exprsIn source field children))
    else exprInside source rest

/-- The expression held by the first node in a role. -/
def exprIn (source : ByteArray) (field : String) : List Node → Option Expr
  | [] => none
  | n :: rest =>
    if n.field == some field then some (exprOf source n) else exprIn source field rest

/-- The expression held by the first named node. -/
def firstExpr (source : ByteArray) : List Node → Option Expr
  | [] => none
  | n :: rest => if n.named then some (exprOf source n) else firstExpr source rest

/-- The expressions held by the named nodes below the first node in a role. -/
def exprsIn (source : ByteArray) (field : String) : List Node → Option (List Expr)
  | [] => none
  | .mk head children :: rest =>
    if head.field == some field then some (exprsOf source children)
    else exprsIn source field rest

/-- The expressions held by the named nodes. -/
def exprsOf (source : ByteArray) : List Node → List Expr
  | [] => []
  | n :: rest =>
    if n.named then exprOf source n :: exprsOf source rest else exprsOf source rest

end

/-- The name that the child in a role is. -/
def nameIn (source : ByteArray) (n : Node) (field : String) : Except Diagnostic Name := do
  let child ← childIn n field
  return ⟨← textOf source child.head, child.start⟩

/-- The type that the child in a role holds. -/
def typeUseIn (source : ByteArray) (n : Node) (field : String) :
    Except Diagnostic TypeUse := do
  let child ← childIn n field
  return ⟨← typeOf source child, child.start⟩

/-- The name with its type that a node is. -/
def bindingOf (source : ByteArray) (n : Node) : Except Diagnostic Binding := do
  let name ← nameIn source n "ident"
  let typeUse ← typeUseIn source n "typing"
  return ⟨name, typeUse, n.span⟩

/-- The item of a parameter list that a node is. -/
def paramOf (source : ByteArray) (n : Node) : Param :=
  match n.kind with
  | "typed_ident" =>
    match bindingOf source n with
    | .ok b => .binding b
    | .error d => .bad d
  | "variadic" => .variadic
  | _ => .bad (malformed n.head "unexpected parameter")

/-- The function without its body that a node starts with. -/
def headerOf (source : ByteArray) (n : Node) : Except Diagnostic Header := do
  let name ← nameIn source n "func_name"
  let (params, pos) :=
    match childIn n "params" with
    | .ok child => (child.namedChildren.map (paramOf source), child.start)
    | .error d => ([.bad d], d.pos)
  return ⟨name, params, pos, typeUseIn source n "returns"⟩

/-- The expression in a role below a node. -/
def exprField (source : ByteArray) (n : Node) (field : String) : Expr :=
  match childIn n field with
  | .ok child => exprOf source child
  | .error d => .bad d

/-- What was read, or the diagnostic that is due instead. -/
def orBadStmt : Except Diagnostic Stmt → Stmt
  | .ok s => s
  | .error d => .bad d

/-- The declaration that a node is.  The initial value comes first: what is wrong with the name or
the type is due after it. -/
def declareForm (source : ByteArray) (n : Node) : Stmt :=
  let initial := (n.child? "initial").map (exprOf source)
  let binding := childIn n "typed_ident" >>= bindingOf source
  match binding, initial with
  | .ok b, _ => .declare b initial n.span
  | .error d, some e => .stuck e d
  | .error d, none => .bad d

/-- The external declaration that a node is. -/
def externalForm (source : ByteArray) (n : Node) : Stmt :=
  match n.namedChildren with
  | [] => .bad (malformed n.head "empty external")
  | declaration :: _ =>
    match declaration.kind with
    | "external_variable" => orBadStmt do
      let child ← childIn declaration "typed_ident"
      return .externalVariable (← bindingOf source child) declaration.span.start n.span
    | "external_function" => orBadStmt do
      return .externalFunction (← headerOf source declaration) declaration.span n.span
    | _ => .bad (malformed declaration.head "unknown external declaration")

/-- The block in a role below a node, given what was read there, as the last part of a statement
that starts with `first`. -/
def withBlock (head : NodeHead) (field : String) (first : Expr) (block : Option Block)
    (k : Block → Stmt) : Stmt :=
  match block with
  | some b => k b
  | none => .stuck first (missingField head field)

/-- How an `if` is read, given the blocks in each role below it and its alternative. -/
def ifForm (source : ByteArray) (n : Node) (block : String → Option Block)
    (alternative : Unit → Option Block) : Stmt :=
  let condition := exprField source n "condition"
  withBlock n.head "consequence" condition (block "consequence") fun consequence =>
    match alternative () with
    | some b => .ifElse condition consequence b n.span
    | none => .ifThen condition consequence n.span

/-- How a statement is read, given the blocks in each role below it and the alternative of an
`if`. -/
def stmtForm (source : ByteArray) (n : Node) (block : String → Option Block)
    (alternative : Unit → Option Block) : Stmt :=
  let span := n.span
  match n.kind with
  | "empty" => .empty span
  | "mod" => orBadStmt do return .mod (← nameIn source n "name") span
  | "declare" => declareForm source n
  | "external" => externalForm source n
  | "while" =>
    let condition := exprField source n "condition"
    withBlock n.head "body" condition (block "body") fun body => .whileLoop condition body span
  | "if" => ifForm source n block alternative
  | "return" => .returned (exprField source n "returns") span
  | "type_alias" => orBadStmt do
    let name ← nameIn source n "ident"
    return .typeAlias name (← typeUseIn source n "typing") span
  | "func" => orBadStmt do
    let header ← headerOf source n
    let body := (block "body").getD (.mk [.bad (missingField n.head "body")] span)
    return .func header body span
  | "expr" => .expr (exprOf source n) span
  | _ => .bad (malformed n.head "unknown statement")

mutual

/-- The statement that a `stmt` node holds. -/
def stmtOf (source : ByteArray) : Node → Stmt
  | .mk head children =>
    if head.kind == "stmt" then (stmtInside source children).getD (.bad (emptyWrapper head))
    else .bad (unwanted head "stmt")

/-- The statement that the first named node is. -/
def stmtInside (source : ByteArray) : List Node → Option Stmt
  | [] => none
  | .mk head children :: rest =>
    if head.named then
      some (stmtForm source (.mk head children) (fun field => blockIn source field children)
        (fun _ => alternativeIn source children))
    else stmtInside source rest

/-- The block that the first node in a role is.  A node of another kind is a block that cannot be
read, but is a block. -/
def blockIn (source : ByteArray) (field : String) : List Node → Option Block
  | [] => none
  | .mk head children :: rest =>
    if head.field == some field then
      if head.kind == "codeblock" then some (.mk (stmtsOf source children) head.span)
      else some (.mk [.bad (unwanted head "codeblock")] head.span)
    else blockIn source field rest

/-- The alternative of an `if`: a block, or a further `if` as the only statement of one. -/
def alternativeIn (source : ByteArray) : List Node → Option Block
  | [] => none
  | .mk head children :: rest =>
    if head.field == some "alternative" then
      if head.kind == "if" then
        some (.mk [ifForm source (.mk head children) (fun field => blockIn source field children)
          (fun _ => alternativeIn source children)] head.span)
      else if head.kind == "codeblock" then some (.mk (stmtsOf source children) head.span)
      else some (.mk [.bad (unwanted head "codeblock")] head.span)
    else alternativeIn source rest

/-- The statements held by the named nodes. -/
def stmtsOf (source : ByteArray) : List Node → List Stmt
  | [] => []
  | n :: rest =>
    if n.named then stmtOf source n :: stmtsOf source rest else stmtsOf source rest

end

end Surface
end BlockC

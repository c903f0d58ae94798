import BlockC.Diagnostic.Cause
import BlockC.Surface.Operator
import BlockC.Surface.TypeExpr

/-! # Surface programs

Programs before their names are bound to symbols.  Where a tree is no program, a `bad` part stands
in for what cannot be read, and a `stuck` part for what can be read up to a point; both carry the
diagnostic that is due when that point is reached.
-/
namespace BlockC
namespace Surface

/-- A name and where it stands. -/
structure Name where
  text : String
  pos : Position
deriving DecidableEq, Repr

/-- A name in an expression, segment by segment. -/
structure Ident where
  path : List String
  span : Span
deriving DecidableEq, Repr

/-- The name with dots between its segments. -/
def Ident.dotted (id : Ident) : String :=
  Text.joined "." id.path

/-- An expression. -/
inductive Expr where
  | ident (id : Ident)
  | binary (left : Expr) (op : BinaryOp) (right : Expr) (span : Span)
  | unary (op : UnaryOp) (argument : Expr) (span : Span)
  | condition (condition consequence alternative : Expr) (span : Span)
  | call (callee : Ident) (args : List Expr) (span : Span)
  | assignment (left : Expr) (op : AssignOp) (right : Expr) (span : Span)
  | parenthesized (inner : Expr) (span : Span)
  | number (value : UInt64) (span : Span)
  | string (text : String) (span : Span)
  | boolean (value : Bool) (span : Span)
  | null (span : Span)
  /-- No expression can be read here. -/
  | bad (diagnostic : Diagnostic)
  /-- An expression, and nothing that can be read behind it. -/
  | stuck (first : Expr) (diagnostic : Diagnostic)
deriving Inhabited

/-- A type where it is used, which may start before the type itself. -/
structure TypeUse where
  type : TypeExpr
  pos : Position

/-- A name with its type. -/
structure Binding where
  name : Name
  typeUse : TypeUse
  span : Span

/-- An item of a parameter list. -/
inductive Param where
  | binding (b : Binding)
  /-- The mark of further parameters. -/
  | variadic
  /-- No parameter can be read here. -/
  | bad (diagnostic : Diagnostic)

/-- A function without its body. -/
structure Header where
  name : Name
  params : List Param
  /-- Where the parameters start. -/
  paramsPos : Position
  returns : Except Diagnostic TypeUse

mutual

/-- A statement. -/
inductive Stmt where
  | empty (span : Span)
  | mod (name : Name) (span : Span)
  | declare (binding : Binding) (initial : Option Expr) (span : Span)
  /-- A variable of other code; `pos` is where it is declared, behind the first word. -/
  | externalVariable (binding : Binding) (pos : Position) (span : Span)
  /-- A function without a body; `declared` is where it stands without the first word. -/
  | externalFunction (header : Header) (declared : Span) (span : Span)
  | whileLoop (condition : Expr) (body : Block) (span : Span)
  | ifThen (condition : Expr) (consequence : Block) (span : Span)
  | ifElse (condition : Expr) (consequence alternative : Block) (span : Span)
  | returned (value : Expr) (span : Span)
  | typeAlias (name : Name) (typeUse : TypeUse) (span : Span)
  | func (header : Header) (body : Block) (span : Span)
  | expr (value : Expr) (span : Span)
  /-- No statement can be read here. -/
  | bad (diagnostic : Diagnostic)
  /-- An expression of a statement, and nothing that can be read behind it. -/
  | stuck (first : Expr) (diagnostic : Diagnostic)

/-- The statements of a block. -/
inductive Block where
  | mk (stmts : List Stmt) (span : Span)

end

end Surface
end BlockC

import BlockC.Surface.Operator
import BlockC.Surface.TypeExpr
import BlockC.Symbol.Table

/-! # Bound programs

Programs whose names are bound to symbols, and the compilation unit that holds a program together
with its symbols.
-/
namespace BlockC
namespace Bound

/-- A name in an expression, and its symbol. -/
structure Ident where
  path : List String
  symbol : SymbolId
  span : Span
deriving DecidableEq, Repr

/-- The name with dots between its segments. -/
def Ident.dotted (id : Ident) : String :=
  Text.joined "." id.path

/-- Whether the name has more than one segment. -/
def Ident.isDotted (id : Ident) : Bool :=
  1 < id.path.length

/-- An expression. -/
inductive Expr where
  | ident (id : Ident)
  | binary (left : Expr) (op : BinaryOp) (right : Expr) (span : Span)
  | unary (op : UnaryOp) (argument : Expr) (span : Span)
  | condition (condition consequence alternative : Expr) (span : Span)
  | call (callee : Ident) (args : List Expr) (span : Span)
  | assignment (left : Expr) (op : AssignOp) (right : Expr) (span : Span)
  | parenthesized (inner : Expr) (span : Span)
  | number (value : UInt64) (span : Span)
  | string (text : String) (span : Span)
  | boolean (value : Bool) (span : Span)
  | null (span : Span)
deriving Inhabited

/-- A declared name: a variable, or a parameter. -/
structure Binding where
  name : String
  type : TypeExpr
  typing : Typing
  symbol : SymbolId
  span : Span

/-- A function without its body. -/
structure Header where
  name : String
  params : List Binding
  variadic : Bool
  returns : TypeExpr
  symbol : SymbolId

mutual

/-- A statement. -/
inductive Stmt where
  | empty (span : Span)
  | mod (name : String) (symbol : SymbolId) (span : Span)
  | declare (binding : Binding) (initial : Option Expr) (span : Span)
  | externalVariable (binding : Binding) (span : Span)
  /-- A function without a body; `declared` is where it stands without the first word. -/
  | externalFunction (header : Header) (declared : Span) (span : Span)
  | whileLoop (condition : Expr) (body : Block) (span : Span)
  | ifThen (condition : Expr) (consequence : Block) (span : Span)
  | ifElse (condition : Expr) (consequence alternative : Block) (span : Span)
  | returned (value : Expr) (span : Span)
  | typeAlias (name : String) (type : TypeExpr) (symbol : SymbolId) (span : Span)
  | func (header : Header) (body : Block) (span : Span)
  | expr (value : Expr) (span : Span)

/-- Statements and the scope that holds what they declare. -/
inductive Block where
  | mk (stmts : List Stmt) (scope : SymbolId) (span : Span)

end

/-- Where a statement stands. -/
def Stmt.span : Stmt → Span
  | .empty span | .mod _ _ span | .declare _ _ span | .externalVariable _ span
  | .externalFunction _ _ span | .whileLoop _ _ span | .ifThen _ _ span | .ifElse _ _ _ span
  | .returned _ span | .typeAlias _ _ _ span | .func _ _ span | .expr _ span => span

/-- The statements of a source file. -/
structure SourceFile where
  stmts : List Stmt
  span : Span

/-- The last of the given statements that opens a module gives its name. -/
def lastModule? : List Stmt → Option String
  | [] => none
  | s :: rest =>
    match lastModule? rest, s with
    | some name, _ => some name
    | none, .mod name _ _ => some name
    | none, _ => none

/-- The module that a source file ends in, if it opens any. -/
def SourceFile.module? (file : SourceFile) : Option String :=
  lastModule? file.stmts

/-- A program and its symbols. -/
structure CompilationUnit where
  sourceFile : SourceFile
  table : Table

end Bound
end BlockC

import BlockC.Code.Declarator
import BlockC.Code.Name
import BlockC.Code.Prelude

/-! # C text

From bound programs to C.  Operands stand in parentheses, so the text does not depend on the
operator levels of C.  The modules opened so far are kept along the way, since they are part of the
names of function definitions; those opened in a block end with it.
-/
namespace BlockC
namespace Code

open BlockC.Bound

mutual

/-- An expression in C. -/
def expr (t : Table) : Expr → Except Cause String
  | .ident id => spelled t id
  | .binary left op right _ => do
    let left ← expr t left
    let right ← expr t right
    return "(" ++ left ++ ") " ++ op.text ++ " (" ++ right ++ ")"
  | .unary op argument _ => do
    let argument ← expr t argument
    return op.text ++ "(" ++ argument ++ ")"
  | .condition condition consequence alternative _ => do
    let condition ← expr t condition
    let consequence ← expr t consequence
    let alternative ← expr t alternative
    return "(" ++ condition ++ ") ? (" ++ consequence ++ ") : (" ++ alternative ++ ")"
  | .call callee args _ => do
    let args ← exprs t args
    return (← spelled t callee) ++ parameterList args
  | .assignment left op right _ => do
    let left ← expr t left
    let right ← expr t right
    return left ++ " " ++ op.text ++ " (" ++ right ++ ")"
  | .parenthesized inner _ => do
    let inner ← expr t inner
    return "(" ++ inner ++ ")"
  | .number value _ => return Numeral.decimal value.toNat
  | .string text _ => return text
  | .boolean value _ => return if value then "true" else "false"
  | .null _ => return "NULL"

/-- Expressions in C. -/
def exprs (t : Table) : List Expr → Except Cause (List String)
  | [] => .ok []
  | e :: rest => do
    let first ← expr t e
    return first :: (← exprs t rest)

end

/-- The same outcome, with the place that a failure is reported at. -/
def located {α : Type} (pos : Position) (r : Except Cause α) : Except Diagnostic α :=
  r.mapError (⟨·, pos⟩)

/-- Code between braces. -/
def braced (code : String) : String :=
  "\x7b" ++ code ++ "\x7d"

/-- A declared name in C, without an initial value. -/
def binding (t : Table) (b : Binding) : Except Cause String :=
  declarator t b.typing b.name

/-- Declared names in C. -/
def bindings (t : Table) : List Binding → Except Cause (List String)
  | [] => .ok []
  | b :: rest => do
    let first ← binding t b
    return first :: (← bindings t rest)

/-- What a function returns, by its symbol. -/
def returnType (t : Table) (h : Header) : Except Cause Typing := do
  match (← t.get h.symbol).typing with
  | some (.signature _ returns _) => return returns
  | _ => throw (.incompleteSymbol h.name)

/-- What a type name stands for, by its symbol. -/
def aliasedType (t : Table) (name : String) (symbol : SymbolId) : Except Cause Typing := do
  match (← t.get symbol).typing with
  | some typing => return typing
  | none => throw (.incompleteSymbol name)

/-- The initial value of a declaration in C. -/
def initialValue (t : Table) : Option Expr → Except Cause String
  | none => .ok ""
  | some e => do return " = " ++ (← expr t e)

/-- The head of a function without a body. -/
def externalHead (t : Table) (h : Header) : Except Cause String := do
  let params ← bindings t h.params
  let params := if h.variadic then params ++ ["..."] else params
  functionHead t (← returnType t h) h.name params

/-- The head of a function inside the given modules. -/
def definitionHead (t : Table) (modules : List String) (h : Header) : Except Cause String := do
  let returns ← returnType t h
  let params ← bindings t h.params
  functionHead t returns (mangled modules h.name) params

mutual

/-- A statement in C, and the modules that are open behind it. -/
def stmt (t : Table) (modules : List String) : Stmt → Except Diagnostic (String × List String)
  | .empty _ => return ("", modules)
  | .mod name _ _ => return ("", modules ++ [name])
  | .declare b initial span => do
    let declared ← located span.start (binding t b)
    let initial ← located span.start (initialValue t initial)
    return (declared ++ initial ++ ";", modules)
  | .externalVariable b span => do
    let declared ← located span.start (binding t b)
    return ("extern " ++ declared ++ ";", modules)
  | .externalFunction h _ span => do
    let head ← located span.start (externalHead t h)
    return ("extern " ++ head ++ ";", modules)
  | .whileLoop condition body span => do
    let condition ← located span.start (expr t condition)
    let body ← block t modules body
    return ("while(" ++ condition ++ ") " ++ braced body, modules)
  | .ifThen condition consequence span => do
    let condition ← located span.start (expr t condition)
    let consequence ← block t modules consequence
    return ("if(" ++ condition ++ ") " ++ braced consequence, modules)
  | .ifElse condition consequence alternative span => do
    let condition ← located span.start (expr t condition)
    let consequence ← block t modules consequence
    let alternative ← block t modules alternative
    return ("if(" ++ condition ++ ") " ++ braced consequence ++ " else " ++ braced alternative,
      modules)
  | .returned value span => do
    let value ← located span.start (expr t value)
    return ("return " ++ value ++ ";", modules)
  | .typeAlias name _ symbol span => do
    let typing ← located span.start (aliasedType t name symbol)
    let declared ← located span.start (declarator t typing name)
    return ("typedef " ++ declared ++ ";", modules)
  | .func h body span => do
    let head ← located span.start (definitionHead t modules h)
    let body ← block t modules body
    return (head ++ " " ++ braced body, modules)
  | .expr value span => do
    let value ← located span.start (expr t value)
    return (value ++ ";", modules)

/-- The statements of a block in C. -/
def block (t : Table) (modules : List String) : Block → Except Diagnostic String
  | .mk body _ _ => stmts t modules body

/-- Statements in C, one behind the other. -/
def stmts (t : Table) (modules : List String) : List Stmt → Except Diagnostic String
  | [] => return ""
  | s :: rest => do
    let (first, modules) ← stmt t modules s
    return first ++ (← stmts t modules rest)

end

/-- A compilation unit in C, after the prelude if that is wanted. -/
def unit (u : CompilationUnit) (withPrelude : Bool) : Except Diagnostic String := do
  let body ← stmts u.table [] u.sourceFile.stmts
  return (if withPrelude then prelude else "") ++ body

end Code
end BlockC

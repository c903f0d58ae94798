import BlockC.Bound.Context
import BlockC.Bound.Program
import BlockC.Surface.Reader

/-! # Binding names

From surface programs to bound programs.  Statements are bound in order: each name is looked up
among what was declared before it, and each declaration is published in the innermost open scope.
The first diagnostic that is due ends the work.
-/
namespace BlockC
namespace Binder

open BlockC.Bound

/-- Binds a name in an expression. -/
def ident (id : Surface.Ident) : Binder Ident := do
  let ctx ← get
  let symbol ← located id.span.start (ctx.table.resolveFullName ctx.current id.dotted)
  return ⟨id.path, symbol, id.span⟩

/-- Binds a name that is called. -/
def callee (id : Surface.Ident) : Binder Ident := do
  let id ← ident id
  let callable ← located id.span.start ((← get).table.isCallable id.symbol)
  if callable then return id
  else throw ⟨.notCallable id.dotted, id.span.start⟩

mutual

/-- Binds the names of an expression. -/
def expr : Surface.Expr → Binder Expr
  | .ident id => do return .ident (← ident id)
  | .binary left op right span => do
    let left ← expr left
    return .binary left op (← expr right) span
  | .unary op argument span => do return .unary op (← expr argument) span
  | .condition condition consequence alternative span => do
    let condition ← expr condition
    let consequence ← expr consequence
    return .condition condition consequence (← expr alternative) span
  | .call id args span => do
    let id ← callee id
    return .call id (← exprs args) span
  | .assignment left op right span => do
    let left ← expr left
    return .assignment left op (← expr right) span
  | .parenthesized inner span => do return .parenthesized (← expr inner) span
  | .number value span => return .number value span
  | .string text span => return .string text span
  | .boolean value span => return .boolean value span
  | .null span => return .null span
  | .bad d => throw d
  | .stuck first d => do
    let _ ← expr first
    throw d

/-- Binds the names of expressions. -/
def exprs : List Surface.Expr → Binder (List Expr)
  | [] => return []
  | e :: rest => do
    let e ← expr e
    return e :: (← exprs rest)

end

/-- Binds a type in the current scope. -/
def typeUse (a : Surface.TypeUse) : Binder Typing := do
  let ctx ← get
  located a.pos (ctx.table.typingOf ctx.current a.type)

/-- Binds a type and declares a name of it. -/
def binding (kind : SymbolKind) (b : Surface.Binding) : Binder Binding := do
  let typing ← typeUse b.typeUse
  let symbol ← declare b.name.text kind (some typing) b.name.pos
  return ⟨b.name.text, b.typeUse.type, typing, symbol, b.span⟩

/-- Declares parameters, and tells whether there is a mark of further ones. -/
def params : List Surface.Param → Binder (List Binding × Bool)
  | [] => return ([], false)
  | .binding b :: rest => do
    let b ← binding .param b
    let (bs, variadic) ← params rest
    return (b :: bs, variadic)
  | .variadic :: rest => do
    let (bs, _) ← params rest
    return (bs, true)
  | .bad d :: _ => throw d

/-- Gives a function its type and publishes it under `parent`. -/
def publish (symbol parent : SymbolId) (typing : Typing) (pos : Position) : Binder Unit := do
  changeTable pos (·.setTyping symbol typing)
  changeTable pos (·.addChild parent symbol)

/-- The type of a function with the given parameters. -/
def signature (params : List Binding) (returns : Typing) (variadic : Bool) : Typing :=
  .signature (params.map (·.typing)) returns variadic

/-- Declares a function that has no body.  Its scope is closed before it is published. -/
def externalFunction (h : Surface.Header) : Binder Header := do
  let parent := (← get).current
  let symbol ← openScope h.name.text .func
  let (ps, variadic) ← params h.params
  let returns ← known h.returns
  let typing ← typeUse returns
  closeScope symbol
  publish symbol parent (signature ps typing variadic) h.name.pos
  changeTable h.name.pos (·.markExternal symbol)
  return ⟨h.name.text, ps, variadic, returns.type, symbol⟩

/-- Declares a function that has a body.  It is published before the body, which may call it, and
its scope stays open for the body. -/
def funcHeader (h : Surface.Header) : Binder Header := do
  let parent := (← get).current
  let symbol ← openScope h.name.text .func
  let (ps, variadic) ← params h.params
  if variadic then throw ⟨.variadicDefinition h.name.text, h.paramsPos⟩
  let returns ← known h.returns
  let typing ← typeUse returns
  publish symbol parent (signature ps typing false) h.name.pos
  return ⟨h.name.text, ps, false, returns.type, symbol⟩

/-- Binds the initial value of a declaration, if there is one. -/
def initialValue : Option Surface.Expr → Binder (Option Expr)
  | none => return none
  | some e => do return some (← expr e)

/-- The name of the symbols of blocks. -/
def blockName : String := "<block>"

mutual

/-- Binds the names of a statement and declares what it declares. -/
def stmt : Surface.Stmt → Binder Stmt
  | .empty span => return .empty span
  | .mod name span => do
    let symbol ← declare name.text .mod none name.pos
    modify (·.push symbol)
    return .mod name.text symbol span
  | .declare b initial span => do
    let initial ← initialValue initial
    return .declare (← binding .var b) initial span
  | .externalVariable b pos span => do
    let b ← binding .var b
    changeTable pos (·.markExternal b.symbol)
    return .externalVariable b span
  | .externalFunction h declared span => do
    return .externalFunction (← externalFunction h) declared span
  | .whileLoop condition body span => do
    let condition ← expr condition
    return .whileLoop condition (← block body) span
  | .ifThen condition consequence span => do
    let condition ← expr condition
    return .ifThen condition (← block consequence) span
  | .ifElse condition consequence alternative span => do
    let condition ← expr condition
    let consequence ← block consequence
    return .ifElse condition consequence (← block alternative) span
  | .returned value span => do return .returned (← expr value) span
  | .typeAlias name a span => do
    let typing ← typeUse a
    let symbol ← declare name.text .typeName (some typing) name.pos
    return .typeAlias name.text a.type symbol span
  | .func h (.mk body bodySpan) span => do
    let h ← funcHeader h
    let body ← stmts body
    closeScope h.symbol
    return .func h (.mk body h.symbol bodySpan) span
  | .expr value span => do return .expr (← expr value) span
  | .bad d => throw d
  | .stuck first d => do
    let _ ← expr first
    throw d

/-- Binds the statements of a block in a scope of its own. -/
def block : Surface.Block → Binder Block
  | .mk body span => do
    let scope ← openScope blockName .block
    let body ← stmts body
    closeScope scope
    return .mk body scope span

/-- Binds statements in order. -/
def stmts : List Surface.Stmt → Binder (List Stmt)
  | [] => return []
  | s :: rest => do
    let s ← stmt s
    return s :: (← stmts rest)

end

end Binder

/-- Binds the program that a tree holds. -/
def bindTree (root : Node) (source : ByteArray) : Except Diagnostic Bound.CompilationUnit :=
  if root.kind == "source_file" then
    match (Binder.stmts (Surface.stmtsOf source root.children)).run .initial with
    | .ok stmts ctx => .ok ⟨⟨stmts, root.span⟩, ctx.table⟩
    | .error d _ => .error d
  else .error (Surface.unwanted root.head "source_file")

end BlockC

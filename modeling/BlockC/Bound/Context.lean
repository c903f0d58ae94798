import BlockC.Symbol.TypeLookup

/-! # Binding contexts

What binding a program works on: the symbols so far, and the scopes that are open.  A step that
fails leaves behind what it did before it failed.
-/
namespace BlockC

/-- The symbols so far and the open scopes, innermost first. -/
structure Context where
  table : Table
  scopes : List SymbolId

namespace Context

/-- The context before the first statement: the root is open. -/
def initial : Context :=
  ⟨.empty, [Table.root]⟩

/-- The innermost open scope. -/
def current (ctx : Context) : SymbolId :=
  ctx.scopes.head?.getD Table.root

/-- Opens a scope inside the current one. -/
def push (ctx : Context) (scope : SymbolId) : Context :=
  { ctx with scopes := scope :: ctx.scopes }

/-- Closes scopes up to and including the given one. -/
def close (ctx : Context) (scope : SymbolId) : Context :=
  { ctx with scopes := (ctx.scopes.dropWhile (· != scope)).tail }

end Context

/-- A step of binding: it reads and changes the context, and may fail. -/
abbrev Binder := EStateM Diagnostic Context

namespace Binder

/-- Runs something that may fail for a cause at the given place. -/
def located {α : Type} (pos : Position) (r : Except Cause α) : Binder α :=
  match r with
  | .ok a => pure a
  | .error cause => throw ⟨cause, pos⟩

/-- Fails if what was read is a diagnostic. -/
def known {α : Type} (r : Except Diagnostic α) : Binder α :=
  match r with
  | .ok a => pure a
  | .error d => throw d

/-- Changes the table, which may fail for a cause at the given place. -/
def changeTable (pos : Position) (f : Table → Except Cause Table) : Binder Unit := do
  let table ← located pos (f (← get).table)
  modify fun ctx => { ctx with table }

/-- Creates a symbol whose parent is the current scope, without publishing it. -/
def create (name : String) (kind : SymbolKind) : Binder SymbolId := do
  let ctx ← get
  let (id, table) := ctx.table.create name kind ctx.current
  set { ctx with table }
  return id

/-- Creates a symbol in the current scope and publishes it there. -/
def declare (name : String) (kind : SymbolKind) (typing : Option Typing) (pos : Position) :
    Binder SymbolId := do
  let scope := (← get).current
  let id ← create name kind
  match typing with
  | some typing => changeTable pos (·.setTyping id typing)
  | none => pure ()
  changeTable pos (·.addChild scope id)
  return id

/-- Creates a symbol inside the current scope and opens it, without publishing it. -/
def openScope (name : String) (kind : SymbolKind) : Binder SymbolId := do
  let id ← create name kind
  modify (·.push id)
  return id

/-- Closes scopes up to and including the given one. -/
def closeScope (scope : SymbolId) : Binder Unit :=
  modify (·.close scope)

end Binder
end BlockC

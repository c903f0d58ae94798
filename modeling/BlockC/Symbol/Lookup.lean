import BlockC.Symbol.Table
import BlockC.Text.Join

/-! # Looking up names

A name is searched from a scope outwards, in the children of each symbol on the way to the root, and
then among the built-in types.  A dotted name starts at the root and goes down.
-/
namespace BlockC

/-- A step on the way from a symbol to its root. -/
inductive Link where
  | symbol (id : SymbolId) (s : Symbol)
  /-- A handle that refers to no symbol; the way ends here. -/
  | dangling (id : SymbolId)

namespace Table

/-- The first `n` steps on the way from a symbol to its root. -/
def lineageUpTo (t : Table) : Nat → SymbolId → List Link
  | 0, _ => []
  | n + 1, id =>
    match t.get? id with
    | none => [.dangling id]
    | some s =>
      .symbol id s ::
        match s.parent with
        | none => []
        | some parent => lineageUpTo t n parent

/-- The way from a symbol to its root.  It meets each symbol of the unit once at most, and ends with
at most one other step. -/
def lineage (t : Table) (id : SymbolId) : List Link :=
  t.lineageUpTo (t.symbols.size + 1) id

/-- The child of the given name nearest on the way; none if no symbol on the way has one. -/
def searchAlong (name : String) : List Link → Except Cause (Option SymbolId)
  | [] => .ok none
  | .dangling id :: _ => .error (.danglingSymbol id)
  | .symbol _ s :: rest =>
    match s.child? name with
    | some child => .ok (some child)
    | none => searchAlong name rest

/-- The symbol that a name without dots means in a scope. -/
def resolveName (t : Table) (scope : SymbolId) (name : String) : Except Cause SymbolId := do
  match ← searchAlong name (t.lineage scope) with
  | some id => return id
  | none =>
    match builtin? name with
    | some id => return id
    | none => throw (.unresolvedSymbol name)

/-- The handles and symbols on the way, all of which have to be there. -/
def symbolsAlong : List Link → Except Cause (List (SymbolId × Symbol))
  | [] => .ok []
  | .dangling id :: _ => .error (.danglingSymbol id)
  | .symbol id s :: rest => do return (id, s) :: (← symbolsAlong rest)

/-- The end of the way up from a symbol. -/
def rootOf (t : Table) (id : SymbolId) : Except Cause SymbolId := do
  let way ← symbolsAlong (t.lineage id)
  return ((way.getLast?).map (·.1)).getD id

/-- The symbol reached from `id` by going down to the children of the given names. -/
def descend (t : Table) (name : String) (id : SymbolId) : List String → Except Cause SymbolId
  | [] => .ok id
  | part :: rest => do
    match (← t.get id).child? part with
    | some child => t.descend name child rest
    | none => throw (.unresolvedSymbol name)

/-- The same failure under the whole name. -/
def underName (name : String) : Cause → Cause
  | .danglingSymbol id => .danglingSymbol id
  | _ => .unresolvedSymbol name

/-- The symbol that a name, possibly dotted, means in a scope. -/
def resolveFullName (t : Table) (scope : SymbolId) (name : String) : Except Cause SymbolId :=
  match Text.segments name with
  | first :: second :: rest => do
    let root ← t.rootOf scope
    let start ← (t.resolveName root first).mapError (underName name)
    t.descend name start (second :: rest)
  | _ => t.resolveName scope name

/-- The names from the root down to a symbol, with dots between them. -/
def fullName (t : Table) (id : SymbolId) : Except Cause String := do
  let way ← symbolsAlong (t.lineage id)
  return Text.joined "." (way.map (·.2.name)).reverse

/-- The module nearest on the way, if there is one. -/
def moduleAlong : List Link → Except Cause (Option SymbolId)
  | [] => .ok none
  | .dangling id :: _ => .error (.danglingSymbol id)
  | .symbol id s :: rest => if s.kind = .mod then .ok (some id) else moduleAlong rest

/-- The nearest module around a symbol, if there is one. -/
def enclosingModule (t : Table) (id : SymbolId) : Except Cause (Option SymbolId) := do
  let _ ← t.get id
  moduleAlong (t.lineage id).tail

end Table
end BlockC

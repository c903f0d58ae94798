import BlockC.Bound.Program
import BlockC.Symbol.Lookup

/-! # C names

A function of a module is written with the names of the modules around it, from the outermost one
on, with underscores between them.  Everything else keeps its own name.
-/
namespace BlockC
namespace Code

/-- A name inside the given modules, outermost first. -/
def mangled (modules : List String) (name : String) : String :=
  Text.joined "_" (modules ++ [name])

/-- The name of a symbol inside the modules that its ancestors are. -/
def mangledSymbol (t : Table) (id : SymbolId) : Except Cause String := do
  match ← Table.symbolsAlong (t.lineage id) with
  | [] => throw (.danglingSymbol id)
  | (_, s) :: above =>
    let modules := above.filter fun link => link.2.kind = .mod
    return mangled (modules.map (·.2.name)).reverse s.name

/-- How a name in an expression is written.  A plain name stays as it is; a dotted one is written as
its symbol is. -/
def spelled (t : Table) (id : Bound.Ident) : Except Cause String :=
  if id.isDotted then do
    let s ← t.get id.symbol
    if s.kind = .func ∧ s.isExternal = false then mangledSymbol t id.symbol
    else return s.name
  else .ok id.dotted

end Code
end BlockC

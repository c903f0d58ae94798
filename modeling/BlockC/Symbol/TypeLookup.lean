import BlockC.Surface.TypeExpr
import BlockC.Symbol.Lookup

/-! # Looking up types

From a type as written to a typing, and from a name for a type to the type that it stands for.
-/
namespace BlockC
namespace Table

/-- The type that a name, possibly dotted, means in a scope. -/
def typeNamed (t : Table) (scope : SymbolId) (name : String) : Except Cause Typing := do
  let id ← t.resolveFullName scope name
  if (← t.get id).kind = .typeName then return .ref id []
  else throw (.notAType name)

/-- The types that names mean in a scope. -/
def typesNamed (t : Table) (scope : SymbolId) : List String → Except Cause (List Typing)
  | [] => .ok []
  | name :: rest => do
    let typing ← t.typeNamed scope name
    return typing :: (← t.typesNamed scope rest)

/-- The signature whose types have these names in a scope. -/
def signatureNamed (t : Table) (scope : SymbolId) (params : List String) (returns : String) :
    Except Cause Typing := do
  let params ← t.typesNamed scope params
  return .signature params (← t.typeNamed scope returns) false

mutual

/-- What a type as written means in a scope. -/
def typingOf (t : Table) (scope : SymbolId) : TypeExpr → Except Cause Typing
  | .name path _ => t.typeNamed scope (Text.joined "." path)
  | .pointer pointee _ => do (← t.typingOf scope pointee).qualified .pointer
  | .array size element _ => do (← t.typingOf scope element).qualified (.array size)
  | .slice element _ => do (← t.typingOf scope element).qualified .slice
  | .func params returns _ => do
    let params ← t.typingsOf scope params
    return .signature params (← t.typingOf scope returns) false

/-- What types as written mean in a scope. -/
def typingsOf (t : Table) (scope : SymbolId) : List TypeExpr → Except Cause (List Typing)
  | [] => .ok []
  | type :: rest => do
    let typing ← t.typingOf scope type
    return typing :: (← t.typingsOf scope rest)

end

/-- Follows a bare name for a type to what it stands for, at most `n` times. -/
def unaliasUpTo (t : Table) : Nat → Typing → Except Cause Typing
  | n + 1, .ref symbol [] => do
    let s ← t.get symbol
    match s.kind, s.typing with
    | .typeName, some typing => t.unaliasUpTo n typing
    | _, _ => return .ref symbol []
  | _, typing => .ok typing

/-- What a type stands for once bare names for types are followed.  No name is met twice. -/
def unalias (t : Table) (typing : Typing) : Except Cause Typing :=
  t.unaliasUpTo (t.symbols.size + 1) typing

/-- Whether a symbol can be called: whether its type is, or stands for, that of a function. -/
def isCallable (t : Table) (id : SymbolId) : Except Cause Bool := do
  match (← t.get id).typing with
  | none => return false
  | some typing => return (← t.unalias typing).isSignature

end Table
end BlockC

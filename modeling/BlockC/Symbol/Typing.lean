import BlockC.Diagnostic.Cause
import BlockC.Symbol.Handle

/-! # Typings

A type whose names are bound: a type symbol under pointers, arrays and slices, or the signature of a
function.
-/
namespace BlockC

/-- What is laid around a named type. -/
inductive Qualifier where
  | pointer
  | array (size : UInt64)
  /-- A pointer to the first of several elements. -/
  | slice
deriving DecidableEq, Repr

/-- A bound type. -/
inductive Typing where
  /-- A type symbol with its qualifiers, the outermost first. -/
  | ref (symbol : SymbolId) (qualifiers : List Qualifier)
  | signature (params : List Typing) (returns : Typing) (variadic : Bool)
deriving Repr, Inhabited

namespace Typing

/-- Whether the type is that of a function. -/
def isSignature : Typing → Bool
  | signature _ _ _ => true
  | ref _ _ => false

/-- Lays a qualifier around a type.  Functions take none. -/
def qualified (q : Qualifier) : Typing → Except Cause Typing
  | ref symbol qualifiers => .ok (ref symbol (q :: qualifiers))
  | signature _ _ _ =>
    .error (.typingMisuse "a function type cannot be pointed to or stored in an array")

end Typing
end BlockC

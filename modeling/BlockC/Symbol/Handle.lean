import BlockC.Text.Numeral

/-! # Symbol handles

A handle names a symbol by its place in a list: that of the built-in types, or that of the symbols
of a compilation unit.  A handle need not refer to a symbol.
-/
namespace BlockC

/-- The name of a symbol. -/
inductive SymbolId where
  /-- A built-in type, by its place among them. -/
  | builtin (index : Nat)
  /-- A symbol of the unit, by the order of creation. -/
  | unit (index : Nat)
deriving DecidableEq, Repr, Inhabited

/-- The handle as text. -/
def SymbolId.shown : SymbolId → String
  | .builtin i => "b" ++ Numeral.decimal i
  | .unit i => "u" ++ Numeral.decimal i

end BlockC

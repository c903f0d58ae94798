import BlockC.Text.Join
import BlockC.Text.Position

/-! # Types as written

A type in the words of the source, before its names are looked up.
-/
namespace BlockC

/-- A type as written. -/
inductive TypeExpr where
  /-- A name, possibly dotted. -/
  | name (path : List String) (span : Span)
  | pointer (pointee : TypeExpr) (span : Span)
  | array (size : UInt64) (element : TypeExpr) (span : Span)
  | slice (element : TypeExpr) (span : Span)
  | func (params : List TypeExpr) (returns : TypeExpr) (span : Span)
deriving Repr, Inhabited

namespace TypeExpr

/-- Where the type is written. -/
def span : TypeExpr → Span
  | name _ span | pointer _ span | array _ _ span | slice _ span | func _ _ span => span

mutual

/-- The type in the words of the language. -/
def text : TypeExpr → String
  | name path _ => Text.joined "." path
  | pointer pointee _ => "*" ++ text pointee
  | array size element _ => "[" ++ Numeral.decimal size.toNat ++ "]" ++ text element
  | slice element _ => "[]" ++ text element
  | func params returns _ => "fn(" ++ Text.joined ", " (texts params) ++ ") -> " ++ text returns

/-- The types in the words of the language. -/
def texts : List TypeExpr → List String
  | [] => []
  | t :: rest => text t :: texts rest

end

end TypeExpr
end BlockC

/-! # Operators

The operators of expressions.  Each is written the same way in the source and in C.
-/
namespace BlockC

/-- Operators between two operands. -/
inductive BinaryOp where
  | add | sub | mul | div | mod | logicalOr | logicalAnd | bitOr | bitXor | bitAnd
  | eq | ne | gt | ge | le | lt | shl | shr
deriving DecidableEq, Repr

namespace BinaryOp

/-- Every operator between two operands. -/
def all : List BinaryOp :=
  [.add, .sub, .mul, .div, .mod, .logicalOr, .logicalAnd, .bitOr, .bitXor, .bitAnd,
   .eq, .ne, .gt, .ge, .le, .lt, .shl, .shr]

/-- How it is written. -/
def text : BinaryOp → String
  | .add => "+"
  | .sub => "-"
  | .mul => "*"
  | .div => "/"
  | .mod => "%"
  | .logicalOr => "||"
  | .logicalAnd => "&&"
  | .bitOr => "|"
  | .bitXor => "^"
  | .bitAnd => "&"
  | .eq => "=="
  | .ne => "!="
  | .gt => ">"
  | .ge => ">="
  | .le => "<="
  | .lt => "<"
  | .shl => "<<"
  | .shr => ">>"

/-- The operator that is written like this, if there is one. -/
def ofText? (s : String) : Option BinaryOp :=
  all.find? (·.text == s)

end BinaryOp

/-- Operators before one operand. -/
inductive UnaryOp where
  | not | bitNot | neg | plus
deriving DecidableEq, Repr

namespace UnaryOp

/-- Every operator before one operand. -/
def all : List UnaryOp :=
  [.not, .bitNot, .neg, .plus]

/-- How it is written. -/
def text : UnaryOp → String
  | .not => "!"
  | .bitNot => "~"
  | .neg => "-"
  | .plus => "+"

/-- The operator that is written like this, if there is one. -/
def ofText? (s : String) : Option UnaryOp :=
  all.find? (·.text == s)

end UnaryOp

/-- Operators that store a value. -/
inductive AssignOp where
  | assign | mul | div | mod | add | sub | shl | shr | and | or | xor
deriving DecidableEq, Repr

namespace AssignOp

/-- Every operator that stores a value. -/
def all : List AssignOp :=
  [.assign, .mul, .div, .mod, .add, .sub, .shl, .shr, .and, .or, .xor]

/-- How it is written. -/
def text : AssignOp → String
  | .assign => "="
  | .mul => "*="
  | .div => "/="
  | .mod => "%="
  | .add => "+="
  | .sub => "-="
  | .shl => "<<="
  | .shr => ">>="
  | .and => "&="
  | .or => "|="
  | .xor => "^="

/-- The operator that is written like this, if there is one. -/
def ofText? (s : String) : Option AssignOp :=
  all.find? (·.text == s)

end AssignOp
end BlockC

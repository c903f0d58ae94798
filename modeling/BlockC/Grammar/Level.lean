import BlockC.Token.Kind

/-! # Operator levels

How tightly operators hold their operands, from the loosest level to the tightest, and what each
operator does between two operands.
-/
namespace BlockC

/-- A level of binding, loosest first. -/
inductive Level where
  | lowest | assignment | conditional | logicalOr | logicalAnd | bitOr | bitXor | bitAnd
  | equality | relational | shift | additive | multiplicative | unary | call
deriving DecidableEq, Repr, Inhabited

namespace Level

/-- Every level, loosest first. -/
def all : List Level :=
  [.lowest, .assignment, .conditional, .logicalOr, .logicalAnd, .bitOr, .bitXor, .bitAnd,
   .equality, .relational, .shift, .additive, .multiplicative, .unary, .call]

/-- The place of a level in the order. -/
def rank : Level → Nat
  | .lowest => 0
  | .assignment => 1
  | .conditional => 2
  | .logicalOr => 3
  | .logicalAnd => 4
  | .bitOr => 5
  | .bitXor => 6
  | .bitAnd => 7
  | .equality => 8
  | .relational => 9
  | .shift => 10
  | .additive => 11
  | .multiplicative => 12
  | .unary => 13
  | .call => 14

end Level

/-- What a token does behind a complete operand. -/
inductive OperatorRole where
  | binary | assignment | conditional | call
deriving DecidableEq, Repr

/-- The role and level of a piece of punctuation behind an operand, if it has one. -/
def Punct.behindOperand? : Punct → Option (Level × OperatorRole)
  | .assign | .plusEquals | .dashEquals | .starEquals | .slashEquals | .percentEquals
  | .shiftLeftEquals | .shiftRightEquals | .ampEquals | .barEquals | .caretEquals =>
    some (.assignment, .assignment)
  | .question => some (.conditional, .conditional)
  | .barBar => some (.logicalOr, .binary)
  | .ampAmp => some (.logicalAnd, .binary)
  | .bar => some (.bitOr, .binary)
  | .caret => some (.bitXor, .binary)
  | .amp => some (.bitAnd, .binary)
  | .equals | .notEquals => some (.equality, .binary)
  | .less | .lessEquals | .greater | .greaterEquals => some (.relational, .binary)
  | .shiftLeft | .shiftRight => some (.shift, .binary)
  | .plus | .dash => some (.additive, .binary)
  | .star | .slash | .percent => some (.multiplicative, .binary)
  | .openParen => some (.call, .call)
  | _ => none

/-- The role and level of a token behind an operand, if it has one. -/
def Kind.behindOperand? : Kind → Option (Level × OperatorRole)
  | .punct p => p.behindOperand?
  | _ => none

/-- Whether a token is an operator in front of its operand. -/
def Kind.isSign : Kind → Bool
  | .punct .bang | .punct .tilde | .punct .dash | .punct .plus => true
  | _ => false

/-- Whether a token is a value by itself. -/
def Kind.isLiteral : Kind → Bool
  | .number | .string => true
  | .keyword k => k.isLiteral
  | _ => false

end BlockC

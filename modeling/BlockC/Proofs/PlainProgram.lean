import BlockC.Proofs.ExprReading

/-! # Plain programs

Programs as they are written, without places: what a text says once its layout is left out.  A plain
program is written down as a list of tokens (`words`), each statement with a semicolon behind it,
and as a text with spaces between the tokens (`text`).  A surface program that can be read to its
end has a plain one (`plain?`); the semicolons between its statements are left out.
-/
namespace BlockC
namespace Plain

/-- A type as written. -/
inductive TypeExpr where
  /-- A name, possibly dotted. -/
  | name (path : List String)
  | pointer (pointee : TypeExpr)
  | array (size : UInt64) (element : TypeExpr)
  | slice (element : TypeExpr)
  | func (params : List TypeExpr) (returns : TypeExpr)

/-- An expression. -/
inductive Expr where
  | name (path : List String)
  | number (value : UInt64)
  | string (text : String)
  | boolean (value : Bool)
  | null
  | binary (left : Expr) (op : BinaryOp) (right : Expr)
  | unary (op : UnaryOp) (argument : Expr)
  | condition (test yes no : Expr)
  | call (callee : List String) (args : List Expr)
  | assignment (left : Expr) (op : AssignOp) (right : Expr)
  | parenthesized (inner : Expr)

/-- A name with its type. -/
structure Binding where
  name : String
  type : TypeExpr

/-- A function without its body. -/
structure Header where
  name : String
  params : List Binding
  /-- Whether the mark of further parameters stands behind them. -/
  variadic : Bool
  returns : TypeExpr

mutual

/-- A statement. -/
inductive Stmt where
  | empty
  | mod (name : String)
  | declare (binding : Binding) (initial : Option Expr)
  | externalVariable (binding : Binding)
  | externalFunction (header : Header)
  | whileLoop (test : Expr) (body : List Stmt)
  | ifElse (test : Expr) (yes : List Stmt) (otherwise : Otherwise)
  | returned (value : Expr)
  | typeAlias (name : String) (type : TypeExpr)
  | func (header : Header) (body : List Stmt)
  | expr (value : Expr)

/-- What stands behind the first block of an `if`. -/
inductive Otherwise where
  | nothing
  | block (body : List Stmt)
  /-- A further `if`. -/
  | further (test : Expr) (yes : List Stmt) (otherwise : Otherwise)

end

/-! ### Programs that can be written -/

mutual

/-- The names of the type are names. -/
def TypeExpr.Proper : TypeExpr → Prop
  | .name path => IsPath path
  | .pointer pointee => pointee.Proper
  | .array _ element => element.Proper
  | .slice element => element.Proper
  | .func params returns => TypeExpr.AllProper params ∧ returns.Proper

def TypeExpr.AllProper : List TypeExpr → Prop
  | [] => True
  | type :: rest => type.Proper ∧ TypeExpr.AllProper rest

end

/-- How tightly the outermost operator holds. -/
def Expr.level : Expr → Level
  | .assignment _ _ _ => .assignment
  | .condition _ _ _ => .conditional
  | .binary _ op _ => op.level
  | .unary _ _ => .unary
  | _ => .call

/-- An expression that can stand where operators of at least this level are asked for. -/
def Expr.AtLeast (x : Expr) (level : Level) : Prop :=
  level.rank ≤ x.level.rank

/-- An expression whose outermost operator holds tighter than this level. -/
def Expr.Tighter (x : Expr) (level : Level) : Prop :=
  level.rank < x.level.rank

mutual

/-- The names of the expression are names, its strings stand in quotes, and where an operand holds
looser than its operator it is in parentheses. -/
def Expr.Proper : Expr → Prop
  | .name path => IsPath path
  | .number _ | .boolean _ | .null => True
  | .string text => Lexical.IsQuoted text
  | .binary left op right =>
    left.Proper ∧ right.Proper ∧ left.AtLeast op.level ∧ right.Tighter op.level
  | .unary _ argument => argument.Proper ∧ argument.AtLeast .unary
  | .condition test yes no =>
    test.Proper ∧ yes.Proper ∧ no.Proper ∧ test.Tighter .conditional ∧ no.AtLeast .conditional
  | .call callee args => IsPath callee ∧ Expr.AllProper args
  | .assignment left _ right => left.Proper ∧ right.Proper ∧ left.Tighter .assignment
  | .parenthesized inner => inner.Proper

def Expr.AllProper : List Expr → Prop
  | [] => True
  | x :: rest => x.Proper ∧ Expr.AllProper rest

end

def Binding.Proper (b : Binding) : Prop :=
  Lexical.IsName b.name ∧ b.type.Proper

def Header.Proper (h : Header) : Prop :=
  Lexical.IsName h.name ∧ (∀ b ∈ h.params, b.Proper) ∧ h.returns.Proper

mutual

/-- All that the statement consists of can be written. -/
def Stmt.Proper : Stmt → Prop
  | .empty => True
  | .mod name => Lexical.IsName name
  | .declare b initial => b.Proper ∧ ∀ x ∈ initial, x.Proper
  | .externalVariable b => b.Proper
  | .externalFunction h => h.Proper
  | .whileLoop test body => test.Proper ∧ Stmt.AllProper body
  | .ifElse test yes otherwise => test.Proper ∧ Stmt.AllProper yes ∧ otherwise.Proper
  | .returned value => value.Proper
  | .typeAlias name type => Lexical.IsName name ∧ type.Proper
  | .func h body => h.Proper ∧ Stmt.AllProper body
  | .expr value => value.Proper

def Otherwise.Proper : Otherwise → Prop
  | .nothing => True
  | .block body => Stmt.AllProper body
  | .further test yes otherwise => test.Proper ∧ Stmt.AllProper yes ∧ otherwise.Proper

def Stmt.AllProper : List Stmt → Prop
  | [] => True
  | s :: rest => s.Proper ∧ Stmt.AllProper rest

end

/-! ### Writing programs down -/

/-- Tokens with commas between the items. -/
def commaWords : List (List Word) → List Word
  | [] => []
  | [ws] => ws
  | ws :: rest => ws ++ Punct.comma.word :: commaWords rest

mutual

/-- The tokens of a type. -/
def TypeExpr.words : TypeExpr → List Word
  | .name path => Grammar.pathWords path
  | .pointer pointee => Punct.star.word :: pointee.words
  | .array size element =>
    Punct.openBracket.word :: (.number, Numeral.decimal size.toNat) :: Punct.closeBracket.word ::
      element.words
  | .slice element => Punct.openBracket.word :: Punct.closeBracket.word :: element.words
  | .func params returns =>
    Keyword.fnKw.word :: (grouped (commaWords (TypeExpr.itemWords params)) ++
      Punct.arrow.word :: returns.words)

/-- The tokens of each of the types. -/
def TypeExpr.itemWords : List TypeExpr → List (List Word)
  | [] => []
  | type :: rest => type.words :: TypeExpr.itemWords rest

end

mutual

/-- The tokens of an expression. -/
def Expr.words : Expr → List Word
  | .name path => Grammar.pathWords path
  | .number value => [(.number, Numeral.decimal value.toNat)]
  | .string text => [(.string, text)]
  | .boolean value => [if value then Keyword.trueKw.word else Keyword.falseKw.word]
  | .null => [Keyword.nullKw.word]
  | .binary left op right => left.words ++ op.punct.word :: right.words
  | .unary op argument => op.punct.word :: argument.words
  | .condition test yes no =>
    test.words ++ Punct.question.word :: (yes.words ++ Punct.colon.word :: no.words)
  | .call callee args => Grammar.pathWords callee ++ grouped (commaWords (Expr.itemWords args))
  | .assignment left op right => left.words ++ op.punct.word :: right.words
  | .parenthesized inner => grouped inner.words

/-- The tokens of each of the expressions. -/
def Expr.itemWords : List Expr → List (List Word)
  | [] => []
  | x :: rest => x.words :: Expr.itemWords rest

end

def Binding.words (b : Binding) : List Word :=
  (.identifier, b.name) :: Punct.colon.word :: b.type.words

/-- The tokens of each of the parameters, the mark of further ones included. -/
def Header.paramWords (h : Header) : List (List Word) :=
  h.params.map Binding.words ++ if h.variadic then [[Punct.ellipsis.word]] else []

def Header.words (h : Header) : List Word :=
  Keyword.fnKw.word :: (.identifier, h.name) :: (grouped (commaWords h.paramWords) ++
    Punct.arrow.word :: h.returns.words)

/-- The tokens of a block, given those of its statements. -/
def blockWords (ws : List Word) : List Word :=
  Keyword.doKw.word :: (ws ++ [Keyword.endKw.word])

mutual

/-- The tokens of a statement. -/
def Stmt.words : Stmt → List Word
  | .empty => [Punct.semicolon.word]
  | .mod name => [Keyword.mod.word, (.identifier, name)]
  | .declare b none => Keyword.letKw.word :: b.words
  | .declare b (some initial) =>
    Keyword.letKw.word :: (b.words ++ Punct.assign.word :: initial.words)
  | .externalVariable b => Keyword.external.word :: b.words
  | .externalFunction h => Keyword.external.word :: h.words
  | .whileLoop test body =>
    Keyword.whileKw.word :: (test.words ++ blockWords (Stmt.allWords body))
  | .ifElse test yes otherwise =>
    Keyword.ifKw.word :: (test.words ++ (blockWords (Stmt.allWords yes) ++ otherwise.words))
  | .returned value => Keyword.returnKw.word :: value.words
  | .typeAlias name type =>
    Keyword.typeKw.word :: (.identifier, name) :: Punct.assign.word :: type.words
  | .func h body => h.words ++ blockWords (Stmt.allWords body)
  | .expr value => value.words

/-- The tokens of what stands behind the first block of an `if`. -/
def Otherwise.words : Otherwise → List Word
  | .nothing => []
  | .block body => Keyword.elseKw.word :: blockWords (Stmt.allWords body)
  | .further test yes otherwise =>
    Keyword.elseKw.word :: Keyword.ifKw.word ::
      (test.words ++ (blockWords (Stmt.allWords yes) ++ otherwise.words))

/-- The tokens of statements, each with a semicolon behind it. -/
def Stmt.allWords : List Stmt → List Word
  | [] => []
  | s :: rest => s.words ++ Punct.semicolon.word :: Stmt.allWords rest

end

/-- The tokens as a text, with spaces between them. -/
def spaced (ws : List Word) : String :=
  Text.joined " " (ws.map Prod.snd)

/-- A program as a text. -/
def text (program : List Stmt) : String :=
  spaced (Stmt.allWords program)

end Plain

/-! ### What a surface program says -/

mutual

/-- The type without its places. -/
def TypeExpr.plain : TypeExpr → Plain.TypeExpr
  | .name path _ => .name path
  | .pointer pointee _ => .pointer pointee.plain
  | .array size element _ => .array size element.plain
  | .slice element _ => .slice element.plain
  | .func params returns _ => .func (TypeExpr.plains params) returns.plain

def TypeExpr.plains : List TypeExpr → List Plain.TypeExpr
  | [] => []
  | type :: rest => type.plain :: TypeExpr.plains rest

end

namespace Surface

mutual

/-- The expression without its places, unless part of it cannot be read. -/
def Expr.plain? : Expr → Option Plain.Expr
  | .ident id => some (.name id.path)
  | .binary left op right _ => do
    let left ← left.plain?
    return .binary left op (← right.plain?)
  | .unary op argument _ => return .unary op (← argument.plain?)
  | .condition test yes no _ => do
    let test ← test.plain?
    let yes ← yes.plain?
    return .condition test yes (← no.plain?)
  | .call callee args _ => return .call callee.path (← Expr.plains? args)
  | .assignment left op right _ => do
    let left ← left.plain?
    return .assignment left op (← right.plain?)
  | .parenthesized inner _ => return .parenthesized (← inner.plain?)
  | .number value _ => some (.number value)
  | .string text _ => some (.string text)
  | .boolean value _ => some (.boolean value)
  | .null _ => some .null
  | .bad _ | .stuck _ _ => none

def Expr.plains? : List Expr → Option (List Plain.Expr)
  | [] => some []
  | e :: rest => do
    let first ← e.plain?
    return first :: (← Expr.plains? rest)

end

def Binding.plain (b : Binding) : Plain.Binding :=
  ⟨b.name.text, b.typeUse.type.plain⟩

/-- The parameters, and whether the mark of further ones stands behind them. -/
def Param.plains? : List Param → Option (List Plain.Binding × Bool)
  | [] => some ([], false)
  | [.variadic] => some ([], true)
  | .binding b :: rest => do
    let (bs, more) ← Param.plains? rest
    return (b.plain :: bs, more)
  | _ => none

def Header.plain? (h : Header) : Option Plain.Header := do
  let (params, variadic) ← Param.plains? h.params
  let returns ← h.returns.toOption
  return ⟨h.name.text, params, variadic, returns.type.plain⟩

mutual

/-- The statement without its places, unless part of it cannot be read. -/
def Stmt.plain? : Stmt → Option Plain.Stmt
  | .empty _ => some .empty
  | .mod name _ => some (.mod name.text)
  | .declare b none _ => some (.declare b.plain none)
  | .declare b (some initial) _ => return .declare b.plain (some (← initial.plain?))
  | .externalVariable b _ _ => some (.externalVariable b.plain)
  | .externalFunction h _ _ => return .externalFunction (← h.plain?)
  | .whileLoop test (.mk body _) _ => do
    let test ← test.plain?
    return .whileLoop test (← Stmt.plains? body)
  | .ifThen test (.mk yes _) _ => do
    let test ← test.plain?
    return .ifElse test (← Stmt.plains? yes) .nothing
  | .ifElse test (.mk yes _) no _ => do
    let test ← test.plain?
    let yes ← Stmt.plains? yes
    return .ifElse test yes (← no.otherwise?)
  | .returned value _ => return .returned (← value.plain?)
  | .typeAlias name type _ => some (.typeAlias name.text type.type.plain)
  | .func h (.mk body _) _ => do
    let h ← h.plain?
    return .func h (← Stmt.plains? body)
  | .expr value _ => return .expr (← value.plain?)
  | .bad _ | .stuck _ _ => none

/-- What an alternative says: a further `if` is the only statement, without a semicolon. -/
def Block.otherwise? : Block → Option Plain.Otherwise
  | .mk [.ifThen test (.mk yes _) _] _ => do
    let test ← test.plain?
    return .further test (← Stmt.plains? yes) .nothing
  | .mk [.ifElse test (.mk yes _) no _] _ => do
    let test ← test.plain?
    let yes ← Stmt.plains? yes
    return .further test yes (← no.otherwise?)
  | .mk body _ => return .block (← Stmt.plains? body)

/-- The statements without the semicolon behind each of them, which has to be there. -/
def Stmt.plains? : List Stmt → Option (List Plain.Stmt)
  | [] => some []
  | s :: .empty _ :: rest => do
    let first ← s.plain?
    return first :: (← Stmt.plains? rest)
  | _ => none

end

end Surface
end BlockC

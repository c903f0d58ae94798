import BlockC.Grammar.Level
import BlockC.Tree.Node

/-! # The grammar

What the parser can be asked to read, and how each of these productions goes on after its first
token.  A production is read as a list of parts: tokens of a fixed kind, further productions, and
choices that the next token decides.  Parts name the field under which their node is recorded.
-/
namespace BlockC
namespace Grammar

/-- Something that can be read from a list of tokens. -/
inductive Production where
  /-- An expression whose operators hold tighter than the given level. -/
  | expr (above : Level)
  /-- A literal value. -/
  | literal
  /-- A name, possibly dotted. -/
  | name
  /-- A sign and its operand. -/
  | signed
  /-- An expression in parentheses. -/
  | parenthesized
  | typeExpr
  | pointerType
  /-- An array type, or a slice type if no size is given. -/
  | arrayType
  | funcType
  /-- The parameter types of a function type. -/
  | typeList
  | stmt
  | mod
  | typedIdent
  | declare
  | params
  /-- The mark of further parameters. -/
  | variadic
  | codeblock
  | external
  | externalFunction
  | externalVariable
  | func
  | typeAlias
  | whileLoop
  | ifElse
  | returned
deriving DecidableEq, Repr

/-- A point where the next token decides how to go on. -/
inductive Choice where
  /-- A further segment of a dotted name. -/
  | segments
  /-- The arguments of a call, if there are any. -/
  | arguments
  /-- A further argument. -/
  | moreArguments
  /-- The types of a type list, if there are any. -/
  | types
  /-- A further type. -/
  | moreTypes
  /-- The size of an array type, or none for a slice type. -/
  | size
  /-- The initial value of a declaration. -/
  | initial
  /-- The part of an `if` after its first block. -/
  | otherwise
  /-- A block or a further `if`. -/
  | alternative
  /-- A function or a variable. -/
  | externalForm
  /-- The parameters of a function, if there are any. -/
  | parameters
  /-- The end of the parameters, or a comma and a further one. -/
  | moreParameters
  /-- One parameter, or the mark of further ones. -/
  | parameter
  /-- The statements of a block. -/
  | statements
  /-- The statements of a source file. -/
  | topLevel
deriving DecidableEq, Repr

/-- A part of a production that is still to be read. -/
inductive Part where
  | token (kind : Kind) (field : Option String)
  | node (production : Production) (field : Option String)
  /-- A production that is being read. -/
  | hole (field : Option String)
  | choice (choice : Choice)
deriving DecidableEq, Repr

/-- A token without a field. -/
def Part.mark (p : Punct) : Part :=
  .token (.punct p) none

/-- A reserved word without a field. -/
def Part.word (k : Keyword) : Part :=
  .token (.keyword k) none

/-- How a choice goes on before a token of the given kind. -/
def Choice.expand : Choice → Kind → List Part
  | .segments, .punct .dot => [.mark .dot, .token .identifier none, .choice .segments]
  | .segments, _ => []
  | .arguments, .punct .closeParen => []
  | .arguments, _ => [.node (.expr .lowest) none, .choice .moreArguments]
  | .moreArguments, .punct .comma =>
    [.mark .comma, .node (.expr .lowest) none, .choice .moreArguments]
  | .moreArguments, _ => []
  | .types, .punct .closeParen => []
  | .types, _ => [.node .typeExpr none, .choice .moreTypes]
  | .moreTypes, .punct .comma => [.mark .comma, .node .typeExpr none, .choice .moreTypes]
  | .moreTypes, _ => []
  | .size, .punct .closeBracket => [.mark .closeBracket, .node .typeExpr (some "element")]
  | .size, _ =>
    [.token .number (some "size"), .mark .closeBracket, .node .typeExpr (some "element")]
  | .initial, .punct .assign => [.mark .assign, .node (.expr .lowest) (some "initial")]
  | .initial, _ => []
  | .otherwise, .keyword .elseKw => [.word .elseKw, .choice .alternative]
  | .otherwise, _ => []
  | .alternative, .keyword .ifKw => [.node .ifElse (some "alternative")]
  | .alternative, _ => [.node .codeblock (some "alternative")]
  | .externalForm, .keyword .fnKw => [.node .externalFunction none]
  | .externalForm, _ => [.node .externalVariable none]
  | .parameters, .punct .closeParen => []
  | .parameters, .punct .ellipsis => [.node .variadic none]
  | .parameters, _ => [.node .typedIdent none, .choice .moreParameters]
  | .moreParameters, .punct .closeParen => []
  | .moreParameters, _ => [.mark .comma, .choice .parameter]
  | .parameter, .punct .ellipsis => [.node .variadic none]
  | .parameter, _ => [.node .typedIdent none, .choice .moreParameters]
  | .statements, .keyword .endKw => []
  | .statements, .eof => []
  | .statements, _ => [.node .stmt none, .choice .statements]
  | .topLevel, .eof => []
  | .topLevel, _ => [.node .stmt none, .choice .topLevel]

/-- The kind that a node takes on when a choice goes on before a token of the given kind, if that
changes it. -/
def Choice.rename? : Choice → Kind → Option String
  | .size, .punct .closeBracket => some "slice_type"
  | _, _ => none

/-- A production under way. -/
inductive Frame where
  /-- A node of the given kind, with the children read so far, the last one first, and the parts
  still to come. -/
  | partly (kind : String) (done : List Node) (todo : List Part)
  /-- The operand of an expression is being read. -/
  | operand (above : Level)
  /-- An operand is complete; operators tighter than the level may follow. -/
  | operators (left : Node) (above : Level)
  /-- A node that is complete by itself. -/
  | complete (node : Node)

/-- A node of the given kind that starts with the token `t`. -/
def opened (kind : String) (t : Token) (field : Option String) (todo : List Part) : Frame :=
  .partly kind [(Node.leaf t).inField field] todo

/-- What was required where no token fits. -/
structure Request where
  kind : String
  named : Bool
deriving DecidableEq, Repr

/-- The request for a token of a kind. -/
def Request.token (k : Kind) : Request :=
  ⟨k.tag, k.isNamed⟩

/-- The request for an expression. -/
def Request.expr : Request :=
  ⟨"expr", true⟩

/-- The request for a type. -/
def Request.typeExpr : Request :=
  ⟨"type_expr", true⟩

/-- An operand or an operation, as a node of its own. -/
def wrapped (inner : Node) : Node :=
  .assemble "expr" inner.start [inner.inField none]

/-- A name after its first segment. -/
def nameFrom (t : Token) : Frame :=
  opened "ident_expr" t none [.choice .segments]

/-- A sign before its operand. -/
def signedFrom (t : Token) : Frame :=
  opened "unary_expr" t (some "operator") [.node (.expr .unary) (some "argument")]

/-- An open parenthesis before an expression. -/
def parenthesizedFrom (t : Token) : Frame :=
  opened "parenthesized_expr" t none [.node (.expr .lowest) none, .mark .closeParen]

/-- The frames that read an expression from its first token on. -/
def exprFrom (above : Level) (t : Token) : Except Request (List Frame) :=
  if t.kind.isLiteral then .ok [.operators (wrapped (.leaf t)) above]
  else if t.kind = .identifier then .ok [nameFrom t, .operand above]
  else if t.kind = .punct .openParen then .ok [parenthesizedFrom t, .operand above]
  else if t.kind.isSign then .ok [signedFrom t, .operand above]
  else .error .expr

/-- A pointer type after its star. -/
def pointerTypeFrom (t : Token) : Frame :=
  opened "pointer_type" t none [.node .typeExpr (some "pointee")]

/-- An array or slice type after its bracket. -/
def arrayTypeFrom (t : Token) : Frame :=
  opened "array_type" t none [.choice .size]

/-- A function type after its first word. -/
def funcTypeFrom (t : Token) : Frame :=
  opened "func_type" t none
    [.node .typeList (some "params"), .mark .arrow, .node .typeExpr (some "returns")]

/-- The frames that read a type from its first token on. -/
def typeFrom (t : Token) : Except Request (List Frame) :=
  match t.kind with
  | .identifier => .ok [nameFrom t, .partly "type_expr" [] [.hole none]]
  | .punct .star => .ok [pointerTypeFrom t, .partly "type_expr" [] [.hole none]]
  | .punct .openBracket => .ok [arrayTypeFrom t, .partly "type_expr" [] [.hole none]]
  | .keyword .fnKw => .ok [funcTypeFrom t, .partly "type_expr" [] [.hole none]]
  | _ => .error .typeExpr

/-- A module statement after its first word. -/
def modFrom (t : Token) : Frame :=
  opened "mod" t none [.token .identifier (some "name")]

/-- A declaration after its first word. -/
def declareFrom (t : Token) : Frame :=
  opened "declare" t none [.node .typedIdent (some "typed_ident"), .choice .initial]

/-- An external declaration after its first word. -/
def externalFrom (t : Token) : Frame :=
  opened "external" t none [.choice .externalForm]

/-- An external function after `fn`. -/
def externalFunctionFrom (t : Token) : Frame :=
  opened "external_function" t none
    [.token .identifier (some "func_name"), .node .params (some "params"), .mark .arrow,
     .node .typeExpr (some "returns")]

/-- A function after `fn`. -/
def funcFrom (t : Token) : Frame :=
  opened "func" t none
    [.token .identifier (some "func_name"), .node .params (some "params"), .mark .arrow,
     .node .typeExpr (some "returns"), .node .codeblock (some "body")]

/-- A type alias after its first word. -/
def typeAliasFrom (t : Token) : Frame :=
  opened "type_alias" t none
    [.token .identifier (some "ident"), .mark .assign, .node .typeExpr (some "typing")]

/-- A loop after its first word. -/
def whileFrom (t : Token) : Frame :=
  opened "while" t none
    [.node (.expr .lowest) (some "condition"), .node .codeblock (some "body")]

/-- An `if` after its first word. -/
def ifFrom (t : Token) : Frame :=
  opened "if" t none
    [.node (.expr .lowest) (some "condition"), .node .codeblock (some "consequence"),
     .choice .otherwise]

/-- A return statement after its first word. -/
def returnFrom (t : Token) : Frame :=
  opened "return" t none [.node (.expr .lowest) (some "returns")]

/-- The statement that a token starts, if it is not an expression. -/
def stmtFrame? (t : Token) : Option Frame :=
  match t.kind with
  | .punct .semicolon => some (opened "empty" t none [])
  | .keyword .mod => some (modFrom t)
  | .keyword .letKw => some (declareFrom t)
  | .keyword .external => some (externalFrom t)
  | .keyword .fnKw => some (funcFrom t)
  | .keyword .typeKw => some (typeAliasFrom t)
  | .keyword .whileKw => some (whileFrom t)
  | .keyword .ifKw => some (ifFrom t)
  | .keyword .returnKw => some (returnFrom t)
  | _ => none

/-- The frames that read a statement from its first token on. -/
def stmtFrom (t : Token) : Except Request (List Frame) :=
  match stmtFrame? t with
  | some f => .ok [f, .partly "stmt" [] [.hole none]]
  | none => (exprFrom .lowest t).map (· ++ [.partly "stmt" [] [.hole none]])

/-- The frames that read what follows a token of a required kind. -/
def requiring (k : Kind) (t : Token) (frames : List Frame) : Except Request (List Frame) :=
  if t.kind = k then .ok frames else .error (.token k)

/-- A typed identifier after its name. -/
def typedIdentFrom (t : Token) : Frame :=
  opened "typed_ident" t (some "ident") [.mark .colon, .node .typeExpr (some "typing")]

/-- The frames that read a production from its first token on, outermost last.  Forms that are
chosen by their first word take any token for it. -/
def Production.begin (p : Production) (t : Token) : Except Request (List Frame) :=
  match p with
  | .expr above => exprFrom above t
  | .literal => if t.kind.isLiteral then .ok [.complete (.leaf t)] else .error .expr
  | .name => requiring .identifier t [nameFrom t]
  | .signed => .ok [signedFrom t]
  | .parenthesized => .ok [parenthesizedFrom t]
  | .typeExpr => typeFrom t
  | .pointerType => .ok [pointerTypeFrom t]
  | .arrayType => .ok [arrayTypeFrom t]
  | .funcType => .ok [funcTypeFrom t]
  | .typeList =>
    requiring (.punct .openParen) t
      [opened "type_list" t none [.choice .types, .mark .closeParen]]
  | .stmt => stmtFrom t
  | .mod => .ok [modFrom t]
  | .typedIdent => requiring .identifier t [typedIdentFrom t]
  | .declare => .ok [declareFrom t]
  | .params =>
    requiring (.punct .openParen) t
      [opened "params" t none [.choice .parameters, .mark .closeParen]]
  | .variadic => .ok [opened "variadic" t none []]
  | .codeblock =>
    requiring (.keyword .doKw) t
      [opened "codeblock" t none [.choice .statements, .word .endKw]]
  | .external => .ok [externalFrom t]
  | .externalFunction => .ok [externalFunctionFrom t]
  | .externalVariable =>
    requiring .identifier t
      [typedIdentFrom t, .partly "external_variable" [] [.hole (some "typed_ident")]]
  | .func => .ok [funcFrom t]
  | .typeAlias => .ok [typeAliasFrom t]
  | .whileLoop => .ok [whileFrom t]
  | .ifElse => .ok [ifFrom t]
  | .returned => .ok [returnFrom t]

end Grammar
end BlockC

import BlockC.Symbol.Handle
import BlockC.Text.Position
import BlockC.Text.Quoted

/-! # Diagnostics

Why a source text is refused, where, and in which words.  The first cause that is met is the one
that is reported.
-/
namespace BlockC

/-- Why a source text is refused. -/
inductive Cause where
  /-- Text that fits nowhere. -/
  | invalidSyntax (found : String)
  /-- Something required at the end of the text. -/
  | missingSyntax (expected : String)
  /-- A name that is not declared. -/
  | unresolvedSymbol (name : String)
  /-- A name that its scope has already. -/
  | redefinition (name : String)
  /-- A name in place of a type that is not one. -/
  | notAType (name : String)
  /-- A call of something that is not a function. -/
  | notCallable (name : String)
  /-- A type that cannot stand where it does. -/
  | typingMisuse (message : String)
  /-- A function with a body and an open list of parameters. -/
  | variadicDefinition (function : String)
  /-- A number that cannot be read. -/
  | numberParse (literal : String)
  /-- A tree that is no program. -/
  | malformedTree (message : String)
  /-- A symbol without the type that is needed to write it. -/
  | incompleteSymbol (name : String)
  /-- A handle that refers to no symbol. -/
  | danglingSymbol (id : SymbolId)
deriving DecidableEq, Repr

/-- The two classes of causes. -/
inductive Category where
  /-- Seen in the tree alone. -/
  | form
  /-- Seen when names and types are bound, or when code is written. -/
  | meaning
deriving DecidableEq, Repr

namespace Cause

/-- The class of a cause. -/
def category : Cause → Category
  | .invalidSyntax _ | .missingSyntax _ => .form
  | _ => .meaning

/-- The name of a cause. -/
def name : Cause → String
  | .invalidSyntax _ => "InvalidSyntax"
  | .missingSyntax _ => "MissingSyntax"
  | .unresolvedSymbol _ => "UnresolvedSymbol"
  | .redefinition _ => "Redefinition"
  | .notAType _ => "NotAType"
  | .notCallable _ => "NotCallable"
  | .typingMisuse _ => "TypingMisuse"
  | .variadicDefinition _ => "VariadicDefinition"
  | .numberParse _ => "NumberParseError"
  | .malformedTree _ => "MalformedTree"
  | .incompleteSymbol _ => "IncompleteSymbol"
  | .danglingSymbol _ => "DanglingSymbol"

open Text (quoted)

/-- What the cause says, without its place. -/
def message : Cause → String
  | .invalidSyntax found => "syntax error near " ++ quoted found
  | .missingSyntax expected => "syntax error: missing " ++ quoted expected
  | .unresolvedSymbol name => "unresolved symbol " ++ quoted name
  | .redefinition name => "symbol " ++ quoted name ++ " redefined in the same scope"
  | .notAType name => quoted name ++ " is not a type"
  | .notCallable name => quoted name ++ " is not callable"
  | .typingMisuse message => "typing used in the wrong position: " ++ message
  | .variadicDefinition function => "user function " ++ quoted function ++ " cannot be variadic"
  | .numberParse literal => "error parsing number: " ++ quoted literal
  | .malformedTree message => "unexpected tree shape: " ++ message
  | .incompleteSymbol name => "symbol " ++ quoted name ++ " has no resolved typing"
  | .danglingSymbol id => "no symbol " ++ id.shown

/-- Advice to the reader, if there is any. -/
def tip? : Cause → Option String
  | .invalidSyntax found => some ("Unexpected input starting at `" ++ found ++ "`")
  | .missingSyntax expected => some ("Expected `" ++ expected ++ "` before the end of input")
  | .unresolvedSymbol name => some ("`" ++ name ++ "` is not declared in this scope")
  | .redefinition name => some ("`" ++ name ++ "` is already declared in this scope")
  | .notAType name => some ("`" ++ name ++ "` does not name a type")
  | .notCallable name => some ("`" ++ name ++ "` is not a function")
  | .typingMisuse message => some message
  | .variadicDefinition function =>
    some ("`" ++ function ++ "` takes `...`, only external functions may be variadic")
  | .numberParse literal =>
    some ("Invalid number: `" ++ literal ++ "`, is it above the integer limit?")
  | .malformedTree _ | .incompleteSymbol _ | .danglingSymbol _ => none

end Cause

/-- A cause and its place. -/
structure Diagnostic where
  cause : Cause
  pos : Position
deriving DecidableEq, Repr

/-- What a diagnostic says, if its place can be shown. -/
def Diagnostic.message? (d : Diagnostic) : Option String :=
  d.pos.shown?.map fun place => d.cause.message ++ " at " ++ place

end BlockC

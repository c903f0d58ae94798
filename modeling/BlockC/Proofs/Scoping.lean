import BlockC.Proofs.BoundProgram
import BlockC.Proofs.Frames
import Mathlib.Data.List.Forall2

/-! # Lexical scoping

A reading of programs by a stack of frames alone, without symbol tables.  A function has a frame for
its parameters and what its body declares, and its own name is in the frame around it once its
signature is read.  Each block has a frame that ends with it; a module has one that stays until the
block or the file around it ends.  What a declaration declares is known behind it, so not in its own
initial value.

Said of a bound program, this fixes what its names are bound to (`Stmt.Scoped`).  Said of a program
before its names are bound, it finds the first name that is not declared or is declared twice
(`Scoping.stmts`).
-/
namespace BlockC

/-! ### Names of types -/

mutual

/-- The names in a type, in order, segment by segment. -/
def TypeExpr.paths : TypeExpr → List (List String)
  | .name path _ => [path]
  | .pointer pointee _ => pointee.paths
  | .array _ element _ => element.paths
  | .slice element _ => element.paths
  | .func params returns _ => TypeExpr.allPaths params ++ returns.paths

/-- The names in types, in order. -/
def TypeExpr.allPaths : List TypeExpr → List (List String)
  | [] => []
  | type :: rest => type.paths ++ TypeExpr.allPaths rest

end

mutual

/-- The symbols in a typing, in order. -/
def Typing.refs : Typing → List SymbolId
  | .ref symbol _ => [symbol]
  | .signature params returns _ => Typing.allRefs params ++ returns.refs

/-- The symbols in typings, in order. -/
def Typing.allRefs : List Typing → List SymbolId
  | [] => []
  | typing :: rest => typing.refs ++ Typing.allRefs rest

end

/-- What the frames say about a name.  They say nothing about dotted names. -/
def Frames.Means (frames : Frames) (path : List String) (symbol : SymbolId) : Prop :=
  ∀ name, path = [name] → frames.resolve name = some symbol

/-- A typing whose symbols are what the names in the type mean. -/
def TypeExpr.Denotes (frames : Frames) (type : TypeExpr) (typing : Typing) : Prop :=
  List.Forall₂ frames.Means type.paths typing.refs

/-! ### Bound programs -/

namespace Bound

/-- An expression whose names mean what the frames say. -/
def Expr.Scoped (frames : Frames) (e : Expr) : Prop :=
  ∀ id ∈ e.idents, frames.Means id.path id.symbol

/-- The frames behind declared names. -/
def framesAfter (frames : Frames) : List Binding → Frames
  | [] => frames
  | b :: rest => framesAfter (frames.add b.name b.symbol) rest

/-- Declared names with types that mean what the frames say, each behind those before it. -/
def Binding.AllScoped (frames : Frames) : List Binding → Prop
  | [] => True
  | b :: rest => frames.declares b.name = false ∧ b.type.Denotes frames b.typing ∧
      Binding.AllScoped (frames.add b.name b.symbol) rest

/-- A function whose types mean what the frames say: its parameters are in a frame of their own, in
which the type that it returns is looked up as well. -/
def Header.Scoped (t : Table) (frames : Frames) (h : Header) : Prop :=
  frames.declares h.name = false ∧ Binding.AllScoped ([] :: frames) h.params ∧
    ∃ external returns, t.Declares h.symbol h.name .func
      (some (.signature (h.params.map (·.typing)) returns h.variadic)) external ∧
      h.returns.Denotes (framesAfter ([] :: frames) h.params) returns

/-- The frames in which the body of a function stands. -/
def Header.frames (frames : Frames) (h : Header) : Frames :=
  h.params.map (fun b => (b.name, b.symbol)) :: frames.add h.name h.symbol

/-- The frames behind a statement. -/
def Stmt.framesBehind (frames : Frames) : Stmt → Frames
  | .mod name symbol _ => [] :: frames.add name symbol
  | .declare b _ _ | .externalVariable b _ => frames.add b.name b.symbol
  | .externalFunction h _ _ | .func h _ _ => frames.add h.name h.symbol
  | .typeAlias name _ symbol _ => frames.add name symbol
  | .empty _ | .whileLoop _ _ _ | .ifThen _ _ _ | .ifElse _ _ _ _ | .returned _ _ | .expr _ _ =>
    frames

mutual

/-- A statement whose names mean what the frames say, and whose declarations are new to the
innermost frame. -/
def Stmt.Scoped (t : Table) (frames : Frames) : Stmt → Prop
  | .empty _ => True
  | .mod name _ _ => frames.declares name = false
  | .declare b initial _ => (∀ e ∈ initial, e.Scoped frames) ∧ Binding.AllScoped frames [b]
  | .externalVariable b _ => Binding.AllScoped frames [b]
  | .externalFunction h _ _ => h.Scoped t frames
  | .whileLoop test body _ => test.Scoped frames ∧ body.Scoped t frames
  | .ifThen test yes _ => test.Scoped frames ∧ yes.Scoped t frames
  | .ifElse test yes no _ => test.Scoped frames ∧ yes.Scoped t frames ∧ no.Scoped t frames
  | .returned value _ => value.Scoped frames
  | .typeAlias name type symbol _ => frames.declares name = false ∧
      ∃ typing, t.Declares symbol name .typeName (some typing) false ∧ type.Denotes frames typing
  | .func h (.mk body _ _) _ => h.Scoped t frames ∧ Stmt.AllScoped t (h.frames frames) body
  | .expr value _ => value.Scoped frames

/-- A block whose statements stand in a frame of their own. -/
def Block.Scoped (t : Table) (frames : Frames) : Block → Prop
  | .mk stmts _ _ => Stmt.AllScoped t ([] :: frames) stmts

/-- Statements whose names mean what the frames behind those before them say. -/
def Stmt.AllScoped (t : Table) (frames : Frames) : List Stmt → Prop
  | [] => True
  | s :: rest => s.Scoped t frames ∧ Stmt.AllScoped t (s.framesBehind frames) rest

end

theorem Header.Scoped.mono {scope : SymbolId} {t t' : Table} (ht : t.Grows scope t')
    {frames : Frames} {h : Header} (hs : h.Scoped t frames) : h.Scoped t' frames := by
  obtain ⟨hnew, hparams, external, returns, hdeclares, hreturns⟩ := hs
  exact ⟨hnew, hparams, external, returns, hdeclares.mono ht, hreturns⟩

mutual

theorem Stmt.Scoped.mono {scope : SymbolId} {t t' : Table} (ht : t.Grows scope t')
    {frames : Frames} : {s : Stmt} → s.Scoped t frames → s.Scoped t' frames
  | .empty _, _ => trivial
  | .mod _ _ _, h | .declare _ _ _, h | .externalVariable _ _, h | .returned _ _, h
  | .expr _ _, h => h
  | .externalFunction _ _ _, h => Header.Scoped.mono ht h
  | .whileLoop _ _ _, h => ⟨h.1, h.2.mono ht⟩
  | .ifThen _ _ _, h => ⟨h.1, h.2.mono ht⟩
  | .ifElse _ _ _ _, h => ⟨h.1, h.2.1.mono ht, h.2.2.mono ht⟩
  | .typeAlias _ _ _ _, h => by
    obtain ⟨hnew, typing, hdeclares, hdenotes⟩ := h
    exact ⟨hnew, typing, hdeclares.mono ht, hdenotes⟩
  | .func _ (.mk _ _ _) _, h => ⟨h.1.mono ht, Stmt.AllScoped.mono ht h.2⟩

theorem Block.Scoped.mono {scope : SymbolId} {t t' : Table} (ht : t.Grows scope t')
    {frames : Frames} : {b : Block} → b.Scoped t frames → b.Scoped t' frames
  | .mk _ _ _, h => Stmt.AllScoped.mono ht h

theorem Stmt.AllScoped.mono {scope : SymbolId} {t t' : Table} (ht : t.Grows scope t')
    {frames : Frames} : {ss : List Stmt} → Stmt.AllScoped t frames ss → Stmt.AllScoped t' frames ss
  | [], _ => trivial
  | _ :: _, h => ⟨h.1.mono ht, Stmt.AllScoped.mono ht h.2⟩

end

end Bound

/-! ### The first fault of scoping -/

/-- A name that is not declared, or is declared twice. -/
def Cause.IsScoping : Cause → Prop
  | .unresolvedSymbol _ | .redefinition _ => True
  | _ => False

namespace Scoping

open Surface

/-- The names of each frame, the innermost first. -/
abbrev Names := List (List String)

/-- Finds a name in some frame, or among the built-in types.  Dotted names are passed over. -/
def look (names : Names) (path : List String) (pos : Position) : Except Diagnostic Unit :=
  match path with
  | [name] =>
    if names.any (·.contains name) || (builtin? name).isSome then .ok ()
    else .error ⟨.unresolvedSymbol name, pos⟩
  | _ => .ok ()

/-- Puts a name into the innermost frame, which may not have it. -/
def declare (names : Names) (name : Name) : Except Diagnostic Names :=
  match names with
  | [] => .ok []
  | frame :: rest =>
    if frame.contains name.text then .error ⟨.redefinition name.text, name.pos⟩
    else .ok ((frame ++ [name.text]) :: rest)

mutual

/-- Finds the names of an expression. -/
def expr (names : Names) : Expr → Except Diagnostic Unit
  | .ident id => look names id.path id.span.start
  | .binary left _ right _ => do
    expr names left
    expr names right
  | .unary _ argument _ => expr names argument
  | .condition test yes no _ => do
    expr names test
    expr names yes
    expr names no
  | .call callee args _ => do
    look names callee.path callee.span.start
    exprs names args
  | .assignment left _ right _ => do
    expr names left
    expr names right
  | .parenthesized inner _ => expr names inner
  | .number _ _ | .string _ _ | .boolean _ _ | .null _ | .bad _ => .ok ()
  | .stuck first _ => expr names first

/-- Finds the names of expressions. -/
def exprs (names : Names) : List Expr → Except Diagnostic Unit
  | [] => .ok ()
  | e :: rest => do
    expr names e
    exprs names rest

end

/-- Finds names that stand at one place. -/
def lookAll (names : Names) (pos : Position) : List (List String) → Except Diagnostic Unit
  | [] => .ok ()
  | path :: rest => do
    look names path pos
    lookAll names pos rest

/-- Finds the names of a type. -/
def typeUse (names : Names) (a : TypeUse) : Except Diagnostic Unit :=
  lookAll names a.pos a.type.paths

/-- Finds the names of a type, and declares a name of it. -/
def binding (names : Names) (b : Binding) : Except Diagnostic Names := do
  typeUse names b.typeUse
  declare names b.name

/-- Declares parameters. -/
def params (names : Names) : List Param → Except Diagnostic Names
  | [] => .ok names
  | .binding b :: rest => do params (← binding names b) rest
  | .variadic :: rest | .bad _ :: rest => params names rest

/-- Reads the signature of a function, and then declares the function.  The frame of the parameters
comes first. -/
def header (names : Names) (h : Header) : Except Diagnostic Names := do
  let inner ← params ([] :: names) h.params
  match h.returns with
  | .ok a => typeUse inner a
  | .error _ => .ok ()
  let outer ← declare names h.name
  return inner.head?.getD [] :: outer

/-- Finds the names of an initial value. -/
def initialValue (names : Names) : Option Expr → Except Diagnostic Unit
  | none => .ok ()
  | some e => expr names e

mutual

/-- Finds the names of a statement, and gives the frames behind it. -/
def stmt (names : Names) : Stmt → Except Diagnostic Names
  | .empty _ | .bad _ => .ok names
  | .mod name _ => do return [] :: (← declare names name)
  | .declare b initial _ => do
    initialValue names initial
    binding names b
  | .externalVariable b _ _ => binding names b
  | .externalFunction h _ _ => do return (← header names h).tail
  | .whileLoop test body _ => do
    expr names test
    block names body
    return names
  | .ifThen test yes _ => do
    expr names test
    block names yes
    return names
  | .ifElse test yes no _ => do
    expr names test
    block names yes
    block names no
    return names
  | .returned value _ | .expr value _ | .stuck value _ => do
    expr names value
    return names
  | .typeAlias name a _ => do
    typeUse names a
    declare names name
  | .func h (.mk body _) _ => do
    let inner ← header names h
    let _ ← stmts inner body
    return inner.tail

/-- Finds the names of a block, in a frame of its own. -/
def block (names : Names) : Block → Except Diagnostic Unit
  | .mk body _ => do
    let _ ← stmts ([] :: names) body
    return ()

/-- Finds the names of statements, and gives the frames behind them. -/
def stmts (names : Names) : List Stmt → Except Diagnostic Names
  | [] => .ok names
  | s :: rest => do stmts (← stmt names s) rest

end

end Scoping
end BlockC

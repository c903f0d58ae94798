import BlockC.Proofs.Lexemes
import BlockC.Proofs.Outcome
import BlockC.Surface.Program

/-! # Proper programs

The surface programs that come from a text in order, rather than from any tree.  Names are words
that are not reserved, string literals stand in quotes, and the target of an assignment is not
itself an assignment.  Nothing in such a program is unreadable but number literals that are too
large.
-/
namespace BlockC

/-- A number literal that cannot be read is the only thing wrong. -/
def Diagnostic.IsNumberParse (d : Diagnostic) : Prop :=
  ∃ literal, d.cause = .numberParse literal

/-- One name or more. -/
def IsPath (path : List String) : Prop :=
  path ≠ [] ∧ ∀ s ∈ path, Lexical.IsName s

instance decidableIsPath : DecidablePred IsPath :=
  fun path => inferInstanceAs (Decidable (path ≠ [] ∧ ∀ s ∈ path, Lexical.IsName s))

/-- What was read is as it should be, or a number literal could not be read. -/
abbrev Reading {α : Type} (P : α → Prop) (r : Except Diagnostic α) : Prop :=
  Meets P Diagnostic.IsNumberParse r

mutual

/-- A type whose names are names. -/
def TypeExpr.Proper : TypeExpr → Prop
  | .name path _ => IsPath path
  | .pointer pointee _ => pointee.Proper
  | .array _ element _ => element.Proper
  | .slice element _ => element.Proper
  | .func params returns _ => TypeExpr.AllProper params ∧ returns.Proper

/-- Types whose names are names. -/
def TypeExpr.AllProper : List TypeExpr → Prop
  | [] => True
  | t :: rest => t.Proper ∧ TypeExpr.AllProper rest

end

namespace Surface

/-- Whether an expression stores a value. -/
def Expr.isAssignment : Expr → Bool
  | .assignment _ _ _ _ => true
  | _ => false

mutual

/-- An expression as a text in order has it. -/
def Expr.Proper : Expr → Prop
  | .ident id => IsPath id.path
  | .binary left _ right _ => left.Proper ∧ right.Proper
  | .unary _ argument _ => argument.Proper
  | .condition test yes no _ => test.Proper ∧ yes.Proper ∧ no.Proper
  | .call callee args _ => IsPath callee.path ∧ Expr.AllProper args
  | .assignment left _ right _ => left.Proper ∧ left.isAssignment = false ∧ right.Proper
  | .parenthesized inner _ => inner.Proper
  | .number _ _ => True
  | .string text _ => Lexical.IsQuoted text
  | .boolean _ _ => True
  | .null _ => True
  | .bad d => d.IsNumberParse
  | .stuck _ _ => False

/-- Expressions as a text in order has them. -/
def Expr.AllProper : List Expr → Prop
  | [] => True
  | e :: rest => e.Proper ∧ Expr.AllProper rest

end

/-- What is asked of the parts of a program. -/
structure Standard where
  name : String → Prop
  type : TypeExpr → Prop
  expr : Expr → Prop
  /-- What is asked of the diagnostics that stand in for other parts. -/
  fault : Diagnostic → Prop

section
variable (S : Standard)

/-- A name with a type that meet a standard. -/
def Binding.Over (b : Binding) : Prop :=
  S.name b.name.text ∧ S.type b.typeUse.type

/-- An item of a parameter list that meets a standard. -/
def Param.Over : Param → Prop
  | .binding b => b.Over S
  | .variadic => True
  | .bad d => S.fault d

/-- A function without its body that meets a standard. -/
def Header.Over (h : Header) : Prop :=
  S.name h.name.text ∧ (∀ p ∈ h.params, p.Over S) ∧ Meets (fun a => S.type a.type) S.fault h.returns

mutual

/-- A statement whose parts meet a standard. -/
def Stmt.Over : Stmt → Prop
  | .empty _ => True
  | .mod name _ => S.name name.text
  | .declare b initial _ => b.Over S ∧ ∀ e ∈ initial, S.expr e
  | .externalVariable b _ _ => b.Over S
  | .externalFunction h _ _ => h.Over S
  | .whileLoop test body _ => S.expr test ∧ body.Over
  | .ifThen test yes _ => S.expr test ∧ yes.Over
  | .ifElse test yes no _ => S.expr test ∧ yes.Over ∧ no.Over
  | .returned value _ => S.expr value
  | .typeAlias name a _ => S.name name.text ∧ S.type a.type
  | .func h body _ => h.Over S ∧ body.Over
  | .expr value _ => S.expr value
  | .bad d => S.fault d
  | .stuck first d => S.expr first ∧ S.fault d

/-- A block whose parts meet a standard. -/
def Block.Over : Block → Prop
  | .mk stmts _ => Stmt.AllOver stmts

/-- Statements whose parts meet a standard. -/
def Stmt.AllOver : List Stmt → Prop
  | [] => True
  | s :: rest => s.Over ∧ Stmt.AllOver rest

end
end

/-- What a text in order is up to. -/
def proper : Standard where
  name := Lexical.IsName
  type := TypeExpr.Proper
  expr := Expr.Proper
  fault := Diagnostic.IsNumberParse

/-- A name with a type, as a text in order has it. -/
abbrev Binding.Proper (b : Binding) : Prop := b.Over proper

/-- An item of a parameter list, as a text in order has it. -/
abbrev Param.Proper (p : Param) : Prop := p.Over proper

/-- A function without its body, as a text in order has it. -/
abbrev Header.Proper (h : Header) : Prop := h.Over proper

/-- A statement as a text in order has it. -/
abbrev Stmt.Proper (s : Stmt) : Prop := s.Over proper

/-- Statements as a text in order has them. -/
abbrev Stmt.AllProper (ss : List Stmt) : Prop := Stmt.AllOver proper ss

end Surface
end BlockC

import BlockC.Bound.Program
import BlockC.Proofs.ProperProgram
import BlockC.Proofs.TableLookup

/-! # Bound programs and their tables

A bound program is known to a table (`Stmt.Known`) if every handle in it refers to a symbol there,
and what it declares is there with its name, kind and type.  A table that grows keeps what it knows.
An expression without its symbols is the surface expression that it came from (`Expr.erase`).
-/
namespace BlockC

/-- A handle of the symbol that a declaration has made. -/
def Table.Declares (t : Table) (id : SymbolId) (name : String) (kind : SymbolKind)
    (typing : Option Typing) (external : Bool) : Prop :=
  ∃ (i : Nat) (s : Symbol), id = .unit i ∧ t.symbols[i]? = some s ∧ s.name = name ∧
    s.kind = kind ∧ s.typing = typing ∧ s.isExternal = external

theorem Table.Declares.mono {scope : SymbolId} {t t' : Table} (ht : t.Grows scope t')
    {id : SymbolId} {name : String} {kind : SymbolKind} {typing : Option Typing} {external : Bool}
    (h : t.Declares id name kind typing external) :
    t'.Declares id name kind typing external := by
  obtain ⟨i, s, rfl, hs, hrest⟩ := h
  obtain ⟨new, hs', -⟩ := ht i s hs
  exact ⟨i, _, rfl, hs', hrest⟩

namespace Bound

/-! ### Expressions -/

mutual

/-- The expression without its symbols. -/
def Expr.erase : Expr → Surface.Expr
  | .ident id => .ident ⟨id.path, id.span⟩
  | .binary left op right span => .binary left.erase op right.erase span
  | .unary op argument span => .unary op argument.erase span
  | .condition test yes no span => .condition test.erase yes.erase no.erase span
  | .call callee args span => .call ⟨callee.path, callee.span⟩ (Expr.eraseAll args) span
  | .assignment left op right span => .assignment left.erase op right.erase span
  | .parenthesized inner span => .parenthesized inner.erase span
  | .number value span => .number value span
  | .string text span => .string text span
  | .boolean value span => .boolean value span
  | .null span => .null span

/-- Expressions without their symbols. -/
def Expr.eraseAll : List Expr → List Surface.Expr
  | [] => []
  | e :: rest => e.erase :: Expr.eraseAll rest

end

mutual

/-- An expression whose names refer to symbols of the table. -/
def Expr.Known (t : Table) : Expr → Prop
  | .ident id => t.Has id.symbol
  | .binary left _ right _ => left.Known t ∧ right.Known t
  | .unary _ argument _ => argument.Known t
  | .condition test yes no _ => test.Known t ∧ yes.Known t ∧ no.Known t
  | .call callee args _ => t.Has callee.symbol ∧ Expr.AllKnown t args
  | .assignment left _ right _ => left.Known t ∧ right.Known t
  | .parenthesized inner _ => inner.Known t
  | .number _ _ | .string _ _ | .boolean _ _ | .null _ => True

/-- Expressions whose names refer to symbols of the table. -/
def Expr.AllKnown (t : Table) : List Expr → Prop
  | [] => True
  | e :: rest => e.Known t ∧ Expr.AllKnown t rest

end

mutual

theorem Expr.Known.mono {t t' : Table} (ht : t.Keeps t') : {e : Expr} → e.Known t → e.Known t'
  | .ident _, h => Table.Has.mono ht h
  | .binary _ _ _ _, h => ⟨h.1.mono ht, h.2.mono ht⟩
  | .unary _ argument _, h => Expr.Known.mono ht (e := argument) h
  | .condition _ _ _ _, h => ⟨h.1.mono ht, h.2.1.mono ht, h.2.2.mono ht⟩
  | .call _ _ _, h => ⟨h.1.mono ht, h.2.mono ht⟩
  | .assignment _ _ _ _, h => ⟨h.1.mono ht, h.2.mono ht⟩
  | .parenthesized inner _, h => Expr.Known.mono ht (e := inner) h
  | .number _ _, _ | .string _ _, _ | .boolean _ _, _ | .null _, _ => trivial

theorem Expr.AllKnown.mono {t t' : Table} (ht : t.Keeps t') :
    {es : List Expr} → Expr.AllKnown t es → Expr.AllKnown t' es
  | [], _ => trivial
  | _ :: _, h => ⟨h.1.mono ht, h.2.mono ht⟩

end

/-! ### Declarations -/

/-- A declared name whose type and symbol the table has. -/
def Binding.Known (t : Table) (kind : SymbolKind) (external : Bool) (b : Binding) : Prop :=
  b.typing.Within t t.symbols.size ∧ t.Declares b.symbol b.name kind (some b.typing) external

theorem Binding.Known.mono {scope : SymbolId} {t t' : Table} (ht : t.Grows scope t')
    {kind : SymbolKind} {external : Bool} {b : Binding} (h : b.Known t kind external) :
    b.Known t' kind external :=
  ⟨h.1.mono ht.keeps ht.keeps.size_le, h.2.mono ht⟩

/-- A function whose types and symbol the table has. -/
def Header.Known (t : Table) (external : Bool) (h : Header) : Prop :=
  (∀ p ∈ h.params, p.Known t .param false) ∧ ∃ returns, returns.Within t t.symbols.size ∧
    t.Declares h.symbol h.name .func
      (some (.signature (h.params.map (·.typing)) returns h.variadic)) external

theorem Header.Known.mono {scope : SymbolId} {t t' : Table} (ht : t.Grows scope t')
    {external : Bool} {h : Header} (hh : h.Known t external) : h.Known t' external := by
  obtain ⟨hparams, returns, hreturns, hdeclares⟩ := hh
  exact ⟨fun p hp => (hparams p hp).mono ht, returns,
    hreturns.mono ht.keeps ht.keeps.size_le, hdeclares.mono ht⟩

/-! ### Statements -/

mutual

/-- A statement whose names refer to symbols of the table, and whose declarations it has. -/
def Stmt.Known (t : Table) : Stmt → Prop
  | .empty _ => True
  | .mod name symbol _ => t.Declares symbol name .mod none false
  | .declare b initial _ => b.Known t .var false ∧ ∀ e ∈ initial, e.Known t
  | .externalVariable b _ => b.Known t .var true
  | .externalFunction h _ _ => h.Known t true
  | .whileLoop test body _ => test.Known t ∧ body.Known t
  | .ifThen test yes _ => test.Known t ∧ yes.Known t
  | .ifElse test yes no _ => test.Known t ∧ yes.Known t ∧ no.Known t
  | .returned value _ => value.Known t
  | .typeAlias name _ symbol _ => ∃ typing, typing.Within t t.symbols.size ∧
      t.Declares symbol name .typeName (some typing) false
  | .func h body _ => h.Known t false ∧ h.variadic = false ∧ body.Known t
  | .expr value _ => value.Known t

/-- A block whose statements are known to the table. -/
def Block.Known (t : Table) : Block → Prop
  | .mk stmts _ _ => Stmt.AllKnown t stmts

/-- Statements that are known to the table. -/
def Stmt.AllKnown (t : Table) : List Stmt → Prop
  | [] => True
  | s :: rest => s.Known t ∧ Stmt.AllKnown t rest

end

mutual

theorem Stmt.Known.mono {scope : SymbolId} {t t' : Table} (ht : t.Grows scope t') :
    {s : Stmt} → s.Known t → s.Known t'
  | .empty _, _ => trivial
  | .mod _ _ _, h => Table.Declares.mono ht h
  | .declare _ _ _, h => ⟨h.1.mono ht, fun e he => (h.2 e he).mono ht.keeps⟩
  | .externalVariable _ _, h => Binding.Known.mono ht h
  | .externalFunction _ _ _, h => Header.Known.mono ht h
  | .whileLoop _ _ _, h => ⟨h.1.mono ht.keeps, h.2.mono ht⟩
  | .ifThen _ _ _, h => ⟨h.1.mono ht.keeps, h.2.mono ht⟩
  | .ifElse _ _ _ _, h => ⟨h.1.mono ht.keeps, h.2.1.mono ht, h.2.2.mono ht⟩
  | .returned _ _, h => Expr.Known.mono ht.keeps h
  | .typeAlias _ _ _ _, h => by
    obtain ⟨typing, hty, hdeclares⟩ := h
    exact ⟨typing, hty.mono ht.keeps ht.keeps.size_le, hdeclares.mono ht⟩
  | .func _ _ _, h => ⟨h.1.mono ht, h.2.1, h.2.2.mono ht⟩
  | .expr _ _, h => Expr.Known.mono ht.keeps h

theorem Block.Known.mono {scope : SymbolId} {t t' : Table} (ht : t.Grows scope t') :
    {b : Block} → b.Known t → b.Known t'
  | .mk _ _ _, h => Stmt.AllKnown.mono ht h

theorem Stmt.AllKnown.mono {scope : SymbolId} {t t' : Table} (ht : t.Grows scope t') :
    {ss : List Stmt} → Stmt.AllKnown t ss → Stmt.AllKnown t' ss
  | [], _ => trivial
  | _ :: _, h => ⟨h.1.mono ht, h.2.mono ht⟩

end

/-! ### The parts of a program -/

mutual

/-- The names in an expression, in order. -/
def Expr.idents : Expr → List Ident
  | .ident id => [id]
  | .binary left _ right _ => left.idents ++ right.idents
  | .unary _ argument _ => argument.idents
  | .condition test yes no _ => test.idents ++ (yes.idents ++ no.idents)
  | .call callee args _ => callee :: Expr.allIdents args
  | .assignment left _ right _ => left.idents ++ right.idents
  | .parenthesized inner _ => inner.idents
  | .number _ _ | .string _ _ | .boolean _ _ | .null _ => []

/-- The names in expressions, in order. -/
def Expr.allIdents : List Expr → List Ident
  | [] => []
  | e :: rest => e.idents ++ Expr.allIdents rest

end

mutual

theorem Expr.Known.idents {t : Table} : {e : Expr} → e.Known t → ∀ id ∈ e.idents, t.Has id.symbol
  | .ident _, h => by simpa [Expr.idents, Expr.Known] using h
  | .binary _ _ _ _, h | .assignment _ _ _ _, h =>
    List.forall_mem_append.mpr ⟨h.1.idents, h.2.idents⟩
  | .unary _ argument _, h => Expr.Known.idents (e := argument) h
  | .condition _ _ _ _, h =>
    List.forall_mem_append.mpr ⟨h.1.idents, List.forall_mem_append.mpr ⟨h.2.1.idents, h.2.2.idents⟩⟩
  | .call _ _ _, h => List.forall_mem_cons.mpr ⟨h.1, h.2.allIdents⟩
  | .parenthesized inner _, h => Expr.Known.idents (e := inner) h
  | .number _ _, _ | .string _ _, _ | .boolean _ _, _ | .null _, _ => by simp [Expr.idents]

theorem Expr.AllKnown.allIdents {t : Table} : {es : List Expr} → Expr.AllKnown t es →
    ∀ id ∈ Expr.allIdents es, t.Has id.symbol
  | [], _ => by simp [Expr.allIdents]
  | _ :: _, h => List.forall_mem_append.mpr ⟨h.1.idents, h.2.allIdents⟩

end

mutual

/-- The expressions that stand in a statement or in the blocks below it. -/
def Stmt.exprs : Stmt → List Expr
  | .empty _ | .mod _ _ _ | .externalVariable _ _ | .externalFunction _ _ _
  | .typeAlias _ _ _ _ => []
  | .declare _ initial _ => initial.toList
  | .whileLoop test body _ => test :: body.exprs
  | .ifThen test yes _ => test :: yes.exprs
  | .ifElse test yes no _ => test :: (yes.exprs ++ no.exprs)
  | .returned value _ => [value]
  | .func _ body _ => body.exprs
  | .expr value _ => [value]

/-- The expressions that stand in a block. -/
def Block.exprs : Block → List Expr
  | .mk stmts _ _ => Stmt.allExprs stmts

/-- The expressions that stand in statements. -/
def Stmt.allExprs : List Stmt → List Expr
  | [] => []
  | s :: rest => s.exprs ++ Stmt.allExprs rest

end

mutual

/-- The functions that are defined in a statement or in the blocks below it. -/
def Stmt.definitions : Stmt → List Header
  | .whileLoop _ body _ => body.definitions
  | .ifThen _ yes _ => yes.definitions
  | .ifElse _ yes no _ => yes.definitions ++ no.definitions
  | .func h body _ => h :: body.definitions
  | .empty _ | .mod _ _ _ | .declare _ _ _ | .externalVariable _ _ | .externalFunction _ _ _
  | .returned _ _ | .typeAlias _ _ _ _ | .expr _ _ => []

/-- The functions that are defined in a block. -/
def Block.definitions : Block → List Header
  | .mk stmts _ _ => Stmt.allDefinitions stmts

/-- The functions that are defined in statements. -/
def Stmt.allDefinitions : List Stmt → List Header
  | [] => []
  | s :: rest => s.definitions ++ Stmt.allDefinitions rest

end

/-- The scope that a statement leaves open. -/
def Stmt.opens : Stmt → List SymbolId
  | .mod _ symbol _ => [symbol]
  | _ => []

end Bound
end BlockC

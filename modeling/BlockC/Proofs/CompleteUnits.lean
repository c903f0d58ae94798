import BlockC.Grammar.SourceFile
import BlockC.Proofs.BinderInvariant
import BlockC.Proofs.Emission
import BlockC.Proofs.Scoping

/-! # Bound units are complete

Writing a compilation unit follows the handles in its program to the table, and asks the table for
the types of functions and of names for types.  Whatever tree a unit was bound from, all of that is
there (`Complete`), so that every bound unit can be written (`bound_units_are_written`).
-/
namespace BlockC

/-- What a symbol of a kind has to have: a name for a type has a type, and a function has a
signature, with a mark of further parameters only if it is declared elsewhere. -/
def SymbolKind.Fits (kind : SymbolKind) (typing : Option Typing) (external : Bool) : Prop :=
  (kind = .typeName → ∃ aliased, typing = some aliased) ∧
    (kind = .func → ∃ params returns variadic,
      typing = some (.signature params returns variadic) ∧ (variadic = true → external = true))

theorem SymbolKind.fits_of_ne {kind : SymbolKind} {typing : Option Typing} {external : Bool}
    (htype : kind ≠ .typeName) (hfunc : kind ≠ .func) : kind.Fits typing external :=
  ⟨fun h => absurd h htype, fun h => absurd h hfunc⟩

namespace Table

/-- A handle of a symbol that has what its kind has to have. -/
def CompleteAt (t : Table) (id : SymbolId) : Prop :=
  ∃ s, t.get? id = some s ∧ s.kind.Fits s.typing s.isExternal

/-- A handle that refers to a symbol. -/
def Refers (t : Table) (id : SymbolId) : Prop :=
  ∃ s, t.get? id = some s

theorem Has.refers {t : Table} {id : SymbolId} (h : t.Has id) : t.Refers id := by
  obtain ⟨s, hs, -⟩ := h
  exact ⟨s, hs⟩

theorem Sits.refers {t : Table} {scope id : SymbolId} {kind : SymbolKind}
    (h : t.Sits scope kind id) : t.Refers id := by
  obtain ⟨i, s, rfl, hs, -⟩ := h
  exact ⟨s, hs⟩

theorem Sits.complete {t : Table} {scope id : SymbolId} (h : t.Sits scope .block id) :
    t.CompleteAt id := by
  obtain ⟨i, s, rfl, hs, hkind, -⟩ := h
  exact ⟨s, hs, SymbolKind.fits_of_ne (by simp [hkind]) (by simp [hkind])⟩

section
variable {t : Table} {id : SymbolId} {name : String} {kind : SymbolKind} {typing : Option Typing}
  {external : Bool}

theorem Declares.symbol (h : t.Declares id name kind typing external) :
    ∃ s, t.get? id = some s ∧ s.kind = kind ∧ s.typing = typing ∧ s.isExternal = external := by
  obtain ⟨i, s, rfl, hs, -, hrest⟩ := h
  exact ⟨s, hs, hrest⟩

theorem Declares.refers (h : t.Declares id name kind typing external) : t.Refers id := by
  obtain ⟨s, hs, -⟩ := h.symbol
  exact ⟨s, hs⟩

theorem Declares.complete (h : t.Declares id name kind typing external)
    (hfits : kind.Fits typing external) : t.CompleteAt id := by
  obtain ⟨s, hs, rfl, rfl, rfl⟩ := h.symbol
  exact ⟨s, hs, hfits⟩

theorem Declares.complete_of_ne (h : t.Declares id name kind typing external)
    (htype : kind ≠ .typeName) (hfunc : kind ≠ .func) : t.CompleteAt id :=
  h.complete (SymbolKind.fits_of_ne htype hfunc)

end

end Table

mutual

/-- The symbols in a type of the table are there. -/
theorem Typing.Within.has_refs {t : Table} {bound : Nat} : {typing : Typing} →
    typing.Within t bound → ∀ id ∈ typing.refs, t.Has id
  | .ref _ _, h => by
    intro id hid
    rw [List.mem_singleton.mp hid]
    exact Table.HasType.has h
  | .signature _ _ _, h => List.forall_mem_append.mpr ⟨h.1.has_allRefs, h.2.has_refs⟩

theorem Typing.AllWithin.has_allRefs {t : Table} {bound : Nat} : {typings : List Typing} →
    Typing.AllWithin t bound typings → ∀ id ∈ Typing.allRefs typings, t.Has id
  | [], _ => by simp [Typing.allRefs]
  | _ :: _, h => List.forall_mem_append.mpr ⟨h.1.has_refs, h.2.has_allRefs⟩

end

namespace Bound

/-! ### The statements of a program -/

mutual

/-- The statements in the blocks below a statement. -/
def Stmt.inner : Stmt → List Stmt
  | .whileLoop _ body _ | .func _ body _ => body.parts
  | .ifThen _ yes _ => yes.parts
  | .ifElse _ yes no _ => yes.parts ++ no.parts
  | .empty _ | .mod _ _ _ | .declare _ _ _ | .externalVariable _ _ | .externalFunction _ _ _
  | .returned _ _ | .typeAlias _ _ _ _ | .expr _ _ => []

/-- The statements of a block, and those below them. -/
def Block.parts : Block → List Stmt
  | .mk stmts _ _ => Stmt.allParts stmts

/-- Statements, and those below them. -/
def Stmt.allParts : List Stmt → List Stmt
  | [] => []
  | s :: rest => s :: (s.inner ++ Stmt.allParts rest)

end

/-- The scope of a block. -/
def Block.scope : Block → SymbolId
  | .mk _ scope _ => scope

/-- The handles in a declared name. -/
def Binding.handles (b : Binding) : List SymbolId :=
  b.symbol :: b.typing.refs

/-- The handles in a function without its body. -/
def Header.handles (h : Header) : List SymbolId :=
  h.symbol :: h.params.flatMap Binding.handles

/-- The handles in an expression. -/
def Expr.handles (e : Expr) : List SymbolId :=
  e.idents.map (·.symbol)

/-- The handles in a statement, but for those in the statements below it. -/
def Stmt.handles : Stmt → List SymbolId
  | .empty _ => []
  | .mod _ symbol _ | .typeAlias _ _ symbol _ => [symbol]
  | .declare b initial _ => b.handles ++ initial.toList.flatMap Expr.handles
  | .externalVariable b _ => b.handles
  | .externalFunction h _ _ => h.handles
  | .whileLoop test body _ => test.handles ++ [body.scope]
  | .ifThen test yes _ => test.handles ++ [yes.scope]
  | .ifElse test yes no _ => test.handles ++ [yes.scope, no.scope]
  | .returned value _ | .expr value _ => value.handles
  | .func h body _ => h.handles ++ [body.scope]

/-! ### Every statement is known -/

/-- A statement that is known to the table, and stands in a scope of it. -/
def Stmt.Stands (t : Table) (s : Stmt) : Prop :=
  s.Known t ∧ ∃ scope, s.Placed t scope

section
variable {t : Table}

mutual

theorem Stmt.stands_inner {scope : SymbolId} : {s : Stmt} → s.Known t → s.Placed t scope →
    ∀ part ∈ s.inner, part.Stands t
  | .whileLoop _ body _, hk, hp => Block.stands_parts (b := body) hk.2 hp
  | .ifThen _ yes _, hk, hp => Block.stands_parts (b := yes) hk.2 hp
  | .ifElse _ yes no _, hk, hp =>
    List.forall_mem_append.mpr ⟨Block.stands_parts (b := yes) hk.2.1 hp.1,
      Block.stands_parts (b := no) hk.2.2 hp.2⟩
  | .func _ (.mk _ _ _) _, hk, hp => Stmt.stands_allParts hk.2.2 hp.2.2
  | .empty _, _, _ | .mod _ _ _, _, _ | .declare _ _ _, _, _ | .externalVariable _ _, _, _
  | .externalFunction _ _ _, _, _ | .returned _ _, _, _ | .typeAlias _ _ _ _, _, _
  | .expr _ _, _, _ => by simp [Stmt.inner]

theorem Block.stands_parts {scope : SymbolId} : {b : Block} → b.Known t → b.Placed t scope →
    ∀ part ∈ b.parts, part.Stands t
  | .mk _ _ _, hk, hp => Stmt.stands_allParts hk hp.2

theorem Stmt.stands_allParts {scope : SymbolId} : {ss : List Stmt} → Stmt.AllKnown t ss →
    Stmt.AllPlaced t scope ss → ∀ part ∈ Stmt.allParts ss, part.Stands t
  | [], _, _ => by simp [Stmt.allParts]
  | s :: rest, hk, hp =>
    List.forall_mem_cons.mpr ⟨⟨hk.1, scope, hp.1⟩, List.forall_mem_append.mpr
      ⟨Stmt.stands_inner hk.1 hp.1, Stmt.stands_allParts hk.2 hp.2⟩⟩

end

/-! ### The handles of a program -/

theorem Expr.Known.refers {e : Expr} (h : e.Known t) : ∀ id ∈ e.handles, t.Refers id := by
  intro id hid
  obtain ⟨ident, hident, rfl⟩ := List.mem_map.mp hid
  exact (h.idents ident hident).refers

theorem Binding.Known.refers {kind : SymbolKind} {external : Bool} {b : Binding}
    (h : b.Known t kind external) : ∀ id ∈ b.handles, t.Refers id :=
  List.forall_mem_cons.mpr ⟨h.2.refers, fun id hid => (h.1.has_refs id hid).refers⟩

theorem Header.Known.refers {external : Bool} {f : Header} (h : f.Known t external) :
    ∀ id ∈ f.handles, t.Refers id := by
  obtain ⟨hparams, returns, -, hdeclares⟩ := h
  refine List.forall_mem_cons.mpr ⟨hdeclares.refers, fun id hid => ?_⟩
  obtain ⟨p, hp, hid⟩ := List.mem_flatMap.mp hid
  exact (hparams p hp).refers id hid

theorem Block.Placed.refers {scope : SymbolId} {b : Block} (h : b.Placed t scope) :
    t.Refers b.scope := by
  obtain ⟨stmts, inner, span⟩ := b
  exact h.1.refers

/-- Every handle in a statement that stands in a table refers to a symbol there. -/
theorem Stmt.Stands.refers {s : Stmt} (h : s.Stands t) : ∀ id ∈ s.handles, t.Refers id := by
  obtain ⟨hk, scope, hp⟩ := h
  cases s with
  | empty span => simp [Stmt.handles]
  | mod name symbol span => exact List.forall_mem_singleton.mpr (Table.Declares.refers hk)
  | declare b initial span =>
    refine List.forall_mem_append.mpr ⟨hk.1.refers, fun id hid => ?_⟩
    obtain ⟨e, he, hid⟩ := List.mem_flatMap.mp hid
    exact (hk.2 e (by simpa using he)).refers id hid
  | externalVariable b span => exact Binding.Known.refers hk
  | externalFunction f declared span => exact Header.Known.refers hk
  | whileLoop test body span =>
    exact List.forall_mem_append.mpr
      ⟨hk.1.refers, List.forall_mem_singleton.mpr (Block.Placed.refers hp)⟩
  | ifThen test yes span =>
    exact List.forall_mem_append.mpr
      ⟨hk.1.refers, List.forall_mem_singleton.mpr (Block.Placed.refers hp)⟩
  | ifElse test yes no span =>
    exact List.forall_mem_append.mpr ⟨hk.1.refers, List.forall_mem_cons.mpr
      ⟨hp.1.refers, List.forall_mem_singleton.mpr hp.2.refers⟩⟩
  | returned value span => exact Expr.Known.refers hk
  | typeAlias name type symbol span =>
    obtain ⟨typing, -, hdeclares⟩ := hk
    exact List.forall_mem_singleton.mpr hdeclares.refers
  | func f body span =>
    -- The body of a function has no scope of its own: its scope is the function.
    obtain ⟨stmts, inner, bodySpan⟩ := body
    obtain ⟨hplaced, rfl, -⟩ := hp
    exact List.forall_mem_append.mpr
      ⟨hk.1.refers, List.forall_mem_singleton.mpr hplaced.1.refers⟩
  | expr value span => exact Expr.Known.refers hk

/-! ### The types of a program -/

theorem Header.Known.complete {external : Bool} {f : Header} (h : f.Known t external)
    (hvariadic : f.variadic = true → external = true) : ∀ id ∈ f.created, t.CompleteAt id := by
  obtain ⟨hparams, returns, -, hdeclares⟩ := h
  refine List.forall_mem_cons.mpr ⟨hdeclares.complete ⟨by simp, fun _ => ?_⟩, fun id hid => ?_⟩
  · exact ⟨_, returns, f.variadic, rfl, hvariadic⟩
  · obtain ⟨p, hp, rfl⟩ := List.mem_map.mp hid
    exact (hparams p hp).2.complete_of_ne (by decide) (by decide)

mutual

theorem Stmt.complete_created {scope : SymbolId} : {s : Stmt} → s.Known t → s.Placed t scope →
    ∀ id ∈ s.created, t.CompleteAt id
  | .empty _, _, _ | .returned _ _, _, _ | .expr _ _, _, _ => by simp [Stmt.created]
  | .mod _ _ _, hk, _ =>
    List.forall_mem_singleton.mpr (Table.Declares.complete_of_ne hk (by decide) (by decide))
  | .declare _ _ _, hk, _ =>
    List.forall_mem_singleton.mpr (hk.1.2.complete_of_ne (by decide) (by decide))
  | .externalVariable _ _, hk, _ =>
    List.forall_mem_singleton.mpr (hk.2.complete_of_ne (by decide) (by decide))
  | .externalFunction _ _ _, hk, _ => Header.Known.complete hk fun _ => rfl
  | .whileLoop _ body _, hk, hp => Block.complete_created (b := body) hk.2 hp
  | .ifThen _ yes _, hk, hp => Block.complete_created (b := yes) hk.2 hp
  | .ifElse _ yes no _, hk, hp =>
    List.forall_mem_append.mpr ⟨Block.complete_created (b := yes) hk.2.1 hp.1,
      Block.complete_created (b := no) hk.2.2 hp.2⟩
  | .typeAlias _ _ _ _, hk, _ => by
    obtain ⟨typing, -, hdeclares⟩ := hk
    exact List.forall_mem_singleton.mpr (hdeclares.complete ⟨fun _ => ⟨typing, rfl⟩, by simp⟩)
  | .func _ (.mk _ _ _) _, hk, hp =>
    List.forall_mem_append.mpr ⟨hk.1.complete (by simp [hk.2.1]),
      Stmt.complete_allCreated hk.2.2 hp.2.2⟩

theorem Block.complete_created {scope : SymbolId} : {b : Block} → b.Known t → b.Placed t scope →
    ∀ id ∈ b.created, t.CompleteAt id
  | .mk _ _ _, hk, hp =>
    List.forall_mem_cons.mpr ⟨hp.1.complete, Stmt.complete_allCreated hk hp.2⟩

theorem Stmt.complete_allCreated {scope : SymbolId} : {ss : List Stmt} → Stmt.AllKnown t ss →
    Stmt.AllPlaced t scope ss → ∀ id ∈ Stmt.allCreated ss, t.CompleteAt id
  | [], _, _ => by simp [Stmt.allCreated]
  | _ :: _, hk, hp =>
    List.forall_mem_append.mpr
      ⟨Stmt.complete_created hk.1 hp.1, Stmt.complete_allCreated hk.2 hp.2⟩

end

end

/-! ### Units -/

/-- A unit that has all that writing it asks for. -/
structure Complete (u : CompilationUnit) : Prop where
  /-- Every handle in the program refers to a symbol. -/
  handles : ∀ s ∈ Stmt.allParts u.sourceFile.stmts, ∀ id ∈ s.handles, u.table.Refers id
  /-- Every handle in the type of a symbol refers to a symbol. -/
  refs : ∀ id s typing, u.table.get? id = some s → s.typing = some typing →
    ∀ ref ∈ typing.refs, u.table.Refers ref
  /-- Every symbol of the unit has what its kind has to have. -/
  symbols : ∀ i, i < u.table.symbols.size → u.table.CompleteAt (.unit i)
  /-- Every name for a type that is declared has a type. -/
  typeAlias : ∀ name type symbol span,
    .typeAlias name type symbol span ∈ Stmt.allParts u.sourceFile.stmts →
    ∃ s aliased, u.table.get? symbol = some s ∧ s.kind = .typeName ∧ s.typing = some aliased
  /-- Every function that is defined has the signature of its parameters, without a mark of further
  ones. -/
  func : ∀ f body span, .func f body span ∈ Stmt.allParts u.sourceFile.stmts →
    ∃ s returns, u.table.get? f.symbol = some s ∧ s.kind = .func ∧ s.isExternal = false ∧
      s.typing = some (.signature (f.params.map (·.typing)) returns false)
  /-- Every function that is declared without a body has the signature of its parameters. -/
  externalFunction : ∀ f declared span,
    .externalFunction f declared span ∈ Stmt.allParts u.sourceFile.stmts →
    ∃ s returns, u.table.get? f.symbol = some s ∧ s.kind = .func ∧ s.isExternal = true ∧
      s.typing = some (.signature (f.params.map (·.typing)) returns f.variadic)

theorem complete_of_bindTree {root : Node} {source : ByteArray} {u : CompilationUnit}
    (h : bindTree root source = .ok u) : Complete u := by
  obtain ⟨ctx, htable, hbinds⟩ := bindTree_binds h
  have ht := hbinds.reaches.wellFormed.table
  have hcreated := hbinds.created
  have hstands := Stmt.stands_allParts hbinds.known hbinds.placed
  have hcomplete := Stmt.complete_allCreated hbinds.known hbinds.placed
  rw [← htable] at ht hcreated hstands hcomplete
  refine ⟨fun s hs => (hstands s hs).refers, ?_, ?_, ?_, ?_, ?_⟩
  · intro id s typing hs htyping ref href
    cases id with
    | unit i => exact ((ht.typing hs htyping).has_refs ref href).refers
    | builtin i =>
      obtain ⟨name, -, rfl⟩ := Option.map_eq_some_iff.mp hs
      cases htyping
  · intro i hi
    -- The root was there before; every other symbol was created by a statement of the program.
    cases i with
    | zero =>
      obtain ⟨r, hr, -, hkind, -⟩ := ht.root
      exact ⟨r, hr, SymbolKind.fits_of_ne (by simp [hkind]) (by simp [hkind])⟩
    | succ i => exact hcomplete _ (hcreated.mem (Nat.succ_le_succ (Nat.zero_le i)) hi)
  · intro name type symbol span hmem
    obtain ⟨⟨aliased, -, hdeclares⟩, -⟩ := hstands _ hmem
    obtain ⟨s, hs, hkind, htyping, -⟩ := hdeclares.symbol
    exact ⟨s, aliased, hs, hkind, htyping⟩
  · intro f body span hmem
    obtain ⟨⟨⟨-, returns, -, hdeclares⟩, hvariadic, -⟩, -⟩ := hstands _ hmem
    rw [hvariadic] at hdeclares
    obtain ⟨s, hs, hkind, htyping, hexternal⟩ := hdeclares.symbol
    exact ⟨s, returns, hs, hkind, hexternal, htyping⟩
  · intro f declared span hmem
    obtain ⟨⟨-, returns, -, hdeclares⟩, -⟩ := hstands _ hmem
    obtain ⟨s, hs, hkind, htyping, hexternal⟩ := hdeclares.symbol
    exact ⟨s, returns, hs, hkind, hexternal, htyping⟩

end Bound

/-- Whatever tree a unit was bound from, it can be written. -/
theorem unit_ok_of_bindTree {root : Node} {source : ByteArray} {u : Bound.CompilationUnit}
    (h : bindTree root source = .ok u) (withPrelude : Bool) :
    ∃ text, Code.unit u withPrelude = .ok text := by
  obtain ⟨ctx, htable, hbinds⟩ := bindTree_binds h
  have ht := hbinds.reaches.wellFormed.table
  have hknown := hbinds.known
  rw [← htable] at ht hknown
  obtain ⟨text, htext, -⟩ := (Code.unit_written ht hknown withPrelude).exists_ok
  exact ⟨text, htext⟩

open BlockC.Bound

/-- **Bound units can be written.**  Whatever tree and bytes a unit was bound from, it has all that
writing it asks for, and so it is written, with the prelude and without. -/
theorem bound_units_are_written {root : Node} {source : ByteArray} {u : CompilationUnit}
    (h : bindTree root source = .ok u) :
    Complete u ∧ ∀ withPrelude, ∃ text, Code.unit u withPrelude = .ok text :=
  ⟨complete_of_bindTree h, unit_ok_of_bindTree h⟩

/-- A tree over bytes that are no text, with a function that takes any number of arguments, a name
for a function type and a parameter of that type. -/
theorem unit_over_bytes_is_written :
    ∃ source u, source = "external fn p(...) -> i8 type t = fn(i8) -> i8
        fn f(g: t) -> i8 do return g(p()) end" ∧
      bindTree (Grammar.parse source) (source.toUTF8.push 255) = .ok u ∧
      (Stmt.allParts u.sourceFile.stmts).length = 4 ∧ Complete u ∧
      ∀ withPrelude, ∃ text, Code.unit u withPrelude = .ok text := by
  obtain ⟨source, hsource⟩ : ∃ source, source =
      "external fn p(...) -> i8 type t = fn(i8) -> i8
        fn f(g: t) -> i8 do return g(p()) end" := ⟨_, rfl⟩
  have hparts : (bindTree (Grammar.parse source) (source.toUTF8.push 255)).toOption.map
      (fun u => (Stmt.allParts u.sourceFile.stmts).length) = some 4 := by
    rw [hsource]
    decide +kernel
  obtain ⟨u, hu, hlength⟩ := exists_ok_of_map hparts
  exact ⟨source, u, hsource, hu, hlength, bound_units_are_written hu⟩

end BlockC

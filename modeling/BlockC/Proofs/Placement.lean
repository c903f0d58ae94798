import BlockC.Proofs.BoundProgram

/-! # Where declarations stand

A bound program and the parent links of its table tell the same story twice: what a statement
declares has the scope that the statement stands in as its parent (`Stmt.Placed`).  What statements
declare is listed in order (`Stmt.created`), so that a table can be said to hold that and nothing
else.
-/
namespace BlockC

/-- A symbol of the given kind inside the given scope. -/
def Table.Sits (t : Table) (scope : SymbolId) (kind : SymbolKind) (id : SymbolId) : Prop :=
  ∃ (i : Nat) (s : Symbol), id = .unit i ∧ t.symbols[i]? = some s ∧ s.kind = kind ∧
    s.parent = some scope

theorem Table.Sits.mono {t t' : Table} (ht : t.Keeps t') {scope : SymbolId} {kind : SymbolKind}
    {id : SymbolId} (h : t.Sits scope kind id) : t'.Sits scope kind id := by
  obtain ⟨i, s, rfl, hs, hkind, hparent⟩ := h
  obtain ⟨s', hs', -, hkind', hparent'⟩ := ht i s hs
  exact ⟨i, s', rfl, hs', hkind'.trans hkind, hparent'.trans hparent⟩

/-- Handles of symbols created one behind the other, from the `n`th up to before the `m`th. -/
def Numbered (n : Nat) (ids : List SymbolId) (m : Nat) : Prop :=
  ids = (List.range' n ids.length).map .unit ∧ m = n + ids.length

theorem Numbered.nil (n : Nat) : Numbered n [] n :=
  ⟨rfl, rfl⟩

theorem Numbered.single (n : Nat) : Numbered n [.unit n] (n + 1) :=
  ⟨rfl, rfl⟩

theorem Numbered.append {n m k : Nat} {ids ids' : List SymbolId} (h : Numbered n ids m)
    (h' : Numbered m ids' k) : Numbered n (ids ++ ids') k := by
  obtain ⟨hids, hm⟩ := h
  obtain ⟨hids', hk⟩ := h'
  refine ⟨?_, by rw [List.length_append]; omega⟩
  have hsplit : List.range' n (ids.length + ids'.length) =
      List.range' n ids.length ++ List.range' m ids'.length := by
    rw [hm, List.range'_append_1]
  rw [List.length_append, hsplit, List.map_append, ← hids, ← hids']

theorem Numbered.mem {n m i : Nat} {ids : List SymbolId} (h : Numbered n ids m) (hn : n ≤ i)
    (hm : i < m) : SymbolId.unit i ∈ ids := by
  obtain ⟨hids, rfl⟩ := h
  rw [hids]
  exact List.mem_map.mpr ⟨i, List.mem_range'_1.mpr ⟨hn, hm⟩, rfl⟩

theorem Numbered.nodup {n m : Nat} {ids : List SymbolId} (h : Numbered n ids m) : ids.Nodup := by
  rw [h.1]
  refine List.Pairwise.map _ ?_ List.nodup_range'
  intro i j hne heq
  cases heq
  exact hne rfl

namespace Bound

/-- The handles of a function and of its parameters. -/
def Header.created (h : Header) : List SymbolId :=
  h.symbol :: h.params.map (·.symbol)

mutual

/-- The handles of what a statement declares and of the scopes in it, in order. -/
def Stmt.created : Stmt → List SymbolId
  | .empty _ | .returned _ _ | .expr _ _ => []
  | .mod _ symbol _ | .typeAlias _ _ symbol _ => [symbol]
  | .declare b _ _ | .externalVariable b _ => [b.symbol]
  | .externalFunction h _ _ => h.created
  | .whileLoop _ body _ => body.created
  | .ifThen _ yes _ => yes.created
  | .ifElse _ yes no _ => yes.created ++ no.created
  | .func h (.mk body _ _) _ => h.created ++ Stmt.allCreated body

/-- The handle of the scope of a block, and of what stands in it. -/
def Block.created : Block → List SymbolId
  | .mk stmts scope _ => scope :: Stmt.allCreated stmts

/-- The handles of what statements declare and of the scopes in them, in order. -/
def Stmt.allCreated : List Stmt → List SymbolId
  | [] => []
  | s :: rest => s.created ++ Stmt.allCreated rest

end

/-- A function inside a scope, and its parameters inside the function. -/
def Header.Placed (t : Table) (scope : SymbolId) (h : Header) : Prop :=
  t.Sits scope .func h.symbol ∧ ∀ p ∈ h.params, t.Sits h.symbol .param p.symbol

/-- The scope that is innermost behind a statement of the given scope. -/
def Stmt.innermost (scope : SymbolId) (s : Stmt) : SymbolId :=
  s.opens.head?.getD scope

mutual

/-- A statement whose declarations are inside the scope that it stands in, and come after what their
initial values use. -/
def Stmt.Placed (t : Table) (scope : SymbolId) : Stmt → Prop
  | .empty _ | .returned _ _ | .expr _ _ => True
  | .mod _ symbol _ => t.Sits scope .mod symbol
  | .declare b initial _ => t.Sits scope .var b.symbol ∧
      ∀ e ∈ initial, ∀ id ∈ e.idents, id.symbol ≠ b.symbol
  | .externalVariable b _ => t.Sits scope .var b.symbol
  | .externalFunction h _ _ => h.Placed t scope
  | .whileLoop _ body _ => body.Placed t scope
  | .ifThen _ yes _ => yes.Placed t scope
  | .ifElse _ yes no _ => yes.Placed t scope ∧ no.Placed t scope
  | .typeAlias _ _ symbol _ => t.Sits scope .typeName symbol
  | .func h (.mk body inner _) _ =>
    h.Placed t scope ∧ inner = h.symbol ∧ Stmt.AllPlaced t h.symbol body

/-- A block whose scope is inside the given one. -/
def Block.Placed (t : Table) (scope : SymbolId) : Block → Prop
  | .mk stmts inner _ => t.Sits scope .block inner ∧ Stmt.AllPlaced t inner stmts

/-- Statements whose declarations are inside the scope that is innermost at each. -/
def Stmt.AllPlaced (t : Table) (scope : SymbolId) : List Stmt → Prop
  | [] => True
  | s :: rest => s.Placed t scope ∧ Stmt.AllPlaced t (s.innermost scope) rest

end

section
variable {t t' : Table} {scope : SymbolId}

theorem Header.Placed.mono (ht : t.Keeps t') {h : Header} (hp : h.Placed t scope) :
    h.Placed t' scope :=
  ⟨hp.1.mono ht, fun p hm => (hp.2 p hm).mono ht⟩

mutual

theorem Stmt.Placed.mono (ht : t.Keeps t') {scope : SymbolId} :
    {s : Stmt} → s.Placed t scope → s.Placed t' scope
  | .empty _, _ | .returned _ _, _ | .expr _ _, _ => trivial
  | .mod _ _ _, h | .externalVariable _ _, h | .typeAlias _ _ _ _, h => Table.Sits.mono ht h
  | .declare _ _ _, h => ⟨h.1.mono ht, h.2⟩
  | .externalFunction _ _ _, h => Header.Placed.mono ht h
  | .whileLoop _ body _, h => Block.Placed.mono ht (b := body) h
  | .ifThen _ yes _, h => Block.Placed.mono ht (b := yes) h
  | .ifElse _ _ _ _, h => ⟨h.1.mono ht, h.2.mono ht⟩
  | .func _ (.mk _ _ _) _, h => ⟨h.1.mono ht, h.2.1, Stmt.AllPlaced.mono ht h.2.2⟩

theorem Block.Placed.mono (ht : t.Keeps t') {scope : SymbolId} :
    {b : Block} → b.Placed t scope → b.Placed t' scope
  | .mk _ _ _, h => ⟨h.1.mono ht, Stmt.AllPlaced.mono ht h.2⟩

theorem Stmt.AllPlaced.mono (ht : t.Keeps t') {scope : SymbolId} :
    {ss : List Stmt} → Stmt.AllPlaced t scope ss → Stmt.AllPlaced t' scope ss
  | [], _ => trivial
  | _ :: _, h => ⟨h.1.mono ht, Stmt.AllPlaced.mono ht h.2⟩

end
end

end Bound
end BlockC

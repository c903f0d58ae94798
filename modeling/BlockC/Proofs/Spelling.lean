import BlockC.Proofs.Transcript

/-! # Definitions and uses spell a name alike

The writer keeps the open modules as it goes along; the table has them as the parents of a symbol.
Both come to the same (`named_stmt`), since what a statement declares has the scope of the
statement as its parent.  So a name with dots in it is written as its symbol is declared
(`definitions_and_uses_agree`).
-/
namespace BlockC
namespace Code

open BlockC.Bound

/-! ### The modules around a symbol -/

/-- The names of the modules on a way to the root, the outermost first. -/
def modulesOn (way : List (SymbolId × Symbol)) : List String :=
  ((way.filter fun link => link.2.kind = .mod).map (·.2.name)).reverse

/-- The names of the modules that a scope is in, or is itself, the outermost first. -/
def enclosing (t : Table) (scope : SymbolId) : List String :=
  modulesOn ((Table.symbolsAlong (t.lineage scope)).toOption.getD [])

/-- The name that a symbol is declared under: inside its modules if it is a function of the program,
and bare otherwise. -/
def nameIn (t : Table) (id : SymbolId) : Except Cause String := do
  let s ← t.get id
  if s.kind = .func ∧ s.isExternal = false then mangledSymbol t id else return s.name

theorem spelled_eq_nameIn (t : Table) {id : Ident} (hd : id.isDotted = true) :
    spelled t id = nameIn t id.symbol := by
  rw [spelled, if_pos hd, nameIn]

section
variable {t : Table}

theorem enclosing_root (ht : t.Rooted) : enclosing t Table.root = [] := by
  obtain ⟨r, hr, -, hkind, -⟩ := ht.root
  have hway : Table.symbolsAlong (t.lineage Table.root) = .ok [(Table.root, r)] := by
    rw [Table.lineage_root ht hr]
    rfl
  simp [enclosing, hway, modulesOn, Except.toOption, hkind]

/-- The way to the root goes through the parent. -/
theorem symbolsAlong_parent (ht : t.Rooted) {i : Nat} {s : Symbol} {scope : SymbolId}
    (hs : t.symbols[i]? = some s) (hp : s.parent = some scope) :
    ∃ above, Table.symbolsAlong (t.lineage scope) = .ok above ∧
      Table.symbolsAlong (t.lineage (.unit i)) = .ok ((.unit i, s) :: above) := by
  obtain ⟨j, rfl, hj, hway⟩ := ht.through_parent hs hp
  have hlt := Table.lt_size hs
  obtain ⟨above, habove, -⟩ :=
    Table.symbolsAlong_climbs (Table.climbs_lineage ht (i := j) (by omega))
  refine ⟨above, habove, ?_⟩
  rw [hway, Table.symbolsAlong, habove]
  rfl

/-- A symbol is in the modules of its parent, and in itself if it is a module. -/
theorem enclosing_parent (ht : t.Rooted) {i : Nat} {s : Symbol} {scope : SymbolId}
    (hs : t.symbols[i]? = some s) (hp : s.parent = some scope) :
    enclosing t (.unit i) = enclosing t scope ++ if s.kind = .mod then [s.name] else [] := by
  obtain ⟨above, habove, hway⟩ := symbolsAlong_parent ht hs hp
  unfold enclosing
  rw [habove, hway]
  by_cases hmod : s.kind = .mod <;> simp [Except.toOption, modulesOn, hmod]

theorem mangledSymbol_parent (ht : t.Rooted) {i : Nat} {s : Symbol} {scope : SymbolId}
    (hs : t.symbols[i]? = some s) (hp : s.parent = some scope) :
    mangledSymbol t (.unit i) = .ok (mangled (enclosing t scope) s.name) := by
  obtain ⟨above, habove, hway⟩ := symbolsAlong_parent ht hs hp
  unfold mangledSymbol enclosing
  rw [habove, hway]
  rfl

/-- Entering a scope other than a module leaves the open modules as they are. -/
theorem enclosing_sits (ht : t.Rooted) {scope id : SymbolId} {kind : SymbolKind}
    (h : t.Sits scope kind id) (hkind : kind ≠ .mod) : enclosing t id = enclosing t scope := by
  obtain ⟨i, s, rfl, hs, rfl, hp⟩ := h
  rw [enclosing_parent ht hs hp, if_neg hkind, List.append_nil]

/-- The modules that the writer keeps behind a statement are those of the scope that is innermost
there. -/
theorem modulesBehind_enclosing (ht : t.Rooted) {scope : SymbolId} {s : Stmt} (hk : s.Known t)
    (h : s.Placed t scope) :
    modulesBehind (enclosing t scope) s = enclosing t (s.innermost scope) := by
  cases s with
  | mod name symbol span =>
    obtain ⟨i, x, rfl, hx, hkind, hp⟩ := h
    obtain ⟨j, y, hj, hy, hname, -⟩ := hk
    cases hj
    obtain rfl : x = y := Option.some.inj (hx.symm.trans hy)
    change _ = enclosing t (.unit i)
    rw [enclosing_parent ht hx hp, if_pos hkind, modulesBehind, hname]
  | _ => rfl

/-! ### The names that are declared -/

/-- The symbols that pieces declare, with their names. -/
def declarations (ps : List Piece) : List (SymbolId × String) :=
  ps.filterMap fun
    | .declared symbol name => some (symbol, name)
    | _ => none

theorem mem_declarations {ps : List Piece} {symbol : SymbolId} {name : String} :
    (symbol, name) ∈ declarations ps ↔ .declared symbol name ∈ ps := by
  unfold declarations
  rw [List.mem_filterMap]
  constructor
  · rintro ⟨p, hp, heq⟩
    cases p with
    | declared symbol' name' =>
      cases heq
      exact hp
    | _ => cases heq
  · intro h
    exact ⟨_, h, rfl⟩

@[simp] theorem declarations_nil : declarations [] = [] := rfl

@[simp] theorem declarations_append (ps qs : List Piece) :
    declarations (ps ++ qs) = declarations ps ++ declarations qs :=
  List.filterMap_append

@[simp] theorem declarations_plain (text : String) (ps : List Piece) :
    declarations (.plain text :: ps) = declarations ps := rfl

@[simp] theorem declarations_declared (symbol : SymbolId) (name : String) (ps : List Piece) :
    declarations (.declared symbol name :: ps) = (symbol, name) :: declarations ps := rfl

@[simp] theorem declarations_used (id : Ident) (name : String) (ps : List Piece) :
    declarations (.used id name :: ps) = declarations ps := rfl

@[simp] theorem declarations_opened (ps : List Piece) :
    declarations (.opened :: ps) = declarations ps := rfl

@[simp] theorem declarations_closed (ps : List Piece) :
    declarations (.closed :: ps) = declarations ps := rfl

@[simp] theorem declarations_listed : (pss : List (List Piece)) →
    declarations (listed pss) = (pss.map declarations).flatten
  | [] => rfl
  | [ps] => by simp [listed]
  | ps :: qs :: rest => by
    rw [listed_cons_cons, declarations_append, declarations_plain, declarations_listed (qs :: rest)]
    rfl

mutual

/-- Expressions declare nothing. -/
@[simp] theorem declarations_expr (t : Table) : (e : Expr) → declarations (exprPieces t e) = []
  | .ident _ | .number _ _ | .string _ _ | .boolean _ _ | .null _ => rfl
  | .binary left _ right _ => by
    simp [exprPieces, declarations_expr t left, declarations_expr t right]
  | .unary _ argument _ => by simp [exprPieces, declarations_expr t argument]
  | .condition test yes no _ => by
    simp [exprPieces, declarations_expr t test, declarations_expr t yes, declarations_expr t no]
  | .call _ args _ => by simp [exprPieces, use, enlisted, declarations_exprs t args]
  | .assignment left _ right _ => by
    simp [exprPieces, declarations_expr t left, declarations_expr t right]
  | .parenthesized inner _ => by simp [exprPieces, declarations_expr t inner]

@[simp] theorem declarations_exprs (t : Table) : (es : List Expr) →
    ((exprsPieces t es).map declarations).flatten = []
  | [] => rfl
  | e :: rest => by simp [exprsPieces, declarations_expr t e, declarations_exprs t rest]

end

@[simp] theorem declarations_declaring (typing : Typing) (symbol : SymbolId) (name : String) :
    declarations (declaring t typing symbol name) = [(symbol, name)] := rfl

/-- A parameter list declares the parameters. -/
@[simp] theorem declarations_params (h : Header) :
    declarations (enlisted (paramsPieces t h)) = h.params.map fun b => (b.symbol, b.name) := by
  have hparams : ((paramsPieces t h).map declarations).flatten =
      h.params.map fun b => (b.symbol, b.name) := by
    unfold paramsPieces
    rw [List.map_append, List.flatten_append, List.map_map]
    have hrest : ((if h.variadic then [[Piece.plain "..."]] else []).map declarations).flatten =
        [] := by
      cases h.variadic <;> rfl
    rw [hrest, List.append_nil]
    induction h.params with
    | nil => rfl
    | cons b bs ih => simpa using ih
  simp [enlisted, hparams]

@[simp] theorem declarations_head (name : String) (h : Header) :
    declarations (headPieces t name h) =
      (h.symbol, name) :: h.params.map fun b => (b.symbol, b.name) := by
  simp [headPieces]

@[simp] theorem declarations_initial (initial : Option Expr) :
    declarations (initialPieces t initial) = [] := by
  cases initial <;> simp [initialPieces]

@[simp] theorem declarations_braced (ps : List Piece) :
    declarations (bracedPieces ps) = declarations ps := by
  simp [bracedPieces]

/-! ### The names that are used -/

/-- The names that pieces use, as they are written. -/
def uses (ps : List Piece) : List (Ident × String) :=
  ps.filterMap fun
    | .used id name => some (id, name)
    | _ => none

theorem mem_uses {ps : List Piece} {id : Ident} {name : String} :
    (id, name) ∈ uses ps ↔ .used id name ∈ ps := by
  unfold uses
  rw [List.mem_filterMap]
  constructor
  · rintro ⟨p, hp, heq⟩
    cases p with
    | used id' name' =>
      cases heq
      exact hp
    | _ => cases heq
  · intro h
    exact ⟨_, h, rfl⟩

@[simp] theorem uses_nil : uses [] = [] := rfl

@[simp] theorem uses_append (ps qs : List Piece) : uses (ps ++ qs) = uses ps ++ uses qs :=
  List.filterMap_append

@[simp] theorem uses_plain (text : String) (ps : List Piece) :
    uses (.plain text :: ps) = uses ps := rfl

@[simp] theorem uses_declared (symbol : SymbolId) (name : String) (ps : List Piece) :
    uses (.declared symbol name :: ps) = uses ps := rfl

@[simp] theorem uses_opened (ps : List Piece) : uses (.opened :: ps) = uses ps := rfl

@[simp] theorem uses_closed (ps : List Piece) : uses (.closed :: ps) = uses ps := rfl

@[simp] theorem uses_listed : (pss : List (List Piece)) →
    uses (listed pss) = (pss.map uses).flatten
  | [] => rfl
  | [ps] => by simp [listed]
  | ps :: qs :: rest => by
    rw [listed_cons_cons, uses_append, uses_plain, uses_listed (qs :: rest)]
    rfl

/-- A name with the way it is written. -/
def withSpelling (t : Table) (id : Ident) : Ident × String :=
  (id, (spelled t id).toOption.getD "")

@[simp] theorem uses_use (id : Ident) (ps : List Piece) :
    uses (use t id :: ps) = withSpelling t id :: uses ps := rfl

mutual

/-- The names that the text of an expression uses are those of the expression. -/
@[simp] theorem uses_expr (t : Table) : (e : Expr) →
    uses (exprPieces t e) = e.idents.map (withSpelling t)
  | .ident _ | .number _ _ | .string _ _ | .boolean _ _ | .null _ => rfl
  | .binary left _ right _ => by
    simp [exprPieces, Expr.idents, uses_expr t left, uses_expr t right]
  | .unary _ argument _ => by simp [exprPieces, Expr.idents, uses_expr t argument]
  | .condition test yes no _ => by
    simp [exprPieces, Expr.idents, uses_expr t test, uses_expr t yes, uses_expr t no]
  | .call _ args _ => by simp [exprPieces, Expr.idents, enlisted, uses_exprs t args]
  | .assignment left _ right _ => by
    simp [exprPieces, Expr.idents, uses_expr t left, uses_expr t right]
  | .parenthesized inner _ => by simp [exprPieces, Expr.idents, uses_expr t inner]

@[simp] theorem uses_exprs (t : Table) : (es : List Expr) →
    ((exprsPieces t es).map uses).flatten = (Expr.allIdents es).map (withSpelling t)
  | [] => rfl
  | e :: rest => by
    simp [exprsPieces, Expr.allIdents, uses_expr t e, uses_exprs t rest]

end

@[simp] theorem uses_declaring (typing : Typing) (symbol : SymbolId) (name : String) :
    uses (declaring t typing symbol name) = [] := rfl

@[simp] theorem uses_params (h : Header) : uses (enlisted (paramsPieces t h)) = [] := by
  have hparams : ((paramsPieces t h).map uses).flatten = [] := by
    simp only [List.flatten_eq_nil_iff, List.mem_map]
    rintro _ ⟨ps, hps, rfl⟩
    unfold paramsPieces at hps
    rcases List.mem_append.mp hps with hps | hps
    · obtain ⟨b, -, rfl⟩ := List.mem_map.mp hps
      rfl
    · split at hps
      · rw [List.mem_singleton.mp hps]
        rfl
      · cases hps
  simp [enlisted, hparams]

@[simp] theorem uses_head (name : String) (h : Header) : uses (headPieces t name h) = [] := by
  simp [headPieces]

@[simp] theorem uses_initial (initial : Option Expr) :
    uses (initialPieces t initial) = (initial.toList.flatMap Expr.idents).map (withSpelling t) := by
  cases initial <;> simp [initialPieces]

@[simp] theorem uses_braced (ps : List Piece) : uses (bracedPieces ps) = uses ps := by
  simp [bracedPieces]

mutual

theorem uses_stmt (modules : List String) : (s : Stmt) →
    uses (stmtPieces t modules s) = (s.exprs.flatMap Expr.idents).map (withSpelling t)
  | .empty _ | .mod _ _ _ => rfl
  | .declare _ _ _ | .externalVariable _ _ | .externalFunction _ _ _ | .returned _ _
  | .typeAlias _ _ _ _ | .expr _ _ => by
    simp [stmtPieces, Stmt.exprs]
  | .whileLoop _ body _ => by simp [stmtPieces, Stmt.exprs, uses_block modules body]
  | .ifThen _ yes _ => by simp [stmtPieces, Stmt.exprs, uses_block modules yes]
  | .ifElse _ yes no _ => by
    simp [stmtPieces, Stmt.exprs, uses_block modules yes, uses_block modules no]
  | .func _ body _ => by simp [stmtPieces, Stmt.exprs, uses_block modules body]

theorem uses_block (modules : List String) : (b : Block) →
    uses (blockPieces t modules b) = (b.exprs.flatMap Expr.idents).map (withSpelling t)
  | .mk stmts _ _ => uses_stmts modules stmts

/-- The names that the text of statements uses are those of their expressions, in order. -/
theorem uses_stmts (modules : List String) : (ss : List Stmt) →
    uses (stmtsPieces t modules ss) =
      ((Stmt.allExprs ss).flatMap Expr.idents).map (withSpelling t)
  | [] => rfl
  | s :: rest => by
    simp [stmtsPieces, Stmt.allExprs, uses_stmt modules s, uses_stmts _ rest]

end

/-! ### Names as the table has them -/

theorem nameIn_declares {symbol : SymbolId} {name : String} {kind : SymbolKind}
    {typing : Option Typing} {external : Bool} (h : t.Declares symbol name kind typing external)
    (hbare : kind ≠ .func ∨ external = true) : nameIn t symbol = .ok name := by
  obtain ⟨i, s, rfl, hs, rfl, rfl, -, rfl⟩ := h
  have hget : t.get (.unit i) = .ok s := by simp [Table.get, Table.get?, hs]
  have hcond : ¬(s.kind = .func ∧ s.isExternal = false) := by
    rintro ⟨hfunc, hext⟩
    rcases hbare with hne | hext'
    · exact hne hfunc
    · rw [hext] at hext'
      cases hext'
  unfold nameIn
  rw [hget]
  simp only [bind, Except.bind, if_neg hcond]
  rfl

theorem nameIn_function (ht : t.Rooted) {scope symbol : SymbolId} {name : String}
    {typing : Option Typing} (h : t.Declares symbol name .func typing false)
    (hp : t.Sits scope .func symbol) :
    nameIn t symbol = .ok (mangled (enclosing t scope) name) ∧
      mangledSymbol t symbol = .ok (mangled (enclosing t scope) name) := by
  obtain ⟨i, s, rfl, hs, rfl, hkind, -, hext⟩ := h
  obtain ⟨j, x, hj, hx, -, hparent⟩ := hp
  cases hj
  obtain rfl : s = x := Option.some.inj (hs.symm.trans hx)
  have hget : t.get (.unit i) = .ok s := by simp [Table.get, Table.get?, hs]
  have hmangled := mangledSymbol_parent ht hs hparent
  unfold nameIn
  rw [hget]
  simp only [bind, Except.bind,
    if_pos (show s.kind = .func ∧ s.isExternal = false from ⟨hkind, hext⟩)]
  exact ⟨hmangled, hmangled⟩

/-- Declarations under the names that the table has for their symbols. -/
def Named (t : Table) (ds : List (SymbolId × String)) : Prop :=
  ∀ d ∈ ds, nameIn t d.1 = .ok d.2

theorem named_nil : Named t [] := by
  simp [Named]

theorem Named.append {ds ds' : List (SymbolId × String)} (h : Named t ds) (h' : Named t ds') :
    Named t (ds ++ ds') := by
  intro d hd
  rcases List.mem_append.mp hd with hd | hd
  · exact h d hd
  · exact h' d hd

theorem named_single {symbol : SymbolId} {name : String} (h : nameIn t symbol = .ok name) :
    Named t [(symbol, name)] := by
  simpa [Named] using h

theorem named_head {f : Header} {external : Bool} (hk : f.Known t external) {name : String}
    (h : nameIn t f.symbol = .ok name) :
    Named t ((f.symbol, name) :: f.params.map fun b => (b.symbol, b.name)) := by
  refine (named_single h).append fun d hd => ?_
  obtain ⟨b, hb, rfl⟩ := List.mem_map.mp hd
  exact nameIn_declares (hk.1 b hb).2 (.inl (by decide))

mutual

/-- **The name that a statement writes for what it declares is the one that the table has for its
symbol**, if the open modules are those around the scope of the statement. -/
theorem named_stmt (ht : t.Rooted) {scope : SymbolId} : {s : Stmt} → s.Known t →
    s.Placed t scope → Named t (declarations (stmtPieces t (enclosing t scope) s))
  | .empty _, _, _ | .mod _ _ _, _, _ => named_nil
  | .declare b initial _, hk, _ => by
    simpa [stmtPieces] using named_single (nameIn_declares hk.1.2 (.inl (by decide)))
  | .externalVariable b _, hk, _ => by
    simpa [stmtPieces] using named_single (nameIn_declares hk.2 (.inl (by decide)))
  | .externalFunction f _ _, hk, _ => by
    obtain ⟨returns, -, hd⟩ := hk.2
    simpa [stmtPieces] using named_head hk (nameIn_declares hd (.inr rfl))
  | .whileLoop _ body _, hk, hp => by
    simpa [stmtPieces] using named_block ht (b := body) hk.2 hp
  | .ifThen _ yes _, hk, hp => by
    simpa [stmtPieces] using named_block ht (b := yes) hk.2 hp
  | .ifElse _ _ _ _, hk, hp => by
    simpa [stmtPieces] using (named_block ht hk.2.1 hp.1).append (named_block ht hk.2.2 hp.2)
  | .returned _ _, _, _ | .expr _ _, _, _ => by
    simpa [stmtPieces] using named_nil
  | .typeAlias _ _ _ _, hk, _ => by
    obtain ⟨typing, -, hd⟩ := hk
    simpa [stmtPieces] using named_single (nameIn_declares hd (.inl (by decide)))
  | .func f (.mk body _ _) _, hk, hp => by
    obtain ⟨returns, -, hd⟩ := hk.1.2
    -- The body stands in the function, which is in the same modules.
    have hbody : Named t (declarations (stmtsPieces t (enclosing t f.symbol) body)) :=
      named_stmts ht hk.2.2 hp.2.2
    rw [enclosing_sits ht hp.1.1 (by decide)] at hbody
    simpa [stmtPieces, blockPieces] using
      (named_head hk.1 (nameIn_function ht hd hp.1.1).1).append hbody

theorem named_block (ht : t.Rooted) {scope : SymbolId} : {b : Block} → b.Known t →
    b.Placed t scope → Named t (declarations (blockPieces t (enclosing t scope) b))
  | .mk _ _ _, hk, hp => by
    have hbody := named_stmts ht hk hp.2
    rwa [enclosing_sits ht hp.1 (by decide)] at hbody

theorem named_stmts (ht : t.Rooted) {scope : SymbolId} : {ss : List Stmt} → Stmt.AllKnown t ss →
    Stmt.AllPlaced t scope ss → Named t (declarations (stmtsPieces t (enclosing t scope) ss))
  | [], _, _ => named_nil
  | s :: rest, hk, hp => by
    have hrest := named_stmts ht hk.2 hp.2
    rw [← modulesBehind_enclosing ht hk.1 hp.1] at hrest
    simpa [stmtsPieces] using (named_stmt ht hk.1 hp.1).append hrest

end

/-! ### What the table has is declared -/

/-- The handles among `ids` that do not belong to a module or to a block are declared. -/
def Covers (t : Table) (ids : List SymbolId) (ds : List (SymbolId × String)) : Prop :=
  ∀ id ∈ ids, ∀ s, t.get? id = some s → s.kind ≠ .mod → s.kind ≠ .block →
    ∃ name, (id, name) ∈ ds

theorem covers_nil : Covers t [] [] := by
  simp [Covers]

theorem Covers.append {ids ids' : List SymbolId} {ds ds' : List (SymbolId × String)}
    (h : Covers t ids ds) (h' : Covers t ids' ds') : Covers t (ids ++ ids') (ds ++ ds') := by
  intro id hid s hs hmod hblock
  rcases List.mem_append.mp hid with hid | hid
  · obtain ⟨name, hname⟩ := h id hid s hs hmod hblock
    exact ⟨name, List.mem_append_left _ hname⟩
  · obtain ⟨name, hname⟩ := h' id hid s hs hmod hblock
    exact ⟨name, List.mem_append_right _ hname⟩

theorem covers_single (id : SymbolId) (name : String) : Covers t [id] [(id, name)] := by
  intro x hx s hs hmod hblock
  exact ⟨name, by simpa using hx⟩

theorem covers_head (f : Header) (name : String) :
    Covers t f.created ((f.symbol, name) :: f.params.map fun b => (b.symbol, b.name)) := by
  refine (covers_single f.symbol name).append fun id hid s hs hmod hblock => ?_
  obtain ⟨b, hb, rfl⟩ := List.mem_map.mp hid
  exact ⟨b.name, List.mem_map.mpr ⟨b, hb, rfl⟩⟩

/-- A scope that needs no declaration of its own. -/
theorem Covers.cons {scope id : SymbolId} {kind : SymbolKind} {ids : List SymbolId}
    {ds : List (SymbolId × String)} (hid : t.Sits scope kind id)
    (hkind : kind = .mod ∨ kind = .block) (h : Covers t ids ds) : Covers t (id :: ids) ds := by
  intro x hx s hs hmod hblock
  rcases List.mem_cons.mp hx with rfl | hx
  · obtain ⟨i, y, rfl, hy, hk, -⟩ := hid
    obtain rfl : y = s := Option.some.inj (hy.symm.trans hs)
    rcases hkind with rfl | rfl
    · exact absurd hk hmod
    · exact absurd hk hblock
  · exact h x hx s hs hmod hblock

mutual

theorem covers_stmt {scope : SymbolId} (modules : List String) : {s : Stmt} → s.Placed t scope →
    Covers t s.created (declarations (stmtPieces t modules s))
  | .empty _, _ => covers_nil
  | .mod _ symbol _, hp => Covers.cons hp (.inl rfl) covers_nil
  | .declare b initial _, _ => by
    simpa [stmtPieces, Stmt.created] using covers_single (t := t) b.symbol b.name
  | .externalVariable b _, _ => by
    simpa [stmtPieces, Stmt.created] using covers_single (t := t) b.symbol b.name
  | .externalFunction f _ _, _ => by
    simpa [stmtPieces, Stmt.created] using covers_head (t := t) f f.name
  | .whileLoop _ body _, hp => by
    simpa [stmtPieces, Stmt.created] using covers_block modules (b := body) hp
  | .ifThen _ yes _, hp => by
    simpa [stmtPieces, Stmt.created] using covers_block modules (b := yes) hp
  | .ifElse _ yes no _, hp => by
    simpa [stmtPieces, Stmt.created] using
      (covers_block modules hp.1).append (covers_block modules hp.2)
  | .returned _ _, _ | .expr _ _, _ => by
    simpa [stmtPieces, Stmt.created] using covers_nil (t := t)
  | .typeAlias name _ symbol _, _ => by
    simpa [stmtPieces, Stmt.created] using covers_single (t := t) symbol name
  | .func f (.mk body _ _) _, hp => by
    simpa [stmtPieces, blockPieces, Stmt.created] using
      (covers_head f (mangled modules f.name)).append (covers_stmts modules hp.2.2)

theorem covers_block {scope : SymbolId} (modules : List String) : {b : Block} → b.Placed t scope →
    Covers t b.created (declarations (blockPieces t modules b))
  | .mk _ _ _, hp => Covers.cons hp.1 (.inr rfl) (covers_stmts modules hp.2)

theorem covers_stmts {scope : SymbolId} (modules : List String) : {ss : List Stmt} →
    Stmt.AllPlaced t scope ss →
    Covers t (Stmt.allCreated ss) (declarations (stmtsPieces t modules ss))
  | [], _ => covers_nil
  | s :: rest, hp => by
    simpa [stmtsPieces, Stmt.allCreated] using
      (covers_stmt modules hp.1).append (covers_stmts _ hp.2)

end

mutual

/-- What is defined in a known statement is a known function of the program. -/
theorem known_definition {f : Header} : {s : Stmt} → s.Known t → f ∈ s.definitions →
    f.Known t false
  | .whileLoop _ _ _, hk, hf => known_blockDefinition hk.2 hf
  | .ifThen _ _ _, hk, hf => known_blockDefinition hk.2 hf
  | .ifElse _ _ _ _, hk, hf => by
    rcases List.mem_append.mp hf with hf | hf
    · exact known_blockDefinition hk.2.1 hf
    · exact known_blockDefinition hk.2.2 hf
  | .func g body _, hk, hf => by
    rcases List.mem_cons.mp hf with rfl | hf
    · exact hk.1
    · exact known_blockDefinition hk.2.2 hf
  | .empty _, _, hf | .mod _ _ _, _, hf | .declare _ _ _, _, hf | .externalVariable _ _, _, hf
  | .externalFunction _ _ _, _, hf | .returned _ _, _, hf | .typeAlias _ _ _ _, _, hf
  | .expr _ _, _, hf => absurd hf List.not_mem_nil

theorem known_blockDefinition {f : Header} : {b : Block} → b.Known t → f ∈ b.definitions →
    f.Known t false
  | .mk _ _ _, hk, hf => known_definitions hk hf

theorem known_definitions {f : Header} : {ss : List Stmt} → Stmt.AllKnown t ss →
    f ∈ Stmt.allDefinitions ss → f.Known t false
  | [], _, hf => absurd hf List.not_mem_nil
  | _ :: _, hk, hf => by
    rcases List.mem_append.mp hf with hf | hf
    · exact known_definition hk.1 hf
    · exact known_definitions hk.2 hf

end

/-- A function, variable or parameter of a bound program is declared in its text, and just under the
name that the table has for it. -/
theorem declared_iff {root : Node} {source : ByteArray} {u : CompilationUnit}
    (h : bindTree root source = .ok u) {id : SymbolId} {s : Symbol}
    (hs : u.table.get? id = some s) (hkind : s.kind = .func ∨ s.kind = .var ∨ s.kind = .param) :
    ∃ name, nameIn u.table id = .ok name ∧ ∀ name',
      .declared id name' ∈ stmtsPieces u.table [] u.sourceFile.stmts ↔ name' = name := by
  obtain ⟨ctx, htable, hbinds⟩ := bindTree_binds h
  have ht := hbinds.reaches.wellFormed.table.toRooted
  have hknown := hbinds.known
  have hplaced := hbinds.placed
  have hcreated := hbinds.created
  rw [← htable] at ht hknown hplaced hcreated
  have hnamed := named_stmts ht hknown hplaced
  rw [show Context.initial.current = Table.root from rfl, enclosing_root ht] at hnamed
  -- The handle is one of those that the program has created, all but the root.
  have hmem : id ∈ Stmt.allCreated u.sourceFile.stmts := by
    cases id with
    | builtin i =>
      obtain ⟨name, -, rfl⟩ := Option.map_eq_some_iff.mp hs
      rcases hkind with hk | hk | hk <;> cases hk
    | unit i =>
      refine hcreated.mem ?_ (Table.lt_size hs)
      change 1 ≤ i
      refine Nat.one_le_iff_ne_zero.mpr ?_
      rintro rfl
      obtain ⟨r, hr, -, hroot, -⟩ := ht.root
      obtain rfl : s = r := Option.some.inj (hs.symm.trans hr)
      rw [hroot] at hkind
      rcases hkind with hk | hk | hk <;> cases hk
  obtain ⟨name, hname⟩ := covers_stmts [] hplaced id hmem s hs
    (by rcases hkind with hk | hk | hk <;> rw [hk] <;> decide)
    (by rcases hkind with hk | hk | hk <;> rw [hk] <;> decide)
  refine ⟨name, hnamed _ hname, fun name' => ⟨fun hname' => ?_, ?_⟩⟩
  · have hthis : nameIn u.table id = .ok name' := hnamed _ (mem_declarations.mpr hname')
    have hthat : nameIn u.table id = .ok name := hnamed _ hname
    exact Except.ok.inj (hthis.symm.trans hthat)
  · rintro rfl
    exact mem_declarations.mp hname

end
end Code

open BlockC.Bound Code

/-- **Definitions and uses spell a name alike.**  The C text of a program that can be analyzed is
made up of pieces, whose uses of names are those of the program.  A function that the program
defines, at any depth, is declared there under its mangled symbol and under no other name.  A dotted
name of a function, a variable or a parameter is written there as the name under which its symbol is
declared, which is the mangled symbol if the program defines the function, and the bare name
otherwise. -/
theorem definitions_and_uses_agree {root : Node} {source : ByteArray} {u : CompilationUnit}
    (h : bindTree root source = .ok u) :
    (∀ text, analyze text = .ok u → ∀ withPrelude, unit u withPrelude =
      .ok ((if withPrelude then prelude else "") ++
        render (stmtsPieces u.table [] u.sourceFile.stmts))) ∧
    (uses (stmtsPieces u.table [] u.sourceFile.stmts)).map Prod.fst =
      (Stmt.allExprs u.sourceFile.stmts).flatMap Expr.idents ∧
    (∀ f ∈ Stmt.allDefinitions u.sourceFile.stmts, ∃ name,
      mangledSymbol u.table f.symbol = .ok name ∧ ∀ name',
        .declared f.symbol name' ∈ stmtsPieces u.table [] u.sourceFile.stmts ↔ name' = name) ∧
    ∀ id name s, .used id name ∈ stmtsPieces u.table [] u.sourceFile.stmts →
      id.isDotted = true → u.table.get? id.symbol = some s →
      s.kind = .func ∨ s.kind = .var ∨ s.kind = .param →
      (if s.kind = .func ∧ s.isExternal = false then mangledSymbol u.table id.symbol = .ok name
        else name = s.name) ∧
      ∀ name', .declared id.symbol name' ∈ stmtsPieces u.table [] u.sourceFile.stmts ↔
        name' = name := by
  refine ⟨fun text htext => unit_eq_render_of_analyze htext, ?_, fun f hf => ?_, ?_⟩
  · rw [uses_stmts, List.map_map]
    exact List.map_id _
  · obtain ⟨ctx, htable, hbinds⟩ := bindTree_binds h
    have hknown := hbinds.known
    rw [← htable] at hknown
    obtain ⟨-, returns, -, i, s, hi, hs, -, hkind, -, hext⟩ := known_definitions hknown hf
    have hget? : u.table.get? f.symbol = some s := by rw [hi]; exact hs
    obtain ⟨name, hname, hiff⟩ := declared_iff h hget? (.inl hkind)
    refine ⟨name, ?_, hiff⟩
    have hget : u.table.get f.symbol = .ok s := by simp [Table.get, hget?]
    unfold nameIn at hname
    rw [hget] at hname
    simpa only [bind, Except.bind, hkind, hext, and_self, if_true] using hname
  · intro id name s hused hdotted hs hkind
    obtain ⟨name', hname', hiff⟩ := declared_iff h hs hkind
    -- A dotted name is spelled as the table names its symbol.
    have hspelled : spelled u.table id = .ok name' :=
      (spelled_eq_nameIn u.table hdotted).trans hname'
    obtain rfl : name = name' := by
      have hmem := mem_uses.mpr hused
      rw [uses_stmts] at hmem
      obtain ⟨id', -, heq⟩ := List.mem_map.mp hmem
      obtain ⟨rfl, rfl⟩ := Prod.mk.inj heq
      rw [hspelled]
      rfl
    refine ⟨?_, hiff⟩
    have hget : u.table.get id.symbol = .ok s := by simp [Table.get, hs]
    unfold nameIn at hname'
    rw [hget] at hname'
    simp only [bind, Except.bind] at hname'
    split at hname'
    · rename_i hfunc
      rwa [if_pos hfunc]
    · rename_i hfunc
      rw [if_neg hfunc]
      exact (Except.ok.inj hname').symm

/-- A function of a module that is opened inside a function of another module. -/
theorem inner_module_spells_alike :
    ∃ u id, analyze "mod a; fn f() -> i32 do mod b; fn g() -> i32 do return a.f(); end
        return a.f.b.g(); end" = .ok u ∧
      .used id "a_b_g" ∈ stmtsPieces u.table [] u.sourceFile.stmts ∧
      mangledSymbol u.table id.symbol = .ok "a_b_g" ∧ ∀ name,
        .declared id.symbol name ∈ stmtsPieces u.table [] u.sourceFile.stmts ↔ name = "a_b_g" := by
  have hlast : (analyze "mod a; fn f() -> i32 do mod b; fn g() -> i32 do return a.f(); end
        return a.f.b.g(); end").toOption.map
      (fun u => (uses (stmtsPieces u.table [] u.sourceFile.stmts)).getLast?.map fun use =>
        (use.2, use.1.isDotted,
          (u.table.get? use.1.symbol).map fun s => (s.kind, s.isExternal))) =
      some (some ("a_b_g", true, some (.func, false))) := by decide +kernel
  obtain ⟨u, hu, huse⟩ := exists_ok_of_map hlast
  obtain ⟨⟨id, name⟩, hmem, heq⟩ := Option.map_eq_some_iff.mp huse
  obtain ⟨rfl, hrest⟩ := Prod.mk.inj heq
  obtain ⟨hdotted, hkind⟩ := Prod.mk.inj hrest
  obtain ⟨s, hs, hfunc⟩ := Option.map_eq_some_iff.mp hkind
  obtain ⟨hfunc, hext⟩ := Prod.mk.inj hfunc
  have hused := mem_uses.mp (List.mem_of_getLast? hmem)
  obtain ⟨-, -, -, hagree⟩ := definitions_and_uses_agree (analyze_eq_ok hu).2
  obtain ⟨hname, hiff⟩ := hagree id _ s hused hdotted hs (.inl hfunc)
  rw [if_pos ⟨hfunc, hext⟩] at hname
  exact ⟨u, id, hu, hused, hname, hiff⟩

end BlockC

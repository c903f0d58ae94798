import BlockC.Proofs.BindingMoments
import BlockC.Proofs.CompileOutcome
import BlockC.Proofs.CompleteUnits
import BlockC.Proofs.TableWalks

/-! # What is called

A call is bound if following names for types from the type of what is called leads to a signature.
This is asked of the table at the moment of the call, and stays true since tables only grow.
Nothing else is asked, so a name for a function type can be called like a function, while modules
and built-in types cannot (`called_symbols_reach_signatures`).
-/
namespace BlockC

/-- The kinds of symbol that stand for a value. -/
def SymbolKind.IsValue (kind : SymbolKind) : Prop :=
  kind = .func ∨ kind = .var ∨ kind = .param

namespace Table

variable {t t' : Table} {id : SymbolId} {typing aliased : Typing}

/-- Names for types, any number of them, lead from a type to a signature. -/
def ReachesSignature (t : Table) (typing : Typing) : Prop :=
  ∃ params returns variadic,
    Relation.ReflTransGen t.StandsFor typing (.signature params returns variadic)

/-- A handle of a symbol that can be named and whose type leads to a signature. -/
def Callable (t : Table) (id : SymbolId) : Prop :=
  ∃ s typing, t.get? id = some s ∧ s.kind.IsNamed ∧ s.typing = some typing ∧
    t.ReachesSignature typing

/-! ### Growing tables -/

theorem GrowsInto.get? (h : t.GrowsInto t') {s : Symbol} (hs : t.get? id = some s) :
    ∃ s', t'.get? id = some s' ∧ s'.kind = s.kind ∧ s'.typing = s.typing := by
  cases id with
  | builtin i => exact ⟨s, hs, rfl, rfl⟩
  | unit i =>
    obtain ⟨new, hs'⟩ := h i s hs
    exact ⟨_, hs', rfl, rfl⟩

theorem StandsFor.mono (h : t.GrowsInto t') (hstep : t.StandsFor typing aliased) :
    t'.StandsFor typing aliased := by
  obtain ⟨id, s, rfl, hs, hkind, htyping⟩ := hstep
  obtain ⟨s', hs', hkind', htyping'⟩ := h.get? hs
  exact ⟨id, s', rfl, hs', hkind'.trans hkind, htyping'.trans htyping⟩

theorem Callable.mono (h : t.GrowsInto t') (hid : t.Callable id) : t'.Callable id := by
  obtain ⟨s, typing, hs, hnamed, htyping, params, returns, variadic, hsteps⟩ := hid
  obtain ⟨s', hs', hkind', htyping'⟩ := h.get? hs
  exact ⟨s', typing, hs', hkind' ▸ hnamed, htyping'.trans htyping, params, returns, variadic,
    Relation.ReflTransGen.mono (fun _ _ hstep => hstep.mono h) _ _ hsteps⟩

/-! ### The check of a call -/

/-- What the check lets pass can be called. -/
theorem WellFormed.callable (ht : t.WellFormed) (hid : t.Has id) (h : t.isCallable id = .ok true) :
    t.Callable id := by
  obtain ⟨s, hs, hnamed⟩ := hid
  unfold isCallable Table.get at h
  cases htyping : s.typing with
  | none => simp [hs, htyping, bind, Except.bind, pure, Except.pure] at h
  | some typing =>
    cases hfound : t.unalias typing with
    | error cause => simp [hs, htyping, hfound, bind, Except.bind] at h
    | ok found =>
      obtain ⟨hsteps, -⟩ := ht.unalias_iff.mp hfound
      cases found with
      | ref symbol qualifiers =>
        simp [hs, htyping, hfound, Typing.isSignature, bind, Except.bind, pure, Except.pure] at h
      | signature params returns variadic =>
        exact ⟨s, typing, hs, hnamed, htyping, params, returns, variadic, hsteps⟩

/-- What an expression calls could be called when it was bound, and can be called since. -/
theorem HasBound.callable {N : String → Prop} {e : Bound.Standing} (h : t.HasBound N e) :
    ∀ id ∈ e.expr.callees, t.Callable id.symbol := by
  intro id hid
  obtain ⟨moment, hwf, -, hgrows, hchecked⟩ := h
  obtain ⟨hname, hcallable⟩ := hchecked.callable id hid
  have hhas := hwf.resolveFullName_meets id.dotted
  rw [hchecked.found id hname] at hhas
  exact (hwf.table.callable hhas hcallable).mono hgrows

end Table

namespace Bound

/-! ### Types and modules of a program -/

/-- A symbol that is a name for a type just if one of the statements declares it as such, and that
has no type if it is a module. -/
def Accounted (t : Table) (ss : List Stmt) (id : SymbolId) : Prop :=
  ∀ s, t.get? id = some s →
    (s.kind = .typeName → ∃ name type span, .typeAlias name type id span ∈ ss) ∧
    (s.kind = .mod → s.typing = none)

section
variable {t : Table} {scope id : SymbolId} {kind : SymbolKind}

theorem Accounted.mono {ss ss' : List Stmt} (hsub : ss ⊆ ss') (h : Accounted t ss id) :
    Accounted t ss' id := by
  intro s hs
  obtain ⟨htype, hmod⟩ := h s hs
  refine ⟨fun hkind => ?_, hmod⟩
  obtain ⟨name, type, span, hmem⟩ := htype hkind
  exact ⟨name, type, span, hsub hmem⟩

theorem accounted_of_sits {ss : List Stmt} (h : t.Sits scope kind id) (htype : kind ≠ .typeName)
    (hmod : kind ≠ .mod) : Accounted t ss id := by
  obtain ⟨i, x, rfl, hx, hkind, -⟩ := h
  intro s hs
  obtain rfl : x = s := Option.some.inj (hx.symm.trans hs)
  exact ⟨fun h => absurd (hkind.symm.trans h) htype, fun h => absurd (hkind.symm.trans h) hmod⟩

theorem Header.Placed.accounted {ss : List Stmt} {f : Header} (h : f.Placed t scope) :
    ∀ id ∈ f.created, Accounted t ss id := by
  refine List.forall_mem_cons.mpr ⟨accounted_of_sits h.1 (by decide) (by decide), fun id hid => ?_⟩
  obtain ⟨p, hp, rfl⟩ := List.mem_map.mp hid
  exact accounted_of_sits (h.2 p hp) (by decide) (by decide)

mutual

theorem Stmt.accounted_created {scope : SymbolId} : {s : Stmt} → s.Known t → s.Placed t scope →
    ∀ id ∈ s.created, Accounted t (s :: s.inner) id
  | .empty _, _, _ | .returned _ _, _, _ | .expr _ _, _, _ => by simp [Stmt.created]
  | .mod _ _ _, hk, _ => by
    refine List.forall_mem_singleton.mpr fun s hs => ?_
    obtain ⟨x, hx, hkind, htyping, -⟩ := Table.Declares.symbol hk
    obtain rfl : x = s := Option.some.inj (hx.symm.trans hs)
    exact ⟨fun h => (by rw [hkind] at h; cases h), fun _ => htyping⟩
  | .typeAlias name type symbol span, hk, hp => by
    refine List.forall_mem_singleton.mpr fun s hs => ⟨fun _ => ?_, fun h => ?_⟩
    · exact ⟨name, type, span, List.mem_cons_self⟩
    · obtain ⟨i, x, rfl, hx, hkind, -⟩ := hp
      obtain rfl : x = s := Option.some.inj (hx.symm.trans hs)
      rw [hkind] at h
      cases h
  | .declare _ _ _, _, hp =>
    List.forall_mem_singleton.mpr (accounted_of_sits hp.1 (by decide) (by decide))
  | .externalVariable _ _, _, hp =>
    List.forall_mem_singleton.mpr (accounted_of_sits hp (by decide) (by decide))
  | .externalFunction _ _ _, _, hp => Header.Placed.accounted hp
  | .whileLoop _ body _, hk, hp => fun id hid =>
    (Block.accounted_created (b := body) hk.2 hp id hid).mono (List.subset_cons_self _ _)
  | .ifThen _ yes _, hk, hp => fun id hid =>
    (Block.accounted_created (b := yes) hk.2 hp id hid).mono (List.subset_cons_self _ _)
  | .ifElse _ yes no _, hk, hp => List.forall_mem_append.mpr
    ⟨fun id hid => (Block.accounted_created (b := yes) hk.2.1 hp.1 id hid).mono
        (List.Subset.trans (List.subset_append_left _ _) (List.subset_cons_self _ _)),
      fun id hid => (Block.accounted_created (b := no) hk.2.2 hp.2 id hid).mono
        (List.Subset.trans (List.subset_append_right _ _) (List.subset_cons_self _ _))⟩
  | .func _ (.mk _ _ _) _, hk, hp => List.forall_mem_append.mpr
    ⟨hp.1.accounted, fun id hid =>
      (Stmt.accounted_allCreated hk.2.2 hp.2.2 id hid).mono (List.subset_cons_self _ _)⟩

theorem Block.accounted_created {scope : SymbolId} : {b : Block} → b.Known t → b.Placed t scope →
    ∀ id ∈ b.created, Accounted t b.parts id
  | .mk _ _ _, hk, hp => List.forall_mem_cons.mpr
    ⟨accounted_of_sits hp.1 (by decide) (by decide), Stmt.accounted_allCreated hk hp.2⟩

theorem Stmt.accounted_allCreated {scope : SymbolId} : {ss : List Stmt} → Stmt.AllKnown t ss →
    Stmt.AllPlaced t scope ss → ∀ id ∈ Stmt.allCreated ss, Accounted t (Stmt.allParts ss) id
  | [], _, _ => by simp [Stmt.allCreated]
  | _ :: _, hk, hp => List.forall_mem_append.mpr
    ⟨fun id hid => (Stmt.accounted_created hk.1 hp.1 id hid).mono
        (List.cons_subset_cons _ (List.subset_append_left _ _)),
      fun id hid => (Stmt.accounted_allCreated hk.2 hp.2 id hid).mono
        (List.Subset.trans (List.subset_append_right _ _) (List.subset_cons_self _ _))⟩

end

end

/-! ### Units -/

/-- A statement of the unit declares the symbol as a name for a type. -/
def CompilationUnit.NamesType (u : CompilationUnit) (id : SymbolId) : Prop :=
  ∃ name type span, .typeAlias name type id span ∈ Stmt.allParts u.sourceFile.stmts

variable {root : Node} {source : ByteArray} {u : CompilationUnit}

theorem accounted_of_bindTree (h : bindTree root source = .ok u) {i : Nat} {s : Symbol}
    (hs : u.table.symbols[i]? = some s) :
    Accounted u.table (Stmt.allParts u.sourceFile.stmts) (.unit i) := by
  obtain ⟨ctx, htable, hbinds⟩ := bindTree_binds h
  have ht := hbinds.reaches.wellFormed.table
  have hcreated := hbinds.created
  have haccounted := Stmt.accounted_allCreated hbinds.known hbinds.placed
  rw [← htable] at ht hcreated haccounted
  -- The root was there before; every other symbol was created by a statement of the program.
  cases i with
  | zero =>
    obtain ⟨r, hr, -, hkind, -⟩ := ht.root
    intro x hx
    obtain rfl : r = x := Option.some.inj (hr.symm.trans hx)
    simp [hkind]
  | succ i =>
    exact haccounted _ (hcreated.mem (Nat.succ_le_succ (Nat.zero_le i)) (Table.lt_size hs))

theorem callable_of_bindTree (h : bindTree root source = .ok u) :
    ∀ e ∈ Stmt.allExprs u.sourceFile.stmts, ∀ id ∈ e.callees, u.table.Callable id.symbol := by
  intro e he
  rw [← Stmt.allStanding_exprs []] at he
  obtain ⟨standing, hmem, rfl⟩ := List.mem_map.mp he
  exact (hasBound_of_bindTree h standing hmem).callable

theorem kind_of_namesType (h : bindTree root source = .ok u) {id : SymbolId} {s : Symbol}
    (hs : u.table.get? id = some s) (hnames : u.NamesType id) : s.kind = .typeName := by
  obtain ⟨name, type, span, hmem⟩ := hnames
  obtain ⟨x, -, hx, hkind, -⟩ := (complete_of_bindTree h).typeAlias name type id span hmem
  obtain rfl : x = s := Option.some.inj (hx.symm.trans hs)
  exact hkind

/-- A symbol that has a type and can be named is a value, but for names for types. -/
theorem isValue_iff_of_bindTree (h : bindTree root source = .ok u) {id : SymbolId} {s : Symbol}
    {typing : Typing} (hs : u.table.get? id = some s) (hnamed : s.kind.IsNamed)
    (htyping : s.typing = some typing) : s.kind.IsValue ↔ ¬u.NamesType id := by
  constructor
  · intro hvalue hnames
    rw [kind_of_namesType h hs hnames] at hvalue
    simp [SymbolKind.IsValue] at hvalue
  · intro hnot
    cases id with
    | builtin i =>
      obtain ⟨name, -, rfl⟩ := Option.map_eq_some_iff.mp hs
      cases htyping
    | unit i =>
      obtain ⟨htype, hmod⟩ := accounted_of_bindTree h hs s hs
      cases hkind : s.kind with
      | func => exact .inl rfl
      | var => exact .inr (.inl rfl)
      | param => exact .inr (.inr rfl)
      | typeName => exact absurd (htype hkind) hnot
      | mod => simp [hmod hkind] at htyping
      | root => exact absurd hkind hnamed.1
      | block => exact absurd hkind hnamed.2

end Bound

open BlockC.Bound

/-- **What is called has the type of a function.**  Whatever tree a unit was bound from, names for
types lead from the type of every symbol that is called in it to a signature.  The symbol is a
function, a variable or a parameter just if it is not itself declared as a name for a type. -/
theorem called_symbols_reach_signatures {root : Node} {source : ByteArray} {u : CompilationUnit}
    (h : bindTree root source = .ok u) :
    ∀ e ∈ Stmt.allExprs u.sourceFile.stmts, ∀ id ∈ e.callees,
      ∃ s typing, u.table.get? id.symbol = some s ∧ s.typing = some typing ∧
        u.table.ReachesSignature typing ∧ (s.kind.IsValue ∨ s.kind = .typeName) ∧
        (s.kind.IsValue ↔ ¬u.NamesType id.symbol) := by
  intro e he id hid
  obtain ⟨s, typing, hs, hnamed, htyping, hreaches⟩ := callable_of_bindTree h e he id hid
  have hvalue := isValue_iff_of_bindTree h hs hnamed htyping
  refine ⟨s, typing, hs, htyping, hreaches, ?_, hvalue⟩
  by_cases hnames : u.NamesType id.symbol
  · exact .inr (kind_of_namesType h hs hnames)
  · exact .inl (hvalue.mpr hnames)

/-- A parameter whose type is a name for a name for a function type is called in a loop. -/
theorem called_parameter_reaches_signature :
    ∃ source u e id, source = "type f = fn(i8) -> i8 type g = f
        fn h(p: g) -> i8 do while true do let x: i8 = 1 + p(2) end return 0 end" ∧
      analyze source = .ok u ∧ e ∈ Stmt.allExprs u.sourceFile.stmts ∧ id ∈ e.callees ∧
      id.symbol = .unit 4 ∧ ∃ s typing, u.table.get? id.symbol = some s ∧
        s.typing = some typing ∧ u.table.ReachesSignature typing ∧
        (s.kind.IsValue ∨ s.kind = .typeName) ∧ (s.kind.IsValue ↔ ¬u.NamesType id.symbol) := by
  obtain ⟨source, hsource⟩ : ∃ source, source = "type f = fn(i8) -> i8 type g = f
        fn h(p: g) -> i8 do while true do let x: i8 = 1 + p(2) end return 0 end" := ⟨_, rfl⟩
  have hcalls : (analyze source).toOption.map (fun u => (Stmt.allExprs u.sourceFile.stmts).any
      fun e => e.callees.any (·.symbol = .unit 4)) = some true := by
    rw [hsource]
    decide +kernel
  obtain ⟨u, hu, hany⟩ := exists_ok_of_map hcalls
  obtain ⟨e, he, hany⟩ := List.any_eq_true.mp hany
  obtain ⟨id, hid, hsymbol⟩ := List.any_eq_true.mp hany
  exact ⟨source, u, e, id, hsource, hu, he, hid, of_decide_eq_true hsymbol,
    called_symbols_reach_signatures (analyze_eq_ok hu).2 e he id hid⟩

/-- A name for a function type is called, which is no value. -/
theorem called_type_is_no_value :
    ¬∀ source u, analyze source = .ok u → ∀ e ∈ Stmt.allExprs u.sourceFile.stmts,
      ∀ id ∈ e.callees, ∀ s, u.table.get? id.symbol = some s → s.kind.IsValue := by
  intro h
  obtain ⟨source, hsource⟩ : ∃ source, source = "type op = fn(i32) -> i32 let r: i32 = op(1)" :=
    ⟨_, rfl⟩
  have hcalls : (analyze source).toOption.map (fun u =>
      ((Stmt.allExprs u.sourceFile.stmts).any fun e => e.callees.any (·.symbol = .unit 1),
        (u.table.get? (.unit 1)).map (·.kind))) = some (true, some .typeName) := by
    rw [hsource]
    decide +kernel
  obtain ⟨u, hu, hfacts⟩ := exists_ok_of_map hcalls
  obtain ⟨hany, hkind⟩ := Prod.mk.inj hfacts
  obtain ⟨e, he, hany⟩ := List.any_eq_true.mp hany
  obtain ⟨id, hid, hsymbol⟩ := List.any_eq_true.mp hany
  obtain ⟨s, hs, htype⟩ := Option.map_eq_some_iff.mp hkind
  have hvalue := h source u hu e he id hid s (of_decide_eq_true hsymbol ▸ hs)
  rw [htype] at hvalue
  simp [SymbolKind.IsValue] at hvalue

end BlockC

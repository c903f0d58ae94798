import BlockC.Proofs.ScopeStack

/-! # When expressions are bound

Binding an expression changes nothing: its names are looked up in the context as it stands, and what
it calls is checked there (`Binder.expr_checks`).  The statements around it are bound one after
another, and the table only grows on the way.  So every expression of a program that is bound was
bound at some moment, when no functions were open but those around it, and over a table that has
grown into that of the program (`Binder.stmts_moments`).  What is known of an expression at such a
moment, and stays true as tables grow, is true of it in the end.
-/
namespace BlockC

/-! ### Expressions and the functions around them -/

namespace Bound

mutual

/-- The names that are called in an expression, in order. -/
def Expr.callees : Expr → List Ident
  | .binary left _ right _ | .assignment left _ right _ => left.callees ++ right.callees
  | .unary _ argument _ => argument.callees
  | .condition test yes no _ => test.callees ++ (yes.callees ++ no.callees)
  | .call callee args _ => callee :: Expr.allCallees args
  | .parenthesized inner _ => inner.callees
  | .ident _ | .number _ _ | .string _ _ | .boolean _ _ | .null _ => []

/-- The names that are called in expressions, in order. -/
def Expr.allCallees : List Expr → List Ident
  | [] => []
  | e :: rest => e.callees ++ Expr.allCallees rest

end

/-- An expression of a program, with the functions that it stands in, the innermost first. -/
structure Standing where
  around : List SymbolId
  expr : Expr

mutual

/-- The expressions of a statement that stands in the given functions. -/
def Stmt.standing (around : List SymbolId) : Stmt → List Standing
  | .empty _ | .mod _ _ _ | .externalVariable _ _ | .externalFunction _ _ _
  | .typeAlias _ _ _ _ => []
  | .declare _ initial _ => initial.toList.map (Standing.mk around)
  | .whileLoop test body _ => ⟨around, test⟩ :: body.standing around
  | .ifThen test yes _ => ⟨around, test⟩ :: yes.standing around
  | .ifElse test yes no _ => ⟨around, test⟩ :: (yes.standing around ++ no.standing around)
  | .returned value _ | .expr value _ => [⟨around, value⟩]
  | .func h (.mk body _ _) _ => Stmt.allStanding (h.symbol :: around) body

/-- The expressions of a block that stands in the given functions. -/
def Block.standing (around : List SymbolId) : Block → List Standing
  | .mk stmts _ _ => Stmt.allStanding around stmts

/-- The expressions of statements that stand in the given functions. -/
def Stmt.allStanding (around : List SymbolId) : List Stmt → List Standing
  | [] => []
  | s :: rest => s.standing around ++ Stmt.allStanding around rest

end

mutual

theorem Stmt.standing_exprs (around : List SymbolId) :
    (s : Stmt) → (s.standing around).map Standing.expr = s.exprs
  | .empty _ | .mod _ _ _ | .externalVariable _ _ | .externalFunction _ _ _
  | .typeAlias _ _ _ _ | .returned _ _ | .expr _ _ => rfl
  | .declare _ initial _ => by
    rw [Stmt.standing, List.map_map]
    exact List.map_id _
  | .whileLoop test body _ => by
    rw [Stmt.standing, List.map_cons, body.standing_exprs, Stmt.exprs]
  | .ifThen test yes _ => by
    rw [Stmt.standing, List.map_cons, yes.standing_exprs, Stmt.exprs]
  | .ifElse test yes no _ => by
    rw [Stmt.standing, List.map_cons, List.map_append, yes.standing_exprs, no.standing_exprs,
      Stmt.exprs]
  | .func h (.mk body _ _) _ => Stmt.allStanding_exprs (h.symbol :: around) body

theorem Block.standing_exprs (around : List SymbolId) :
    (b : Block) → (b.standing around).map Standing.expr = b.exprs
  | .mk stmts _ _ => Stmt.allStanding_exprs around stmts

/-- The functions around them apart, these are the expressions of the statements. -/
theorem Stmt.allStanding_exprs (around : List SymbolId) :
    (ss : List Stmt) → (Stmt.allStanding around ss).map Standing.expr = Stmt.allExprs ss
  | [] => rfl
  | s :: rest => by
    rw [Stmt.allStanding, List.map_append, s.standing_exprs, Stmt.allStanding_exprs, Stmt.allExprs]

end

end Bound

/-! ### Tables and scopes on the way -/

namespace Table

variable {t t' t'' : Table}

/-- Every symbol stays as it is, but for further children. -/
def GrowsInto (t t' : Table) : Prop :=
  ∀ (i : Nat) (s : Symbol), t.symbols[i]? = some s → ∃ new,
    t'.symbols[i]? = some { s with children := s.children ++ new }

theorem GrowsInto.refl (t : Table) : t.GrowsInto t :=
  fun _ _ hs => ⟨[], by simpa using hs⟩

theorem GrowsInto.trans (h : t.GrowsInto t') (h' : t'.GrowsInto t'') : t.GrowsInto t'' := by
  intro i s hs
  obtain ⟨new, hs'⟩ := h i s hs
  obtain ⟨new', hs''⟩ := h' i _ hs'
  exact ⟨new ++ new', by rw [hs'', List.append_assoc]⟩

theorem Grows.growsInto {scope : SymbolId} (h : t.Grows scope t') : t.GrowsInto t' := by
  intro i s hs
  obtain ⟨new, hs', -⟩ := h i s hs
  exact ⟨new, hs'⟩

end Table

namespace Context

variable {N : String → Prop} {ctx ctx' : Context} {around around' : List SymbolId}

/-- Every function that is open is one of the given. -/
def InFunctions (ctx : Context) (around : List SymbolId) : Prop :=
  ∀ (i : Nat) (s : Symbol), .unit i ∈ ctx.scopes → ctx.table.symbols[i]? = some s →
    s.kind = .func → .unit i ∈ around

theorem inFunctions_initial : Context.initial.InFunctions [] := by
  intro i s hmem hs hkind
  obtain rfl : i = 0 := by simpa [initial, Table.root] using hmem
  obtain rfl : s = .fresh Table.rootName .root none := by simpa [initial, Table.empty] using hs.symm
  cases hkind

/-- Further open scopes, each of which is no function or one of the given. -/
theorem InFunctions.push (h : ctx.InFunctions around) (hreach : ctx.Reaches N ctx')
    (hwf : ctx.WellFormed N) (new : List SymbolId) (hscopes : ctx'.scopes = new ++ ctx.scopes)
    (hsub : around ⊆ around')
    (hnew : ∀ (i : Nat) (s : Symbol), .unit i ∈ new → ctx'.table.symbols[i]? = some s →
      s.kind = .func → .unit i ∈ around') : ctx'.InFunctions around' := by
  intro i s hmem hs hkind
  rw [hscopes] at hmem
  rcases List.mem_append.mp hmem with hmem | hmem
  · exact hnew i s hmem hs hkind
  · -- A scope that was open before is as old as the table, and keeps its kind.
    obtain ⟨j, heq, hlt⟩ := hwf.nested.mem_lt hwf.table.toRooted hmem
    cases heq
    obtain ⟨old, hold⟩ := Table.exists_symbol hlt
    obtain ⟨s', hs', -, hkind', -⟩ := hreach.grows.keeps i old hold
    obtain rfl : s = s' := Option.some.inj (hs.symm.trans hs')
    exact hsub (h i old hmem hold (hkind'.symm.trans hkind))

/-- A block that is opened is no function. -/
theorem InFunctions.openBlock (h : ctx.InFunctions around) (hwf : ctx.WellFormed N)
    (hreach : ctx.Reaches N ⟨(ctx.table.create blockName .block ctx.current).2,
      .unit ctx.table.symbols.size :: ctx.scopes⟩) :
    Context.InFunctions ⟨(ctx.table.create blockName .block ctx.current).2,
      .unit ctx.table.symbols.size :: ctx.scopes⟩ around := by
  refine h.push hreach hwf [.unit ctx.table.symbols.size] rfl (List.Subset.refl _)
    fun i s hmem hs hkind => ?_
  cases List.mem_singleton.mp hmem
  have hlast := Table.symbols_extend_last ctx.table (.fresh blockName .block (some ctx.current))
  obtain rfl := Option.some.inj (hs.symm.trans hlast)
  cases hkind

end Context

/-! ### Names of an expression -/

/-- In the context, the names lead to their symbols, and those of them that are called are symbols
that can be called. -/
structure Context.Checked (ctx : Context) (names called : List Bound.Ident) : Prop where
  found : ∀ id ∈ names, ctx.table.resolveFullName ctx.current id.dotted = .ok id.symbol
  callable : ∀ id ∈ called, id ∈ names ∧ ctx.table.isCallable id.symbol = .ok true

theorem Context.checked_nil (ctx : Context) : ctx.Checked [] [] := ⟨by simp, by simp⟩

theorem Context.Checked.append {ctx : Context} {names names' called called' : List Bound.Ident}
    (h : ctx.Checked names called) (h' : ctx.Checked names' called') :
    ctx.Checked (names ++ names') (called ++ called') := by
  refine ⟨List.forall_mem_append.mpr ⟨h.found, h'.found⟩, List.forall_mem_append.mpr
    ⟨fun id hid => ?_, fun id hid => ?_⟩⟩
  · exact ⟨List.mem_append_left _ (h.callable id hid).1, (h.callable id hid).2⟩
  · exact ⟨List.mem_append_right _ (h'.callable id hid).1, (h'.callable id hid).2⟩

namespace Binder

open BlockC.Bound

section
variable {ctx : Context}

/-- One thing after another that leaves the context as it is. -/
theorem Leads.bind_same {α β : Type} {m : Binder α} {f : α → Binder β} {P : α → Prop}
    {Q : β → Context → Prop} (h : Leads m ctx (fun a c => ctx = c ∧ P a) fun _ _ => True)
    (hf : ∀ a, P a → Leads (f a) ctx Q fun _ _ => True) :
    Leads (m >>= f) ctx Q fun _ _ => True := by
  refine Leads.bind (h.mono ?_ fun _ _ _ => trivial)
  rintro a c ⟨rfl, ha⟩
  exact hf a ha

theorem ident_checks (id : Surface.Ident) :
    Leads (ident id) ctx (fun b c => ctx = c ∧ ctx.Checked [b] []) (fun _ _ => True) := by
  unfold ident
  refine Leads.bind (leads_get (Leads.bind (leads_located ?_)))
  cases hfound : ctx.table.resolveFullName ctx.current id.dotted with
  | error cause => trivial
  | ok symbol => exact ⟨rfl, List.forall_mem_singleton.mpr hfound, by simp⟩

theorem callee_checks (id : Surface.Ident) :
    Leads (callee id) ctx (fun b c => ctx = c ∧ ctx.Checked [b] [b]) (fun _ _ => True) := by
  unfold callee
  refine (ident_checks id).bind_same fun b hb => ?_
  refine Leads.bind (leads_get (Leads.bind (leads_located ?_)))
  cases hcallable : ctx.table.isCallable b.symbol with
  | error cause => trivial
  | ok callable =>
    cases callable with
    | true =>
      exact ⟨rfl, hb.found, List.forall_mem_singleton.mpr ⟨List.mem_singleton_self _, hcallable⟩⟩
    | false => trivial

mutual

/-- Binding an expression looks up its names and checks its calls, and leaves the context as it
is. -/
theorem expr_checks : (e : Surface.Expr) →
    Leads (expr e) ctx (fun b c => ctx = c ∧ ctx.Checked b.idents b.callees) (fun _ _ => True)
  | .ident id => by
    unfold expr
    refine (ident_checks id).bind_same fun b hb => ?_
    exact leads_pure ⟨rfl, hb⟩
  | .binary left _ right _ | .assignment left _ right _ => by
    unfold expr
    refine (expr_checks left).bind_same fun l hl => ?_
    refine (expr_checks right).bind_same fun r hr => ?_
    exact leads_pure ⟨rfl, hl.append hr⟩
  | .unary _ argument _ | .parenthesized argument _ => by
    unfold expr
    refine (expr_checks argument).bind_same fun a ha => ?_
    exact leads_pure ⟨rfl, ha⟩
  | .condition test yes no _ => by
    unfold expr
    refine (expr_checks test).bind_same fun x hx => ?_
    refine (expr_checks yes).bind_same fun y hy => ?_
    refine (expr_checks no).bind_same fun z hz => ?_
    exact leads_pure ⟨rfl, hx.append (hy.append hz)⟩
  | .call id args _ => by
    unfold expr
    refine (callee_checks id).bind_same fun b hb => ?_
    refine (exprs_check args).bind_same fun as has => ?_
    exact leads_pure ⟨rfl, hb.append has⟩
  | .number _ _ | .string _ _ | .boolean _ _ | .null _ => by
    unfold expr
    exact leads_pure ⟨rfl, ctx.checked_nil⟩
  | .bad d => by
    unfold expr
    exact leads_throw trivial
  | .stuck first d => by
    unfold expr
    exact .skip fun _ _ => leads_throw trivial

theorem exprs_check : (es : List Surface.Expr) →
    Leads (exprs es) ctx
      (fun bs c => ctx = c ∧ ctx.Checked (Expr.allIdents bs) (Expr.allCallees bs)) (fun _ _ => True)
  | [] => by
    unfold exprs
    exact leads_pure ⟨rfl, ctx.checked_nil⟩
  | e :: rest => by
    unfold exprs
    refine (expr_checks e).bind_same fun b hb => ?_
    refine (exprs_check rest).bind_same fun bs hbs => ?_
    exact leads_pure ⟨rfl, hb.append hbs⟩

end

end

end Binder

/-! ### Moments -/

/-- At some moment in the making of the table, when no functions were open but those around it, the
expression was bound. -/
def Table.HasBound (N : String → Prop) (t : Table) (e : Bound.Standing) : Prop :=
  ∃ moment : Context, moment.WellFormed N ∧ moment.InFunctions e.around ∧
    moment.table.GrowsInto t ∧ moment.Checked e.expr.idents e.expr.callees

theorem Table.HasBound.mono {N : String → Prop} {t t' : Table} (h : t.GrowsInto t')
    {e : Bound.Standing} (he : t.HasBound N e) : t'.HasBound N e := by
  obtain ⟨moment, hwf, hin, hgrows, hchecked⟩ := he
  exact ⟨moment, hwf, hin, hgrows.trans h, hchecked⟩

namespace Binder

open BlockC.Bound

variable {S : Surface.Standard} {ctx : Context} {around : List SymbolId}

theorem expr_moment (h : ctx.WellFormed S.name) (hin : ctx.InFunctions around)
    (e : Surface.Expr) :
    Leads (expr e) ctx (fun b c => ctx = c ∧ ctx.table.HasBound S.name ⟨around, b⟩)
      (fun _ _ => True) := by
  refine (expr_checks e).mono ?_ fun _ _ _ => trivial
  rintro b c ⟨rfl, hb⟩
  exact ⟨rfl, ctx, h, hin, .refl _, hb⟩

theorem initialValue_moment (h : ctx.WellFormed S.name) (hin : ctx.InFunctions around)
    (initial : Option Surface.Expr) :
    Leads (initialValue initial) ctx (fun b c => ctx = c ∧
      ∀ e ∈ b.toList.map (Standing.mk around), ctx.table.HasBound S.name e) (fun _ _ => True) := by
  cases initial with
  | none => exact leads_pure ⟨rfl, by simp⟩
  | some e =>
    refine (expr_moment h hin e).bind_same fun b hb => ?_
    exact leads_pure ⟨rfl, List.forall_mem_singleton.mpr hb⟩

/-- Statements open no functions but those that they close again. -/
theorem Binds.inFunctions {b : Stmt} {c : Context} (hb : Binds S ctx b c)
    (h : ctx.WellFormed S.name) (hin : ctx.InFunctions around) : c.InFunctions around := by
  refine hin.push hb.reaches h b.opens hb.scopes (List.Subset.refl _) fun i s hmem hs hkind => ?_
  cases b with
  | mod name symbol span =>
    obtain ⟨j, x, rfl, hx, -, hmod, -⟩ := hb.known
    obtain rfl : i = j := by simpa [Stmt.opens] using hmem
    obtain rfl : s = x := Option.some.inj (hs.symm.trans hx)
    rw [hkind] at hmod
    cases hmod
  | _ => simp [Stmt.opens] at hmem

mutual

/-- **Every expression of a statement was bound when just the functions around it were open.** -/
theorem stmt_moments (hS : ∀ e, S.expr e → e.Faults S.fault) {ctx : Context}
    {around : List SymbolId} (h : ctx.WellFormed S.name) (hin : ctx.InFunctions around) :
    (s : Surface.Stmt) → s.Over S →
    Leads (stmt s) ctx (fun b c => ∀ e ∈ b.standing around, c.table.HasBound S.name e)
      (fun _ _ => True)
  | .empty _, _ => by
    unfold stmt
    exact leads_pure (by simp [Stmt.standing])
  | .mod _ _, _ | .externalVariable _ _ _, _ | .typeAlias _ _ _, _ => by
    unfold stmt
    exact .skip fun _ _ => .skip fun _ _ => leads_pure (by simp [Stmt.standing])
  | .externalFunction _ _ _, _ => by
    unfold stmt
    exact .skip fun _ _ => leads_pure (by simp [Stmt.standing])
  | .declare b initial _, hs => by
    unfold stmt
    refine (initialValue_moment h hin initial).bind_same fun value hvalue => ?_
    refine Leads.bind ((binding_leads (P := S.fault) h (by decide) hs.1.1).mono ?_
      fun _ _ _ => trivial)
    rintro b' c ⟨hreach, -⟩
    exact leads_pure fun e he => (hvalue e he).mono hreach.grows.growsInto
  | .whileLoop test body _, hs | .ifThen test body _, hs => by
    unfold stmt
    refine (expr_moment h hin test).bind_same fun x hx => ?_
    refine Leads.bind (((block_leads hS h body hs.2).and (block_moments hS h hin body hs.2)).mono ?_
      fun _ _ _ => trivial)
    rintro b c ⟨hb, hbody⟩
    exact leads_pure (List.forall_mem_cons.mpr ⟨hx.mono hb.reaches.grows.growsInto, hbody⟩)
  | .ifElse test yes no _, hs => by
    unfold stmt
    refine (expr_moment h hin test).bind_same fun x hx => ?_
    refine Leads.bind (((block_leads hS h yes hs.2.1).and
      (block_moments hS h hin yes hs.2.1)).mono ?_ fun _ _ _ => trivial)
    rintro y c₁ ⟨hy, hyes⟩
    have hin₁ : c₁.InFunctions around :=
      hin.push hy.reaches h [] hy.scopes (List.Subset.refl _) (by simp)
    refine Leads.bind (((block_leads hS hy.reaches.wellFormed no hs.2.2).and
      (block_moments hS hy.reaches.wellFormed hin₁ no hs.2.2)).mono ?_ fun _ _ _ => trivial)
    rintro z c₂ ⟨hz, hno⟩
    have hlater := hz.reaches.grows.growsInto
    exact leads_pure (List.forall_mem_cons.mpr
      ⟨hx.mono (hy.reaches.grows.growsInto.trans hlater), List.forall_mem_append.mpr
        ⟨fun e he => (hyes e he).mono hlater, hno⟩⟩)
  | .returned value _, _ | .expr value _, _ => by
    unfold stmt
    refine (expr_moment h hin value).bind_same fun x hx => ?_
    exact leads_pure (List.forall_mem_singleton.mpr hx)
  | .func f (.mk body _) _, hs => by
    unfold stmt
    refine Leads.bind ((funcHeader_leads h hs.1).mono ?_ fun _ _ _ => trivial)
    rintro b c ⟨hreach, hscopes, hsymbol, -⟩
    have hinside : c.InFunctions (b.symbol :: around) := by
      refine hin.push hreach h [.unit ctx.table.symbols.size] hscopes
        (List.subset_cons_self _ _) fun i s hmem _ _ => ?_
      rw [hsymbol, List.mem_singleton.mp hmem]
      exact List.mem_cons_self
    refine Leads.bind ((stmts_moments hS hreach.wellFormed hinside body hs.2).mono ?_
      fun _ _ _ => trivial)
    intro bs c' hbs
    exact Leads.bind (leads_closeScope (leads_pure hbs))
  | .bad _, _ => by
    unfold stmt
    exact leads_throw trivial
  | .stuck _ _, _ => by
    unfold stmt
    exact .skip fun _ _ => leads_throw trivial

theorem block_moments (hS : ∀ e, S.expr e → e.Faults S.fault) {ctx : Context}
    {around : List SymbolId} (h : ctx.WellFormed S.name) (hin : ctx.InFunctions around) :
    (b : Surface.Block) → b.Over S →
    Leads (block b) ctx (fun b c => ∀ e ∈ b.standing around, c.table.HasBound S.name e)
      (fun _ _ => True)
  | .mk body _, hb => by
    unfold block
    have hopen : ctx.Reaches S.name ⟨(ctx.table.create blockName .block ctx.current).2,
        .unit ctx.table.symbols.size :: ctx.scopes⟩ :=
      Context.reaches_openScope h fun hne => absurd rfl hne.2
    refine Leads.bind (leads_openScope ?_)
    refine Leads.bind ((stmts_moments hS hopen.wellFormed (hin.openBlock h hopen) body hb).mono ?_
      fun _ _ _ => trivial)
    intro bs c hbs
    exact Leads.bind (leads_closeScope (leads_pure hbs))

theorem stmts_moments (hS : ∀ e, S.expr e → e.Faults S.fault) {ctx : Context}
    {around : List SymbolId} (h : ctx.WellFormed S.name) (hin : ctx.InFunctions around) :
    (ss : List Surface.Stmt) → Surface.Stmt.AllOver S ss →
    Leads (stmts ss) ctx (fun bs c => ∀ e ∈ Stmt.allStanding around bs, c.table.HasBound S.name e)
      (fun _ _ => True)
  | [], _ => by
    unfold stmts
    exact leads_pure (by simp [Stmt.allStanding])
  | s :: rest, hs => by
    unfold stmts
    refine Leads.bind (((stmt_leads hS h s hs.1).and (stmt_moments hS h hin s hs.1)).mono ?_
      fun _ _ _ => trivial)
    rintro b c ⟨hb, hfirst⟩
    have hwf := hb.reaches.wellFormed
    refine Leads.bind (((stmts_leads hS hwf rest hs.2).and
      (stmts_moments hS hwf (hb.inFunctions h hin) rest hs.2)).mono ?_ fun _ _ _ => trivial)
    rintro bs c' ⟨hbs, hrest⟩
    exact leads_pure (List.forall_mem_append.mpr
      ⟨fun e he => (hfirst e he).mono hbs.reaches.grows.growsInto, hrest⟩)

end

end Binder

/-- Every expression of a unit was bound at some moment. -/
theorem hasBound_of_bindTree {root : Node} {source : ByteArray} {u : Bound.CompilationUnit}
    (h : bindTree root source = .ok u) :
    ∀ e ∈ Bound.Stmt.allStanding [] u.sourceFile.stmts,
      u.table.HasBound Surface.anything.name e := by
  obtain ⟨ctx, hrun, htable⟩ := bindTree_run h
  have hleads := Binder.stmts_moments (S := Surface.anything) (fun e _ => e.faults_anything)
    Context.wellFormed_initial Context.inFunctions_initial _
    (Surface.Stmt.allOver_anything (Surface.stmtsOf source root.children))
  unfold Binder.Leads at hleads
  rw [hrun] at hleads
  rw [htable]
  exact hleads

end BlockC

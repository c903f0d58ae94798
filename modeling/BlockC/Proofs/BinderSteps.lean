import BlockC.Bound.Binder
import BlockC.Proofs.ContextInvariant
import Mathlib.Logic.Relation

/-! # The steps of binding

Whatever is bound, the context changes in single steps of a few kinds (`Context.Step`): a symbol is
created in the current scope, gets its type, is marked as declared elsewhere or is published under
its own parent, and scopes are opened and closed.  Binding a statement is a run of such steps from
every context, whether it succeeds or fails (`moves_stmt`).  So what every single step preserves
holds at every moment of a run.
-/
namespace BlockC

namespace Table

/-- A change of one symbol, which is one of the unit. -/
theorem update_ok {t t' : Table} {id : SymbolId} {f : Symbol → Except Cause Symbol}
    (h : t.update id f = .ok t') :
    ∃ i s s', id = .unit i ∧ t.symbols[i]? = some s ∧ f s = .ok s' ∧ t' = t.replace i s' := by
  cases id with
  | builtin i => cases h
  | unit i =>
    cases hs : t.symbols[i]? with
    | none => simp [update, hs] at h
    | some s =>
      rw [update_unit hs] at h
      cases hf : f s with
      | error cause => simp [hf, Except.map] at h
      | ok s' =>
        rw [hf] at h
        exact ⟨i, s, s', rfl, hs, hf, (Except.ok.inj h).symm⟩

/-- What is published is added to the children of its parent, which had none of its name. -/
theorem addChild_ok {t t' : Table} {parent : SymbolId} {k : Nat} {s : Symbol}
    (hs : t.symbols[k]? = some s) (h : t.addChild parent (.unit k) = .ok t') :
    ∃ p ps, parent = .unit p ∧ t.symbols[p]? = some ps ∧ ps.child? s.name = none ∧
      t' = t.replace p { ps with children := ps.children ++ [(s.name, .unit k)] } := by
  have hget : t.get (.unit k) = .ok s := by simp [get, get?, hs]
  rw [addChild, hget] at h
  obtain ⟨p, ps, ps', rfl, hps, hf, rfl⟩ := update_ok h
  refine ⟨p, ps, rfl, hps, ?_⟩
  split at hf
  · cases hf
  · rename_i hnone
    cases hf
    exact ⟨hnone, rfl⟩

/-- A symbol that can be published under the given parent. -/
def Owns (t : Table) (parent : SymbolId) (k : Nat) : Prop :=
  ∃ s, t.symbols[k]? = some s ∧ s.parent = some parent ∧ s.kind.IsNamed

theorem Owns.mono {t t' : Table} (ht : t.Keeps t') {parent : SymbolId} {k : Nat}
    (h : t.Owns parent k) : t'.Owns parent k := by
  obtain ⟨s, hs, hp, hk⟩ := h
  obtain ⟨s', hs', -, hkind, hparent⟩ := ht k s hs
  exact ⟨s', hs', hparent.trans hp, by rwa [hkind]⟩

end Table

namespace Context

/-- A single change of a context. -/
inductive Step : Context → Context → Prop
  /-- A symbol is created in the current scope. -/
  | create {ctx : Context} (name : String) (kind : SymbolKind) :
      Step ctx { ctx with table := (ctx.table.create name kind ctx.current).2 }
  /-- A symbol gets its type. -/
  | typed {ctx : Context} {table : Table} {id : SymbolId} {typing : Typing}
      (h : ctx.table.setTyping id typing = .ok table) : Step ctx { ctx with table }
  /-- A symbol is marked as declared elsewhere. -/
  | external {ctx : Context} {table : Table} {id : SymbolId}
      (h : ctx.table.markExternal id = .ok table) : Step ctx { ctx with table }
  /-- A symbol is published under its parent. -/
  | publish {ctx : Context} {table : Table} {parent : SymbolId} {k : Nat}
      (owned : ctx.table.Owns parent k) (h : ctx.table.addChild parent (.unit k) = .ok table) :
      Step ctx { ctx with table }
  /-- A symbol is opened as a scope. -/
  | enter {ctx : Context} {i : Nat} (h : i < ctx.table.symbols.size) : Step ctx (ctx.push (.unit i))
  /-- Scopes are closed. -/
  | leave {ctx : Context} (scope : SymbolId) : Step ctx (ctx.close scope)

/-- Changes one after the other. -/
abbrev Steps : Context → Context → Prop :=
  Relation.ReflTransGen Step

theorem Step.keeps {ctx ctx' : Context} (h : Step ctx ctx') : ctx.table.Keeps ctx'.table := by
  cases h with
  | create name kind => exact Table.keeps_extend _ _
  | typed h =>
    obtain ⟨i, s, s', -, hs, hf, rfl⟩ := Table.update_ok h
    cases hf
    exact Table.keeps_replace hs rfl rfl rfl
  | external h =>
    obtain ⟨i, s, s', -, hs, hf, rfl⟩ := Table.update_ok h
    cases hf
    exact Table.keeps_replace hs rfl rfl rfl
  | publish owned h =>
    obtain ⟨s, hs, -⟩ := owned
    obtain ⟨p, ps, -, hps, -, rfl⟩ := Table.addChild_ok hs h
    exact Table.keeps_replace hps rfl rfl rfl
  | enter | leave => exact Table.Keeps.refl _

theorem Steps.keeps {ctx ctx' : Context} (h : Steps ctx ctx') : ctx.table.Keeps ctx'.table := by
  induction h with
  | refl => exact Table.Keeps.refl _
  | tail _ hstep ih => exact ih.trans hstep.keeps

end Context

namespace Binder

open BlockC.Bound
open Context (Step Steps)

variable {α β : Type} {ctx : Context}

/-! ### Steps that only look -/

/-- A step of binding that leaves every context as it is. -/
def Still (m : Binder α) : Prop :=
  ∀ ctx, Leads m ctx (fun _ c => c = ctx) (fun _ c => c = ctx)

theorem still_pure (a : α) : Still (pure a) := fun _ => rfl

theorem still_throw (d : Diagnostic) : Still (throw d : Binder α) := fun _ => rfl

theorem Still.bind {m : Binder α} {f : α → Binder β} (h : Still m) (hf : ∀ a, Still (f a)) :
    Still (m >>= f) := by
  intro ctx
  refine Leads.bind ((h ctx).mono ?_ fun _ _ hc => hc)
  rintro a c rfl
  exact hf a c

theorem still_get : Still (get : Binder Context) := fun _ => rfl

theorem still_located (pos : Position) (r : Except Cause α) : Still (located pos r) := by
  cases r <;> exact fun _ => rfl

theorem still_known (r : Except Diagnostic α) : Still (known r) := by
  cases r <;> exact fun _ => rfl

theorem still_ident (id : Surface.Ident) : Still (ident id) :=
  still_get.bind fun _ => (still_located _ _).bind fun _ => still_pure _

theorem still_callee (id : Surface.Ident) : Still (callee id) := by
  refine (still_ident id).bind fun id => still_get.bind fun _ => (still_located _ _).bind ?_
  intro callable
  cases callable with
  | true => exact still_pure _
  | false => exact still_throw _

mutual

theorem still_expr : (e : Surface.Expr) → Still (expr e)
  | .ident id => by
    unfold expr
    exact (still_ident id).bind fun _ => still_pure _
  | .binary left _ right _ | .assignment left _ right _ => by
    unfold expr
    exact (still_expr left).bind fun _ => (still_expr right).bind fun _ => still_pure _
  | .unary _ argument _ => by
    unfold expr
    exact (still_expr argument).bind fun _ => still_pure _
  | .condition test yes no _ => by
    unfold expr
    exact (still_expr test).bind fun _ => (still_expr yes).bind fun _ =>
      (still_expr no).bind fun _ => still_pure _
  | .call id args _ => by
    unfold expr
    exact (still_callee id).bind fun _ => (still_exprs args).bind fun _ => still_pure _
  | .parenthesized inner _ => by
    unfold expr
    exact (still_expr inner).bind fun _ => still_pure _
  | .number _ _ | .string _ _ | .boolean _ _ | .null _ => by
    unfold expr
    exact still_pure _
  | .bad d => by
    unfold expr
    exact still_throw d
  | .stuck first d => by
    unfold expr
    exact (still_expr first).bind fun _ => still_throw d

theorem still_exprs : (es : List Surface.Expr) → Still (exprs es)
  | [] => by
    unfold exprs
    exact still_pure _
  | e :: rest => by
    unfold exprs
    exact (still_expr e).bind fun _ => (still_exprs rest).bind fun _ => still_pure _

end

theorem still_typeUse (a : Surface.TypeUse) : Still (typeUse a) :=
  still_get.bind fun _ => still_located _ _

theorem still_initialValue (initial : Option Surface.Expr) : Still (initialValue initial) := by
  cases initial with
  | none => exact still_pure _
  | some e => exact (still_expr e).bind fun _ => still_pure _

/-! ### Steps that change the context -/

/-- From a context, a step of binding leads on by single changes, whether it succeeds or fails. -/
def Moves (m : Binder α) (ctx : Context) : Prop :=
  Leads m ctx (fun _ c => Steps ctx c) (fun _ c => Steps ctx c)

theorem Still.moves {m : Binder α} (h : Still m) (ctx : Context) : Moves m ctx :=
  (h ctx).mono (fun _ _ hc => hc ▸ .refl) fun _ _ hc => hc ▸ .refl

/-- One thing after the other, where the first says more of what it leads to. -/
theorem Moves.after {m : Binder α} {f : α → Binder β} {Q : α → Context → Prop}
    (h : Leads m ctx (fun a c => Steps ctx c ∧ Q a c) (fun _ c => Steps ctx c))
    (hf : ∀ a c, Steps ctx c → Q a c → Moves (f a) c) : Moves (m >>= f) ctx := by
  refine Leads.bind (h.mono ?_ fun _ _ hc => hc)
  rintro a c ⟨hsteps, hQ⟩
  exact (hf a c hsteps hQ).mono (fun _ _ hc => hsteps.trans hc) fun _ _ hc => hsteps.trans hc

theorem Moves.bind {m : Binder α} {f : α → Binder β} (h : Moves m ctx)
    (hf : ∀ a c, Steps ctx c → Moves (f a) c) : Moves (m >>= f) ctx :=
  Moves.after (Q := fun _ _ => True) (h.mono (fun _ _ hc => ⟨hc, trivial⟩) fun _ _ hc => hc)
    fun a c hc _ => hf a c hc

theorem moves_modify {f : Context → Context} (h : Step ctx (f ctx)) : Moves (modify f) ctx :=
  leads_modify (.single h)

theorem moves_changeTable {pos : Position} {f : Table → Except Cause Table}
    (h : ∀ table, f ctx.table = .ok table → Step ctx { ctx with table }) :
    Moves (changeTable pos f) ctx := by
  refine leads_changeTable ?_
  cases hf : f ctx.table with
  | ok table => exact .single (h table hf)
  | error cause => exact .refl

/-- A symbol that is created is owned by the scope that was current. -/
theorem create_moves (name : String) {kind : SymbolKind} (hk : kind.IsNamed) :
    Leads (create name kind) ctx
      (fun id c => Steps ctx c ∧ id = .unit ctx.table.symbols.size ∧
        c.table.Owns ctx.current ctx.table.symbols.size)
      (fun _ c => Steps ctx c) :=
  leads_create ⟨.single (.create name kind), rfl, _, Table.symbols_extend_last _ _, rfl, hk⟩

theorem moves_publish {parent : SymbolId} {k : Nat} {pos : Position}
    (h : ctx.table.Owns parent k) : Moves (changeTable pos (·.addChild parent (.unit k))) ctx :=
  moves_changeTable fun _ ht => .publish h ht

theorem moves_setTyping (id : SymbolId) (typing : Typing) (pos : Position) :
    Moves (changeTable pos (·.setTyping id typing)) ctx :=
  moves_changeTable fun _ ht => .typed ht

theorem moves_markExternal (id : SymbolId) (pos : Position) :
    Moves (changeTable pos (·.markExternal id)) ctx :=
  moves_changeTable fun _ ht => .external ht

/-- A declaration gives a symbol of the unit. -/
theorem declare_moves (name : String) {kind : SymbolKind} (hk : kind.IsNamed)
    (typing : Option Typing) (pos : Position) :
    Leads (declare name kind typing pos) ctx
      (fun id c => Steps ctx c ∧ ∃ i, id = .unit i ∧ i < c.table.symbols.size)
      (fun _ c => Steps ctx c) := by
  have hpublish : ∀ c : Context, Steps ctx c →
      c.table.Owns ctx.current ctx.table.symbols.size →
      Leads (do
        changeTable pos (·.addChild ctx.current (.unit ctx.table.symbols.size))
        return SymbolId.unit ctx.table.symbols.size) c
        (fun id c' => Steps ctx c' ∧ ∃ i, id = .unit i ∧ i < c'.table.symbols.size)
        (fun _ c' => Steps ctx c') := by
    intro c hc howns
    refine Leads.bind ((moves_publish howns).mono ?_ fun _ _ h => hc.trans h)
    intro _ c' hc'
    obtain ⟨s, hs, -⟩ := howns.mono (Steps.keeps hc')
    exact leads_pure ⟨hc.trans hc', _, rfl, Table.lt_size hs⟩
  unfold declare
  refine Leads.bind (leads_get (Leads.bind ((create_moves name hk).mono ?_ fun _ _ h => h)))
  rintro _ c ⟨hc, rfl, howns⟩
  cases typing with
  | none => exact hpublish c hc howns
  | some typing =>
    refine Leads.bind ((moves_setTyping _ typing pos).mono ?_ fun _ _ h => hc.trans h)
    intro _ c' hc'
    exact hpublish c' (hc.trans hc') (howns.mono (Steps.keeps hc'))

theorem Moves.of_leads {m : Binder α} {Q : α → Context → Prop}
    (h : Leads m ctx (fun a c => Steps ctx c ∧ Q a c) (fun _ c => Steps ctx c)) : Moves m ctx :=
  h.mono (fun _ _ hc => hc.1) fun _ _ hc => hc

theorem moves_binding {kind : SymbolKind} (hk : kind.IsNamed) (b : Surface.Binding) :
    Moves (binding kind b) ctx := by
  unfold binding
  refine ((still_typeUse _).moves ctx).bind fun typing c _ => ?_
  exact (Moves.of_leads (declare_moves _ hk _ _)).bind fun _ c _ => (still_pure _).moves c

theorem moves_params (ps : List Surface.Param) : Moves (params ps) ctx := by
  induction ps generalizing ctx with
  | nil =>
    unfold params
    exact (still_pure _).moves ctx
  | cons p rest ih =>
    cases p with
    | binding b =>
      unfold params
      exact (moves_binding (by decide) b).bind fun _ _ _ => ih.bind fun _ c _ =>
        (still_pure _).moves c
    | variadic =>
      unfold params
      exact ih.bind fun _ c _ => (still_pure _).moves c
    | bad d =>
      unfold params
      exact (still_throw d).moves ctx

/-- A scope is opened for a symbol that its surroundings own, if it can be named. -/
theorem openScope_moves (name : String) (kind : SymbolKind) :
    Leads (openScope name kind) ctx
      (fun id c => Steps ctx c ∧ id = .unit ctx.table.symbols.size ∧
        (kind.IsNamed → c.table.Owns ctx.current ctx.table.symbols.size))
      (fun _ c => Steps ctx c) := by
  have hlast := Table.symbols_extend_last ctx.table (.fresh name kind (some ctx.current))
  refine leads_openScope ⟨?_, rfl, fun hk => ⟨_, hlast, rfl, hk⟩⟩
  have hcreate : Step ctx { ctx with table := (ctx.table.create name kind ctx.current).2 } :=
    .create name kind
  exact (Relation.ReflTransGen.single hcreate).tail (.enter (Table.lt_size hlast))

theorem moves_publishFunction {parent : SymbolId} {k : Nat} (h : ctx.table.Owns parent k)
    (typing : Typing) (pos : Position) : Moves (publish (.unit k) parent typing pos) ctx := by
  unfold publish
  exact (moves_setTyping _ typing pos).bind fun _ c hc => moves_publish (h.mono (Steps.keeps hc))

theorem moves_closeScope (scope : SymbolId) : Moves (closeScope scope) ctx :=
  moves_modify (.leave scope)

theorem moves_externalFunction (h : Surface.Header) : Moves (externalFunction h) ctx := by
  unfold externalFunction
  refine Leads.bind (leads_get (Moves.after (openScope_moves h.name.text .func) ?_))
  rintro _ opened - ⟨rfl, howns⟩
  have howns := howns (by decide)
  refine (moves_params h.params).bind fun ps c hc => ?_
  refine ((still_known h.returns).moves c).bind fun returns c₁ hc₁ => ?_
  refine ((still_typeUse returns).moves c₁).bind fun typing c₂ hc₂ => ?_
  refine (moves_closeScope _).bind fun _ c₃ hc₃ => ?_
  have hkeeps := Steps.keeps (((hc.trans hc₁).trans hc₂).trans hc₃)
  refine (moves_publishFunction (howns.mono hkeeps) _ _).bind fun _ c₄ _ => ?_
  exact (moves_markExternal _ _).bind fun _ c₅ _ => (still_pure _).moves c₅

theorem moves_funcHeader (h : Surface.Header) : Moves (funcHeader h) ctx := by
  unfold funcHeader
  refine Leads.bind (leads_get (Moves.after (openScope_moves h.name.text .func) ?_))
  rintro _ opened - ⟨rfl, howns⟩
  have howns := howns (by decide)
  refine (moves_params h.params).bind fun ps c hc => ?_
  obtain ⟨ps, variadic⟩ := ps
  cases variadic with
  | true => exact (still_throw _).moves c
  | false =>
    refine ((still_known h.returns).moves c).bind fun returns c₁ hc₁ => ?_
    refine ((still_typeUse returns).moves c₁).bind fun typing c₂ hc₂ => ?_
    have hkeeps := Steps.keeps ((hc.trans hc₁).trans hc₂)
    exact (moves_publishFunction (howns.mono hkeeps) _ _).bind fun _ c₃ _ =>
      (still_pure _).moves c₃

mutual

/-- **Binding a statement is a run of single changes, whether it succeeds or fails.** -/
theorem moves_stmt : (s : Surface.Stmt) → (ctx : Context) → Moves (stmt s) ctx
  | .empty _, ctx => by
    unfold stmt
    exact (still_pure _).moves ctx
  | .mod name _, ctx => by
    unfold stmt
    refine Moves.after (declare_moves name.text (by decide) none name.pos) ?_
    rintro _ c - ⟨i, rfl, hi⟩
    exact (moves_modify (.enter hi)).bind fun _ c _ => (still_pure _).moves c
  | .declare b initial _, ctx => by
    unfold stmt
    exact ((still_initialValue initial).moves ctx).bind fun _ c _ =>
      (moves_binding (by decide) b).bind fun _ c _ => (still_pure _).moves c
  | .externalVariable b _ _, ctx => by
    unfold stmt
    exact (moves_binding (by decide) b).bind fun _ c _ =>
      (moves_markExternal _ _).bind fun _ c _ => (still_pure _).moves c
  | .externalFunction h _ _, ctx => by
    unfold stmt
    exact (moves_externalFunction h).bind fun _ c _ => (still_pure _).moves c
  | .whileLoop condition body _, ctx | .ifThen condition body _, ctx => by
    unfold stmt
    exact ((still_expr condition).moves ctx).bind fun _ c _ =>
      (moves_block body c).bind fun _ c _ => (still_pure _).moves c
  | .ifElse condition consequence alternative _, ctx => by
    unfold stmt
    exact ((still_expr condition).moves ctx).bind fun _ c _ =>
      (moves_block consequence c).bind fun _ c _ =>
        (moves_block alternative c).bind fun _ c _ => (still_pure _).moves c
  | .returned value _, ctx | .expr value _, ctx => by
    unfold stmt
    exact ((still_expr value).moves ctx).bind fun _ c _ => (still_pure _).moves c
  | .typeAlias name a _, ctx => by
    unfold stmt
    exact ((still_typeUse a).moves ctx).bind fun _ c _ =>
      (Moves.of_leads (declare_moves _ (by decide) _ _)).bind fun _ c _ => (still_pure _).moves c
  | .func h (.mk body _) _, ctx => by
    unfold stmt
    exact (moves_funcHeader h).bind fun _ c _ => (moves_stmts body c).bind fun _ c _ =>
      (moves_closeScope _).bind fun _ c _ => (still_pure _).moves c
  | .bad d, ctx => by
    unfold stmt
    exact (still_throw d).moves ctx
  | .stuck first d, ctx => by
    unfold stmt
    exact ((still_expr first).moves ctx).bind fun _ c _ => (still_throw d).moves c

theorem moves_block : (b : Surface.Block) → (ctx : Context) → Moves (block b) ctx
  | .mk body _, ctx => by
    unfold block
    exact (Moves.of_leads (openScope_moves blockName .block)).bind fun _ c _ =>
      (moves_stmts body c).bind fun _ c _ => (moves_closeScope _).bind fun _ c _ =>
        (still_pure _).moves c

theorem moves_stmts : (ss : List Surface.Stmt) → (ctx : Context) → Moves (stmts ss) ctx
  | [], ctx => by
    unfold stmts
    exact (still_pure _).moves ctx
  | s :: rest, ctx => by
    unfold stmts
    exact (moves_stmt s ctx).bind fun _ c _ => (moves_stmts rest c).bind fun _ c _ =>
      (still_pure _).moves c

end

end Binder
end BlockC

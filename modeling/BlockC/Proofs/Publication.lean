import BlockC.Proofs.BlockIsolation

/-! # What is declared is published

A symbol that is published stays so: no change of a context takes a child away or puts another in
its place (`Steps.retains`).  And once a statement is bound, everything that was created on the way
is published in its own parent, but for the scopes of blocks (`publishes_stmt`).
-/
namespace BlockC

namespace Table

variable {t t' t'' : Table} {i : Nat}

/-- Every symbol stays, with its name, kind and parent, and what it has published stays so. -/
def Retains (t t' : Table) : Prop :=
  ∀ (i : Nat) (s : Symbol), t.symbols[i]? = some s → ∃ s' : Symbol, t'.symbols[i]? = some s' ∧
    s'.name = s.name ∧ s'.kind = s.kind ∧ s'.parent = s.parent ∧
    ∀ name id, s.child? name = some id → s'.child? name = some id

theorem Retains.refl (t : Table) : t.Retains t :=
  fun _ s hs => ⟨s, hs, rfl, rfl, rfl, fun _ _ h => h⟩

theorem Retains.trans (h : t.Retains t') (h' : t'.Retains t'') : t.Retains t'' := by
  intro i s hs
  obtain ⟨s', hs', hname, hkind, hparent, hchild⟩ := h i s hs
  obtain ⟨s'', hs'', hname', hkind', hparent', hchild'⟩ := h' i s' hs'
  exact ⟨s'', hs'', hname'.trans hname, hkind'.trans hkind, hparent'.trans hparent,
    fun name id hc => hchild' name id (hchild name id hc)⟩

theorem Retains.keeps (h : t.Retains t') : t.Keeps t' := by
  intro i s hs
  obtain ⟨s', hs', hname, hkind, hparent, -⟩ := h i s hs
  exact ⟨s', hs', hname, hkind, hparent⟩

theorem retains_extend (t : Table) (s : Symbol) : t.Retains (t.extend s) :=
  fun _ old h => ⟨old, symbols_extend_of_some h s, rfl, rfl, rfl, fun _ _ hc => hc⟩

theorem retains_replace {s new : Symbol} (h : t.symbols[i]? = some s) (hname : new.name = s.name)
    (hkind : new.kind = s.kind) (hparent : new.parent = s.parent)
    (hchild : ∀ name id, s.child? name = some id → new.child? name = some id) :
    t.Retains (t.replace i new) := by
  intro j old hold
  rw [symbols_replace h]
  by_cases hj : j = i
  · subst hj
    obtain rfl : s = old := Option.some.inj (h.symm.trans hold)
    exact ⟨new, by simp, hname, hkind, hparent, hchild⟩
  · exact ⟨old, by simp [hj, hold], rfl, rfl, rfl, fun _ _ hc => hc⟩

/-- Further children do not hide those of before. -/
theorem child?_append {s : Symbol} {name : String} {id : SymbolId}
    (more : List (String × SymbolId)) (h : s.child? name = some id) :
    ({ s with children := s.children ++ more } : Symbol).child? name = some id := by
  have hlookup : s.children.lookup name = some id := h
  simp [Symbol.child?, List.lookup_append, hlookup]

/-- The `i`-th symbol is published under its name in its parent. -/
def Shows (t : Table) (i : Nat) : Prop :=
  ∃ (s : Symbol) (p : Nat) (ps : Symbol), t.symbols[i]? = some s ∧ s.parent = some (.unit p) ∧
    t.symbols[p]? = some ps ∧ ps.child? s.name = some (.unit i)

theorem Shows.mono (h : t.Retains t') (hi : t.Shows i) : t'.Shows i := by
  obtain ⟨s, p, ps, hs, hp, hps, hchild⟩ := hi
  obtain ⟨s', hs', hname, -, hparent, -⟩ := h i s hs
  obtain ⟨ps', hps', -, -, -, hkept⟩ := h p ps hps
  exact ⟨s', p, ps', hs', hparent.trans hp, hps', by rw [hname]; exact hkept _ _ hchild⟩

/-- The `i`-th symbol is the scope of a block. -/
def IsBlock (t : Table) (i : Nat) : Prop :=
  ∃ s : Symbol, t.symbols[i]? = some s ∧ s.kind = .block

theorem IsBlock.mono (h : t.Keeps t') (hi : t.IsBlock i) : t'.IsBlock i := by
  obtain ⟨s, hs, hk⟩ := hi
  obtain ⟨s', hs', -, hkind, -⟩ := h i s hs
  exact ⟨s', hs', hkind.trans hk⟩

theorem addChild_shows {k : Nat} {s : Symbol} {parent : SymbolId} (hs : t.symbols[k]? = some s)
    (hparent : s.parent = some parent) (h : t.addChild parent (.unit k) = .ok t') :
    t'.Shows k ∧ t'.symbols.size = t.symbols.size := by
  obtain ⟨p, ps, rfl, hps, hnone, rfl⟩ := addChild_ok hs h
  refine ⟨?_, by simp⟩
  have hentry :
      ({ ps with children := ps.children ++ [(s.name, .unit k)] } : Symbol).child? s.name =
        some (.unit k) := by
    have hlookup : ps.children.lookup s.name = none := hnone
    simp [Symbol.child?, List.lookup_append, hlookup]
  -- A symbol that is its own parent has the entry itself.
  by_cases hkp : k = p
  · subst hkp
    obtain rfl : s = ps := Option.some.inj (hs.symm.trans hps)
    refine ⟨{ s with children := s.children ++ [(s.name, .unit k)] }, k, _, ?_, hparent, ?_,
      hentry⟩ <;> rw [symbols_replace hps, if_pos rfl]
  · exact ⟨s, p, _, by rw [symbols_replace hps, if_neg hkp, hs], hparent,
      by rw [symbols_replace hps, if_pos rfl], hentry⟩

end Table

namespace Context

/-- No single change takes a child away. -/
theorem Step.retains {ctx ctx' : Context} (h : Step ctx ctx') :
    ctx.table.Retains ctx'.table := by
  cases h with
  | create name kind => exact Table.retains_extend _ _
  | typed h =>
    obtain ⟨i, s, s', -, hs, hf, rfl⟩ := Table.update_ok h
    cases hf
    exact Table.retains_replace hs rfl rfl rfl fun _ _ hc => hc
  | external h =>
    obtain ⟨i, s, s', -, hs, hf, rfl⟩ := Table.update_ok h
    cases hf
    exact Table.retains_replace hs rfl rfl rfl fun _ _ hc => hc
  | publish owned h =>
    obtain ⟨s, hs, -⟩ := owned
    obtain ⟨p, ps, -, hps, -, rfl⟩ := Table.addChild_ok hs h
    exact Table.retains_replace hps rfl rfl rfl fun _ _ hc => Table.child?_append _ hc
  | enter | leave => exact Table.Retains.refl _

theorem Steps.retains {ctx ctx' : Context} (h : Steps ctx ctx') :
    ctx.table.Retains ctx'.table := by
  induction h with
  | refl => exact Table.Retains.refl _
  | tail _ hstep ih => exact ih.trans hstep.retains

/-- From one context to a later one, whatever was created is published, unless it is a block. -/
structure Shown (ctx ctx' : Context) : Prop where
  steps : Steps ctx ctx'
  created : ∀ i, ctx.table.symbols.size ≤ i → i < ctx'.table.symbols.size →
    ctx'.table.IsBlock i ∨ ctx'.table.Shows i

/-- Nothing is created. -/
theorem shown_of_size {ctx ctx' : Context} (h : Steps ctx ctx')
    (hsize : ctx'.table.symbols.size = ctx.table.symbols.size) : Shown ctx ctx' :=
  ⟨h, fun i hi hlt => by omega⟩

theorem Shown.refl (ctx : Context) : Shown ctx ctx :=
  shown_of_size .refl rfl

theorem Shown.trans {ctx ctx' ctx'' : Context} (h : Shown ctx ctx') (h' : Shown ctx' ctx'') :
    Shown ctx ctx'' := by
  refine ⟨h.steps.trans h'.steps, fun i hi hlt => ?_⟩
  have hretains := Steps.retains h'.steps
  by_cases hold : i < ctx'.table.symbols.size
  · exact (h.created i hi hold).imp (·.mono hretains.keeps) (·.mono hretains)
  · exact h'.created i (by omega) hlt

end Context

namespace Binder

open BlockC.Bound
open Context (Step Steps Shown)

variable {α β : Type} {ctx : Context}

/-- If the step of binding succeeds, whatever it created is published, unless it is a block. -/
def Publishes (m : Binder α) (ctx : Context) : Prop :=
  Leads m ctx (fun _ c => Shown ctx c) (fun _ _ => True)

theorem Still.publishes {m : Binder α} (h : Still m) (ctx : Context) : Publishes m ctx :=
  (h ctx).mono (fun _ _ hc => hc ▸ .refl ctx) fun _ _ _ => trivial

/-- One thing after the other, where the first says more of what it leads to. -/
theorem Publishes.after {m : Binder α} {f : α → Binder β} {Q : α → Context → Prop}
    (h : Leads m ctx (fun a c => Shown ctx c ∧ Q a c) (fun _ _ => True))
    (hf : ∀ a c, Shown ctx c → Q a c → Publishes (f a) c) : Publishes (m >>= f) ctx := by
  refine Leads.bind (h.mono ?_ fun _ _ _ => trivial)
  rintro a c ⟨hshown, hQ⟩
  exact (hf a c hshown hQ).mono (fun _ _ hc => hshown.trans hc) fun _ _ _ => trivial

theorem Publishes.bind {m : Binder α} {f : α → Binder β} (h : Publishes m ctx)
    (hf : ∀ a c, Publishes (f a) c) : Publishes (m >>= f) ctx :=
  Publishes.after (Q := fun _ _ => True) (h.mono (fun _ _ hc => ⟨hc, trivial⟩) fun _ _ _ => trivial)
    fun a c _ _ => hf a c

theorem publishes_modify {f : Context → Context} (h : Step ctx (f ctx))
    (hsize : (f ctx).table.symbols.size = ctx.table.symbols.size) : Publishes (modify f) ctx :=
  leads_modify (Context.shown_of_size (.single h) hsize)

theorem publishes_closeScope (scope : SymbolId) (ctx : Context) :
    Publishes (closeScope scope) ctx :=
  publishes_modify (.leave scope) rfl

theorem publishes_markExternal (id : SymbolId) (pos : Position) (ctx : Context) :
    Publishes (changeTable pos (·.markExternal id)) ctx := by
  refine leads_changeTable ?_
  cases hf : ctx.table.markExternal id with
  | error cause => trivial
  | ok table =>
    refine Context.shown_of_size (.single (.external hf)) ?_
    obtain ⟨i, s, s', -, -, -, rfl⟩ := Table.update_ok hf
    exact Table.size_replace _ _ _

/-! ### Declarations -/

/-- Publishing a symbol under its parent, after other changes. -/
theorem publish_shows {ctx' : Context} {k : Nat} {parent : SymbolId} {pos : Position}
    (hsteps : Steps ctx ctx') (howns : ctx'.table.Owns parent k) :
    Leads (changeTable pos (·.addChild parent (.unit k))) ctx'
      (fun _ c => Steps ctx c ∧ c.table.symbols.size = ctx'.table.symbols.size ∧ c.table.Shows k)
      (fun _ _ => True) := by
  refine leads_changeTable ?_
  cases hf : ctx'.table.addChild parent (.unit k) with
  | error cause => trivial
  | ok table =>
    obtain ⟨s, hs, hparent, -⟩ := id howns
    obtain ⟨hshows, hsize⟩ := Table.addChild_shows hs hparent hf
    exact ⟨hsteps.tail (.publish howns hf), hsize, hshows⟩

theorem setTyping_steps {ctx' : Context} {id : SymbolId} {typing : Typing} {pos : Position}
    (hsteps : Steps ctx ctx') :
    Leads (changeTable pos (·.setTyping id typing)) ctx'
      (fun _ c => Steps ctx c ∧ Steps ctx' c ∧ c.table.symbols.size = ctx'.table.symbols.size)
      (fun _ _ => True) := by
  refine leads_changeTable ?_
  cases hf : ctx'.table.setTyping id typing with
  | error cause => trivial
  | ok table =>
    refine ⟨hsteps.tail (.typed hf), .single (.typed hf), ?_⟩
    obtain ⟨i, s, s', -, -, -, rfl⟩ := Table.update_ok hf
    exact Table.size_replace _ _ _

/-- A declaration creates one symbol, and publishes it. -/
theorem declare_shows (name : String) {kind : SymbolKind} (hk : kind.IsNamed)
    (typing : Option Typing) (pos : Position) (ctx : Context) :
    Leads (declare name kind typing pos) ctx
      (fun id c => Shown ctx c ∧ ∃ i, id = .unit i ∧ i < c.table.symbols.size)
      (fun _ _ => True) := by
  -- With or without a type of its own, what is left is to publish the symbol.
  have hpublish : ∀ c : Context, Steps ctx c →
      c.table.symbols.size = ctx.table.symbols.size + 1 →
      c.table.Owns ctx.current ctx.table.symbols.size →
      Leads (do
        changeTable pos (·.addChild ctx.current (.unit ctx.table.symbols.size))
        return SymbolId.unit ctx.table.symbols.size) c
        (fun id c' => Shown ctx c' ∧ ∃ i, id = .unit i ∧ i < c'.table.symbols.size)
        (fun _ _ => True) := by
    intro c hc hsize howns
    refine Leads.bind ((publish_shows hc howns).mono ?_ fun _ _ _ => trivial)
    rintro _ c' ⟨hsteps, hsize', hshows⟩
    refine leads_pure ⟨⟨hsteps, fun i hi hlt => .inr ?_⟩, _, rfl, by omega⟩
    obtain rfl : i = ctx.table.symbols.size := by omega
    exact hshows
  unfold declare
  refine Leads.bind (leads_get (Leads.bind (leads_create ?_)))
  have hcreate : Step ctx { ctx with table := (ctx.table.create name kind ctx.current).2 } :=
    .create name kind
  have howns : (ctx.table.create name kind ctx.current).2.Owns ctx.current
      ctx.table.symbols.size := ⟨_, Table.symbols_extend_last _ _, rfl, hk⟩
  cases typing with
  | none => exact hpublish _ (.single hcreate) (Table.size_extend _ _) howns
  | some typing =>
    refine Leads.bind ((setTyping_steps (.single hcreate)).mono ?_ fun _ _ _ => trivial)
    rintro _ c ⟨hsteps, hsince, hsize⟩
    exact hpublish c hsteps (hsize.trans (Table.size_extend _ _))
      (howns.mono (Steps.keeps hsince))

theorem publishes_declare (name : String) {kind : SymbolKind} (hk : kind.IsNamed)
    (typing : Option Typing) (pos : Position) (ctx : Context) :
    Publishes (declare name kind typing pos) ctx :=
  (declare_shows name hk typing pos ctx).mono (fun _ _ hc => hc.1) fun _ _ _ => trivial

theorem publishes_binding {kind : SymbolKind} (hk : kind.IsNamed) (b : Surface.Binding)
    (ctx : Context) : Publishes (binding kind b) ctx :=
  ((still_typeUse _).publishes ctx).bind fun _ c =>
    (publishes_declare _ hk _ _ c).bind fun _ c => (still_pure _).publishes c

theorem publishes_params (ps : List Surface.Param) (ctx : Context) : Publishes (params ps) ctx := by
  induction ps generalizing ctx with
  | nil =>
    unfold params
    exact (still_pure _).publishes ctx
  | cons p rest ih =>
    cases p with
    | binding b =>
      unfold params
      exact (publishes_binding (by decide) b ctx).bind fun _ c => (ih c).bind fun _ c =>
        (still_pure _).publishes c
    | variadic =>
      unfold params
      exact (ih ctx).bind fun _ c => (still_pure _).publishes c
    | bad d =>
      unfold params
      exact (still_throw d).publishes ctx

/-- Opening a scope creates the symbol of the scope, and nothing else. -/
theorem openScope_steps (name : String) (kind : SymbolKind) :
    Leads (openScope name kind) ctx
      (fun id c => id = .unit ctx.table.symbols.size ∧ Steps ctx c ∧
        c.table.symbols[ctx.table.symbols.size]? = some (.fresh name kind (some ctx.current)) ∧
        c.table.symbols.size = ctx.table.symbols.size + 1)
      (fun _ _ => True) := by
  have hlast := Table.symbols_extend_last ctx.table (.fresh name kind (some ctx.current))
  have hcreate : Step ctx { ctx with table := (ctx.table.create name kind ctx.current).2 } :=
    .create name kind
  have hsteps := (Relation.ReflTransGen.single hcreate).tail (.enter (Table.lt_size hlast))
  exact leads_openScope ⟨rfl, hsteps, hlast, Table.size_extend _ _⟩

/-! ### Functions -/

/-- A function that was just created, with what was created in it, before it is published itself. -/
structure Opened (ctx ctx' : Context) : Prop where
  steps : Steps ctx ctx'
  owned : ctx'.table.Owns ctx.current ctx.table.symbols.size
  inside : ∀ i, ctx.table.symbols.size < i → i < ctx'.table.symbols.size →
    ctx'.table.IsBlock i ∨ ctx'.table.Shows i

theorem Opened.trans {ctx' ctx'' : Context} (h : Opened ctx ctx') (h' : Shown ctx' ctx'') :
    Opened ctx ctx'' := by
  have hretains := Steps.retains h'.steps
  refine ⟨h.steps.trans h'.steps, h.owned.mono hretains.keeps, fun i hi hlt => ?_⟩
  by_cases hold : i < ctx'.table.symbols.size
  · exact (h.inside i hi hold).imp (·.mono hretains.keeps) (·.mono hretains)
  · exact h'.created i (by omega) hlt

theorem openFunction_opened (name : String) :
    Leads (openScope name .func) ctx
      (fun id c => id = .unit ctx.table.symbols.size ∧ Opened ctx c) (fun _ _ => True) := by
  refine (openScope_steps name .func).mono ?_ fun _ _ _ => trivial
  rintro id c ⟨hid, hsteps, hlast, hsize⟩
  exact ⟨hid, hsteps, ⟨_, hlast, rfl, SymbolKind.isNamed_func⟩, fun i hi hlt => by omega⟩

/-- Once the function is published, everything is. -/
theorem Opened.publish {ctx' : Context} (h : Opened ctx ctx') (typing : Typing) (pos : Position) :
    Leads (publish (.unit ctx.table.symbols.size) ctx.current typing pos) ctx'
      (fun _ c => Shown ctx c) (fun _ _ => True) := by
  unfold Binder.publish
  refine Leads.bind ((setTyping_steps h.steps).mono ?_ fun _ _ _ => trivial)
  rintro _ c ⟨hsteps, hsince, hsize⟩
  have hopened := h.trans (Context.shown_of_size hsince hsize)
  have hmoves : Moves (changeTable pos (·.addChild ctx.current (.unit ctx.table.symbols.size))) c :=
    moves_publish hopened.owned
  refine ((publish_shows hsteps hopened.owned).and hmoves).mono ?_ fun _ _ _ => trivial
  rintro _ c' ⟨⟨hsteps', hsize', hshows⟩, hsince'⟩
  have hretains := Steps.retains hsince'
  refine ⟨hsteps', fun i hi hlt => ?_⟩
  -- The function itself was the one thing that was not published yet.
  by_cases hself : i = ctx.table.symbols.size
  · exact .inr (hself ▸ hshows)
  · exact (hopened.inside i (by omega) (by omega)).imp (·.mono hretains.keeps) (·.mono hretains)

theorem publishes_externalFunction (h : Surface.Header) (ctx : Context) :
    Publishes (externalFunction h) ctx := by
  unfold externalFunction
  refine Leads.bind (leads_get (Leads.bind ((openFunction_opened h.name.text).mono ?_
    fun _ _ _ => trivial)))
  rintro _ c₀ ⟨rfl, hopened⟩
  refine Leads.bind ((publishes_params h.params c₀).mono ?_ fun _ _ _ => trivial)
  rintro ⟨ps, variadic⟩ c₁ h₁
  refine Leads.bind (((still_known h.returns).publishes c₁).mono ?_ fun _ _ _ => trivial)
  intro returns c₂ h₂
  refine Leads.bind (((still_typeUse returns).publishes c₂).mono ?_ fun _ _ _ => trivial)
  intro typing c₃ h₃
  refine Leads.bind ((publishes_closeScope _ c₃).mono ?_ fun _ _ _ => trivial)
  intro _ c₄ h₄
  have hbefore := hopened.trans (((h₁.trans h₂).trans h₃).trans h₄)
  refine Leads.bind ((hbefore.publish _ _).mono ?_ fun _ _ _ => trivial)
  intro _ c₅ h₅
  exact Leads.bind ((publishes_markExternal _ _ c₅).mono (fun _ _ h₆ => h₅.trans h₆)
    fun _ _ _ => trivial)

theorem publishes_funcHeader (h : Surface.Header) (ctx : Context) :
    Publishes (funcHeader h) ctx := by
  unfold funcHeader
  refine Leads.bind (leads_get (Leads.bind ((openFunction_opened h.name.text).mono ?_
    fun _ _ _ => trivial)))
  rintro _ c₀ ⟨rfl, hopened⟩
  refine Leads.bind ((publishes_params h.params c₀).mono ?_ fun _ _ _ => trivial)
  rintro ⟨ps, variadic⟩ c₁ h₁
  cases variadic with
  | true => exact leads_throw trivial
  | false =>
    refine Leads.bind (((still_known h.returns).publishes c₁).mono ?_ fun _ _ _ => trivial)
    intro returns c₂ h₂
    refine Leads.bind (((still_typeUse returns).publishes c₂).mono ?_ fun _ _ _ => trivial)
    intro typing c₃ h₃
    have hbefore := hopened.trans ((h₁.trans h₂).trans h₃)
    exact Leads.bind ((hbefore.publish _ _).mono (fun _ _ hc => hc) fun _ _ _ => trivial)

/-! ### Statements -/

/-- The scope of a block is created, and not published. -/
theorem publishes_openBlock (ctx : Context) : Publishes (openScope blockName .block) ctx := by
  refine (openScope_steps blockName .block).mono ?_ fun _ _ _ => trivial
  rintro id c ⟨-, hsteps, hlast, hsize⟩
  refine ⟨hsteps, fun i hi hlt => .inl ?_⟩
  obtain rfl : i = ctx.table.symbols.size := by omega
  exact ⟨_, hlast, rfl⟩

mutual

/-- **Once a statement is bound, whatever it created is published in its own parent, but for the
scopes of blocks.** -/
theorem publishes_stmt : (s : Surface.Stmt) → (ctx : Context) → Publishes (stmt s) ctx
  | .empty _, ctx => by
    unfold stmt
    exact (still_pure _).publishes ctx
  | .mod name _, ctx => by
    unfold stmt
    refine Publishes.after (declare_shows name.text (by decide) none name.pos ctx) ?_
    rintro _ c - ⟨i, rfl, hi⟩
    exact (publishes_modify (.enter hi) rfl).bind fun _ c => (still_pure _).publishes c
  | .declare b initial _, ctx => by
    unfold stmt
    exact ((still_initialValue initial).publishes ctx).bind fun _ c =>
      (publishes_binding (by decide) b c).bind fun _ c => (still_pure _).publishes c
  | .externalVariable b _ _, ctx => by
    unfold stmt
    exact (publishes_binding (by decide) b ctx).bind fun _ c =>
      (publishes_markExternal _ _ c).bind fun _ c => (still_pure _).publishes c
  | .externalFunction h _ _, ctx => by
    unfold stmt
    exact (publishes_externalFunction h ctx).bind fun _ c => (still_pure _).publishes c
  | .whileLoop condition body _, ctx | .ifThen condition body _, ctx => by
    unfold stmt
    exact ((still_expr condition).publishes ctx).bind fun _ c =>
      (publishes_block body c).bind fun _ c => (still_pure _).publishes c
  | .ifElse condition consequence alternative _, ctx => by
    unfold stmt
    exact ((still_expr condition).publishes ctx).bind fun _ c =>
      (publishes_block consequence c).bind fun _ c =>
        (publishes_block alternative c).bind fun _ c => (still_pure _).publishes c
  | .returned value _, ctx | .expr value _, ctx => by
    unfold stmt
    exact ((still_expr value).publishes ctx).bind fun _ c => (still_pure _).publishes c
  | .typeAlias name a _, ctx => by
    unfold stmt
    exact ((still_typeUse a).publishes ctx).bind fun _ c =>
      (publishes_declare _ (by decide) _ _ c).bind fun _ c => (still_pure _).publishes c
  | .func h (.mk body _) _, ctx => by
    unfold stmt
    exact (publishes_funcHeader h ctx).bind fun _ c => (publishes_stmts body c).bind fun _ c =>
      (publishes_closeScope _ c).bind fun _ c => (still_pure _).publishes c
  | .bad d, ctx => by
    unfold stmt
    exact (still_throw d).publishes ctx
  | .stuck first d, ctx => by
    unfold stmt
    exact ((still_expr first).publishes ctx).bind fun _ c => (still_throw d).publishes c

theorem publishes_block : (b : Surface.Block) → (ctx : Context) → Publishes (block b) ctx
  | .mk body _, ctx => by
    unfold block
    exact (publishes_openBlock ctx).bind fun _ c => (publishes_stmts body c).bind fun _ c =>
      (publishes_closeScope _ c).bind fun _ c => (still_pure _).publishes c

theorem publishes_stmts : (ss : List Surface.Stmt) → (ctx : Context) → Publishes (stmts ss) ctx
  | [], ctx => by
    unfold stmts
    exact (still_pure _).publishes ctx
  | s :: rest, ctx => by
    unfold stmts
    exact (publishes_stmt s ctx).bind fun _ c => (publishes_stmts rest c).bind fun _ c =>
      (still_pure _).publishes c

end

end Binder
end BlockC

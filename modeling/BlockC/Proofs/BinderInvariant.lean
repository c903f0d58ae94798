import BlockC.Bound.Binder
import BlockC.Proofs.BoundProgram
import BlockC.Proofs.ContextInvariant
import BlockC.Proofs.Placement

/-! # What binding a program leads to

From a context in order, binding a statement ends in a context in order with a statement that is
known to its table, or reports a fault of the statement itself or a cause of its own, again in a
context in order (`stmt_leads`).  Faults of the table never come up.
-/
namespace BlockC

namespace Surface

mutual

/-- Every diagnostic in the expression has the property. -/
def Expr.Faults (P : Diagnostic → Prop) : Expr → Prop
  | .binary left _ right _ => left.Faults P ∧ right.Faults P
  | .unary _ argument _ => argument.Faults P
  | .condition test yes no _ => test.Faults P ∧ yes.Faults P ∧ no.Faults P
  | .call _ args _ => Expr.AllFaults P args
  | .assignment left _ right _ => left.Faults P ∧ right.Faults P
  | .parenthesized inner _ => inner.Faults P
  | .bad d => P d
  | .stuck first d => first.Faults P ∧ P d
  | .ident _ | .number _ _ | .string _ _ | .boolean _ _ | .null _ => True

/-- Every diagnostic in the expressions has the property. -/
def Expr.AllFaults (P : Diagnostic → Prop) : List Expr → Prop
  | [] => True
  | e :: rest => e.Faults P ∧ Expr.AllFaults P rest

end

mutual

theorem Expr.Proper.faults : {e : Expr} → e.Proper → e.Faults Diagnostic.IsNumberParse
  | .ident _, _ => trivial
  | .binary _ _ _ _, h => ⟨h.1.faults, h.2.faults⟩
  | .unary _ argument _, h => Expr.Proper.faults (e := argument) h
  | .condition _ _ _ _, h => ⟨h.1.faults, h.2.1.faults, h.2.2.faults⟩
  | .call _ _ _, h => Expr.AllProper.faults h.2
  | .assignment _ _ _ _, h => ⟨h.1.faults, h.2.2.faults⟩
  | .parenthesized inner _, h => Expr.Proper.faults (e := inner) h
  | .number _ _, _ | .string _ _, _ | .boolean _ _, _ | .null _, _ => trivial
  | .bad _, h => h

theorem Expr.AllProper.faults :
    {es : List Expr} → Expr.AllProper es → Expr.AllFaults Diagnostic.IsNumberParse es
  | [], _ => trivial
  | _ :: _, h => ⟨h.1.faults, Expr.AllProper.faults h.2⟩

end

/-! ### Programs of any tree -/

/-- What is asked of a program that comes from any tree: nothing. -/
def anything : Standard where
  name _ := True
  type _ := True
  expr _ := True
  fault _ := True

mutual

theorem Expr.faults_anything : (e : Expr) → e.Faults anything.fault
  | .ident _ | .number _ _ | .string _ _ | .boolean _ _ | .null _ | .bad _ => trivial
  | .binary left _ right _ => ⟨left.faults_anything, right.faults_anything⟩
  | .unary _ argument _ => argument.faults_anything
  | .condition test yes no _ =>
    ⟨test.faults_anything, yes.faults_anything, no.faults_anything⟩
  | .call _ args _ => Expr.allFaults_anything args
  | .assignment left _ right _ => ⟨left.faults_anything, right.faults_anything⟩
  | .parenthesized inner _ => inner.faults_anything
  | .stuck first _ => ⟨first.faults_anything, trivial⟩

theorem Expr.allFaults_anything : (es : List Expr) → Expr.AllFaults anything.fault es
  | [] => trivial
  | e :: rest => ⟨e.faults_anything, Expr.allFaults_anything rest⟩

end

theorem Binding.over_anything (b : Binding) : b.Over anything :=
  ⟨trivial, trivial⟩

theorem Header.over_anything (h : Header) : h.Over anything := by
  refine ⟨trivial, fun p _ => ?_, ?_⟩
  · cases p <;> first | exact Binding.over_anything _ | trivial
  · cases h.returns <;> trivial

mutual

theorem Stmt.over_anything : (s : Stmt) → s.Over anything
  | .empty _ | .mod _ _ | .returned _ _ | .expr _ _ | .bad _ => trivial
  | .declare b _ _ => ⟨b.over_anything, fun _ _ => trivial⟩
  | .externalVariable b _ _ => b.over_anything
  | .externalFunction h _ _ => h.over_anything
  | .whileLoop _ body _ => ⟨trivial, body.over_anything⟩
  | .ifThen _ yes _ => ⟨trivial, yes.over_anything⟩
  | .ifElse _ yes no _ => ⟨trivial, yes.over_anything, no.over_anything⟩
  | .typeAlias _ _ _ => ⟨trivial, trivial⟩
  | .func h body _ => ⟨h.over_anything, body.over_anything⟩
  | .stuck _ _ => ⟨trivial, trivial⟩

theorem Block.over_anything : (b : Block) → b.Over anything
  | .mk stmts _ => Stmt.allOver_anything stmts

theorem Stmt.allOver_anything : (ss : List Stmt) → Stmt.AllOver anything ss
  | [] => trivial
  | s :: rest => ⟨s.over_anything, Stmt.allOver_anything rest⟩

end

end Surface

namespace Binder

open BlockC.Bound

variable {N : String → Prop} {P : Diagnostic → Prop} {ctx : Context}

/-- What can be reported: a cause of binding, or a fault that was there before. -/
def Reports (P : Diagnostic → Prop) (d : Diagnostic) : Prop :=
  d.cause.IsBinding ∨ P d

section
variable {α β : Type} {m : Binder α} {f : α → Binder β} {R : β → Context → Prop}

/-- What follows a step that changes nothing starts from the same context. -/
theorem Leads.bind_still {Q : α → Prop}
    (hm : Leads m ctx (fun a c => ctx = c ∧ Q a) fun d c => ctx = c ∧ Reports P d)
    (h : ctx.WellFormed N)
    (hf : ∀ a, Q a → Leads (f a) ctx R fun d c => ctx.Reaches N c ∧ Reports P d) :
    Leads (m >>= f) ctx R fun d c => ctx.Reaches N c ∧ Reports P d := by
  refine Leads.bind (hm.mono ?_ ?_)
  · rintro a c ⟨rfl, ha⟩
    exact hf a ha
  · rintro d c ⟨rfl, hd⟩
    exact ⟨.refl h, hd⟩

/-- What follows a step reaches from the first context whatever it reaches from where the step
ends. -/
theorem Leads.bind_reaching {Q : α → Context → Prop}
    (hm : Leads m ctx Q fun d c => ctx.Reaches N c ∧ Reports P d)
    (hQ : ∀ a c, Q a c → ctx.Reaches N c)
    (hf : ∀ a c, Q a c → Leads (f a) c R fun d c' => c.Reaches N c' ∧ Reports P d) :
    Leads (m >>= f) ctx R fun d c => ctx.Reaches N c ∧ Reports P d := by
  refine Leads.bind (hm.mono ?_ fun _ _ hd => hd)
  intro a c ha
  refine (hf a c ha).mono (fun _ _ hb => hb) ?_
  rintro d c' ⟨hreach, hd⟩
  exact ⟨(hQ a c ha).trans hreach, hd⟩

end

/-! ### Expressions -/

theorem ident_leads (h : ctx.WellFormed N) (id : Surface.Ident) :
    Leads (ident id) ctx
      (fun b c => ctx = c ∧ ctx.table.Has b.symbol ∧ b.path = id.path ∧ b.span = id.span)
      (fun d c => ctx = c ∧ Reports P d) := by
  unfold ident
  refine Leads.bind (leads_get (Leads.bind (leads_located ?_)))
  refine (h.resolveFullName_meets id.dotted).mono ?_ ?_
  · intro symbol hs
    exact ⟨rfl, hs, rfl, rfl⟩
  · rintro cause rfl
    exact ⟨rfl, .inl trivial⟩

theorem callee_leads (h : ctx.WellFormed N) (id : Surface.Ident) :
    Leads (callee id) ctx
      (fun b c => ctx = c ∧ ctx.table.Has b.symbol ∧ b.path = id.path ∧ b.span = id.span)
      (fun d c => ctx = c ∧ Reports P d) := by
  unfold callee
  refine Leads.bind ((ident_leads h id).mono ?_ fun _ _ hd => hd)
  rintro b c ⟨rfl, hb⟩
  obtain ⟨callable, hcallable⟩ := Table.isCallable_ok h.table hb.1
  refine Leads.bind (leads_get (Leads.bind (leads_located ?_)))
  rw [hcallable]
  cases callable with
  | true => exact ⟨rfl, hb⟩
  | false => exact ⟨rfl, .inl trivial⟩

mutual

/-- Binding an expression changes nothing, and gives the expression back with its symbols. -/
theorem expr_leads (h : ctx.WellFormed N) : (e : Surface.Expr) → e.Faults P →
    Leads (expr e) ctx (fun b c => ctx = c ∧ b.Known ctx.table ∧ b.erase = e)
      (fun d c => ctx = c ∧ Reports P d)
  | .ident id, _ => by
    unfold expr
    refine Leads.bind ((ident_leads h id).mono ?_ fun _ _ hd => hd)
    rintro b c ⟨rfl, hb, hpath, hspan⟩
    refine ⟨rfl, hb, ?_⟩
    rw [Expr.erase, hpath, hspan]
  | .binary left op right span, hf | .assignment left op right span, hf => by
    unfold expr
    refine Leads.bind ((expr_leads h left hf.1).mono ?_ fun _ _ hd => hd)
    rintro l c ⟨rfl, hl, rfl⟩
    refine Leads.bind ((expr_leads h right hf.2).mono ?_ fun _ _ hd => hd)
    rintro r c ⟨rfl, hr, rfl⟩
    exact ⟨rfl, ⟨hl, hr⟩, rfl⟩
  | .unary _ argument span, hf | .parenthesized argument span, hf => by
    unfold expr
    refine Leads.bind ((expr_leads h argument hf).mono ?_ fun _ _ hd => hd)
    rintro a c ⟨rfl, ha, rfl⟩
    exact ⟨rfl, ha, rfl⟩
  | .condition test yes no span, hf => by
    unfold expr
    refine Leads.bind ((expr_leads h test hf.1).mono ?_ fun _ _ hd => hd)
    rintro x c ⟨rfl, hx, rfl⟩
    refine Leads.bind ((expr_leads h yes hf.2.1).mono ?_ fun _ _ hd => hd)
    rintro y c ⟨rfl, hy, rfl⟩
    refine Leads.bind ((expr_leads h no hf.2.2).mono ?_ fun _ _ hd => hd)
    rintro z c ⟨rfl, hz, rfl⟩
    exact ⟨rfl, ⟨hx, hy, hz⟩, rfl⟩
  | .call id args span, hf => by
    unfold expr
    refine Leads.bind ((callee_leads h id).mono ?_ fun _ _ hd => hd)
    rintro b c ⟨rfl, hb, hpath, hspan⟩
    refine Leads.bind ((exprs_leads h args hf).mono ?_ fun _ _ hd => hd)
    rintro as c ⟨rfl, has, rfl⟩
    refine ⟨rfl, ⟨hb, has⟩, ?_⟩
    rw [Expr.erase, hpath, hspan]
  | .number _ _, _ | .string _ _, _ | .boolean _ _, _ | .null _, _ => by
    unfold expr
    exact ⟨rfl, trivial, rfl⟩
  | .bad d, hf => by
    unfold expr
    exact ⟨rfl, .inr hf⟩
  | .stuck first d, hf => by
    unfold expr
    refine Leads.bind ((expr_leads h first hf.1).mono ?_ fun _ _ hd => hd)
    rintro a c ⟨rfl, -⟩
    exact ⟨rfl, .inr hf.2⟩

theorem exprs_leads (h : ctx.WellFormed N) : (es : List Surface.Expr) →
    Surface.Expr.AllFaults P es →
    Leads (exprs es) ctx (fun bs c => ctx = c ∧ Expr.AllKnown ctx.table bs ∧ Expr.eraseAll bs = es)
      (fun d c => ctx = c ∧ Reports P d)
  | [], _ => by
    unfold exprs
    exact ⟨rfl, trivial, rfl⟩
  | e :: rest, hf => by
    unfold exprs
    refine Leads.bind ((expr_leads h e hf.1).mono ?_ fun _ _ hd => hd)
    rintro b c ⟨rfl, hb, rfl⟩
    refine Leads.bind ((exprs_leads h rest hf.2).mono ?_ fun _ _ hd => hd)
    rintro bs c ⟨rfl, hbs, rfl⟩
    exact ⟨rfl, ⟨hb, hbs⟩, rfl⟩

end

/-! ### Declarations -/

theorem typeUse_leads (h : ctx.WellFormed N) (a : Surface.TypeUse) :
    Leads (typeUse a) ctx
      (fun typing c => ctx = c ∧ typing.Within ctx.table ctx.table.symbols.size)
      (fun d c => ctx = c ∧ Reports P d) := by
  obtain ⟨c, cs, hcur, hcs, -⟩ := h.current
  unfold typeUse
  refine Leads.bind (leads_get (leads_located ?_))
  rw [hcur]
  refine (Table.typingOf_meets h.table (Table.lt_size hcs) a.type).mono ?_ ?_
  · intro typing hty
    exact ⟨rfl, hty⟩
  · intro cause hc
    exact ⟨rfl, .inl hc⟩

/-- A name of a type is declared: one further symbol, in the current scope. -/
theorem binding_leads (h : ctx.WellFormed N) {kind : SymbolKind} (hkind : kind.IsNamed)
    {b : Surface.Binding} (hN : N b.name.text) :
    Leads (binding kind b) ctx
      (fun b' c => ctx.Reaches N c ∧ c.scopes = ctx.scopes ∧
        c.table.symbols.size = ctx.table.symbols.size + 1 ∧
        b'.symbol = .unit ctx.table.symbols.size ∧ b'.Known c.table kind false ∧
        c.table.Sits ctx.current kind b'.symbol)
      (fun d c => ctx.Reaches N c ∧ Reports P d) := by
  unfold binding
  refine (typeUse_leads h b.typeUse).bind_still h fun typing hty => ?_
  refine Leads.bind ((declare_leads h b.name.pos hN hkind ?_).mono ?_ ?_)
  · intro ty heq
    cases heq
    exact hty
  · rintro id c ⟨rfl, hreach, hscopes, hsize, hsymbol⟩
    refine ⟨hreach, hscopes, hsize, rfl, ⟨?_, _, _, rfl, hsymbol, rfl, rfl, rfl, rfl⟩,
      _, _, rfl, hsymbol, rfl, rfl⟩
    exact hty.mono hreach.grows.keeps hreach.grows.keeps.size_le
  · rintro d c ⟨hreach, hcause⟩
    exact ⟨hreach, .inl (by rw [hcause]; trivial)⟩

/-- The parameters of a function are declared in its scope, and nothing else is. -/
theorem params_leads {S : Surface.Standard} (h : ctx.WellFormed S.name)
    (ps : List Surface.Param) (hps : ∀ p ∈ ps, p.Over S) :
    Leads (params ps) ctx
      (fun r c => ctx.Reaches S.name c ∧ c.scopes = ctx.scopes ∧
        (∀ b ∈ r.1, b.Known c.table .param false) ∧
        (∀ (i : Nat) (s : Symbol), ctx.table.symbols.size ≤ i → c.table.symbols[i]? = some s →
          s.kind = .param) ∧
        (∀ b ∈ r.1, c.table.Sits ctx.current .param b.symbol) ∧
        Numbered ctx.table.symbols.size (r.1.map (·.symbol)) c.table.symbols.size)
      (fun d c => ctx.Reaches S.name c ∧ Reports S.fault d) := by
  induction ps generalizing ctx with
  | nil =>
    refine leads_pure ⟨.refl h, rfl, by simp, fun i s hi hs => ?_, by simp, .nil _⟩
    have hlt := Table.lt_size hs
    omega
  | cons p ps ih =>
    have hrest : ∀ p ∈ ps, p.Over S := fun q hq => hps q (by simp [hq])
    have hp := hps p (by simp)
    cases p with
    | binding b =>
      unfold params
      refine (binding_leads h (by decide) hp.1).bind_reaching (fun _ _ hb => hb.1) ?_
      rintro b' c ⟨hreach, hscopes, hsize, hsymbol, hb, hsits⟩
      refine Leads.bind ((ih hreach.wellFormed hrest).mono ?_ fun _ _ hd => hd)
      rintro ⟨bs, variadic⟩ c' ⟨hreach', hscopes', hbs, hkinds, hplaced, hnumbered⟩
      have hcurrent : c.current = ctx.current := by rw [Context.current, hscopes, Context.current]
      refine ⟨hreach.trans hreach', hscopes'.trans hscopes,
        List.forall_mem_cons.mpr ⟨hb.mono hreach'.grows, hbs⟩, ?_,
        List.forall_mem_cons.mpr ⟨hsits.mono hreach'.grows.keeps, hcurrent ▸ hplaced⟩, ?_⟩
      · intro i s hi hs
        -- The first new symbol is the parameter itself; the others are of the rest.
        by_cases heq : i = ctx.table.symbols.size
        · subst heq
          obtain ⟨-, j, x, hj, hx, -, hkind, -⟩ := hb.mono hreach'.grows
          rw [hsymbol] at hj
          cases hj
          obtain rfl : x = s := Option.some.inj (hx.symm.trans hs)
          exact hkind
        · exact hkinds i s (by omega) hs
      · rw [hsize] at hnumbered
        rw [List.map_cons, hsymbol]
        exact (Numbered.single _).append hnumbered
    | variadic =>
      unfold params
      refine Leads.bind ((ih h hrest).mono ?_ fun _ _ hd => hd)
      rintro ⟨bs, variadic⟩ c hc
      exact hc
    | bad d =>
      unfold params
      exact ⟨.refl h, .inr hp⟩

/-! ### Functions -/

/-- Publishing a function fails just if the scope has published its name. -/
theorem leads_publish {Q : Unit → Context → Prop} {E : Diagnostic → Context → Prop} {k p : Nat}
    {s ps : Symbol} {typing : Typing} {pos : Position} (hs : ctx.table.symbols[k]? = some s)
    (hps : ctx.table.symbols[p]? = some ps) (hne : p ≠ k)
    (hok : ps.child? s.name = none → Q ()
      ⟨(ctx.table.replace k { s with typing := some typing }).replace p
        { ps with children := ps.children ++ [(s.name, .unit k)] }, ctx.scopes⟩)
    (herror : ∀ id, ps.child? s.name = some id → E ⟨.redefinition s.name, pos⟩
      ⟨ctx.table.replace k { s with typing := some typing }, ctx.scopes⟩) :
    Leads (publish (.unit k) (.unit p) typing pos) ctx Q E := by
  unfold publish
  refine Leads.bind (leads_changeTable ?_)
  rw [Table.setTyping_unit hs]
  refine leads_changeTable ?_
  have hps' : (ctx.table.replace k { s with typing := some typing }).symbols[p]? = some ps := by
    rw [Table.symbols_replace hs, if_neg hne, hps]
  have hs' : (ctx.table.replace k { s with typing := some typing }).symbols[k]? =
      some { s with typing := some typing } := by
    rw [Table.symbols_replace hs, if_pos rfl]
  rw [Table.addChild_unit hps' hs']
  cases hchild : ps.child? s.name with
  | none => exact hok hchild
  | some id => exact herror id hchild

/-- A function that was created since some earlier context is published in the scope that was
current there. -/
theorem publish_leads {base : Context} (h : base.Reaches N ctx) {c k : Nat} {s : Symbol}
    {typing : Typing} (pos : Position) (hcur : base.current = .unit c)
    (hc : c < base.table.symbols.size) (hk : base.table.symbols.size ≤ k)
    (hs : ctx.table.symbols[k]? = some s) (hparent : s.parent = some (.unit c))
    (hkind : s.kind.IsNamed) (hty : typing.Within ctx.table k) :
    Leads (publish (.unit k) (.unit c) typing pos) ctx
      (fun _ ctx' => base.Reaches N ctx' ∧ ctx'.scopes = ctx.scopes ∧
        ctx'.table.symbols.size = ctx.table.symbols.size ∧ ctx.table.Keeps ctx'.table ∧
        (∀ (i : Nat) (x : Symbol), i ≠ k → ctx.table.symbols[i]? = some x → ∃ new,
          ctx'.table.symbols[i]? = some { x with children := x.children ++ new }) ∧
        ctx'.table.symbols[k]? = some { s with typing := some typing })
      (fun d ctx' => base.Reaches N ctx' ∧ d.cause = .redefinition s.name) := by
  obtain ⟨b, hb⟩ := Table.exists_symbol hc
  obtain ⟨cs, hcs, -⟩ := h.grows.keeps c b hb
  have hne : c ≠ k := by omega
  have hset : base.Reaches N
      ⟨ctx.table.replace k { s with typing := some typing }, ctx.scopes⟩ := by
    refine h.replace hs hk rfl rfl rfl rfl fun ty heq => ?_
    cases heq
    exact hty
  have hcs' : (ctx.table.replace k { s with typing := some typing }).symbols[c]? = some cs := by
    rw [Table.symbols_replace hs, if_neg hne, hcs]
  have hs' : (ctx.table.replace k { s with typing := some typing }).symbols[k]? =
      some { s with typing := some typing } := by
    rw [Table.symbols_replace hs, if_pos rfl]
  refine leads_publish hs hcs hne (fun hnone => ⟨?_, rfl, ?_, ?_, ?_, ?_⟩)
    fun id _ => ⟨hset, rfl⟩
  · have hpublish := hset.publish hcur hcs' hs' hparent hkind hnone
    exact hpublish
  · rw [Table.size_replace, Table.size_replace]
  · have h₁ : ctx.table.Keeps (ctx.table.replace k { s with typing := some typing }) :=
      Table.keeps_replace hs rfl rfl rfl
    refine h₁.trans (Table.keeps_replace hcs' ?_ ?_ ?_) <;> rfl
  · intro i x hik hx
    have hx' : (ctx.table.replace k { s with typing := some typing }).symbols[i]? = some x := by
      rw [Table.symbols_replace hs, if_neg hik, hx]
    rw [Table.symbols_replace hcs']
    by_cases hic : i = c
    · subst hic
      obtain rfl : cs = x := Option.some.inj (hcs'.symm.trans hx')
      exact ⟨_, by rw [if_pos rfl]⟩
    · exact ⟨[], by rw [if_neg hic, hx', List.append_nil]⟩
  · rw [Table.symbols_replace hcs', if_neg (Ne.symm hne), hs']

/-- The parameters of a function stay known when it gets its type and is published. -/
theorem known_publish {t t' : Table} {k : Nat} {s : Symbol} (hs : t.symbols[k]? = some s)
    (hkind : s.kind = .func) (hkeep : t.Keeps t')
    (h : ∀ (i : Nat) (x : Symbol), i ≠ k → t.symbols[i]? = some x → ∃ new,
      t'.symbols[i]? = some { x with children := x.children ++ new })
    {b : Binding} (hb : b.Known t .param false) : b.Known t' .param false := by
  obtain ⟨hty, i, x, hi, hx, hrest⟩ := hb
  refine ⟨hty.mono hkeep hkeep.size_le, ?_⟩
  have hik : i ≠ k := by
    rintro rfl
    obtain rfl : s = x := Option.some.inj (hs.symm.trans hx)
    simp [hkind] at hrest
  obtain ⟨new, hx'⟩ := h i x hik hx
  exact ⟨i, _, hi, hx', hrest⟩

/-- The symbol of a function while its parameters are declared. -/
theorem symbol_after_params {name : String} {c : Nat} {ctx' : Context}
    (hcur : ctx.current = .unit c)
    (h : Context.Reaches N ⟨(ctx.table.create name .func ctx.current).2,
      .unit ctx.table.symbols.size :: ctx.scopes⟩ ctx') :
    ∃ children, ctx'.table.symbols[ctx.table.symbols.size]? =
      some ⟨name, .func, none, some (.unit c), children, false⟩ := by
  have hlast := Table.symbols_extend_last ctx.table (.fresh name .func (some ctx.current))
  obtain ⟨new, hnew, -⟩ := h.grows _ _ hlast
  rw [hcur] at hnew
  exact ⟨_, hnew⟩

/-- The types of a function were known before it: since then only its parameters were declared. -/
theorem signature_within {name : String} {c : Nat} {ctx' : Context} {ps : List Binding}
    {returns : Typing} (hcur : ctx.current = .unit c)
    (h : Context.Reaches N ⟨(ctx.table.create name .func ctx.current).2,
      .unit ctx.table.symbols.size :: ctx.scopes⟩ ctx')
    (hps : ∀ b ∈ ps, b.Known ctx'.table .param false)
    (hkinds : ∀ (i : Nat) (s : Symbol),
      (ctx.table.create name .func ctx.current).2.symbols.size ≤ i →
      ctx'.table.symbols[i]? = some s → s.kind = .param)
    (hreturns : returns.Within ctx'.table ctx'.table.symbols.size) (variadic : Bool) :
    (signature ps returns variadic).Within ctx'.table ctx.table.symbols.size := by
  obtain ⟨children, hsymbol⟩ := symbol_after_params hcur h
  have hsize : (ctx.table.create name .func ctx.current).2.symbols.size =
      ctx.table.symbols.size + 1 := Table.size_extend _ _
  have hold : ∀ (i : Nat) (s : Symbol), ctx.table.symbols.size ≤ i →
      ctx'.table.symbols[i]? = some s → s.kind ≠ .typeName := by
    intro i s hi hs
    by_cases heq : i = ctx.table.symbols.size
    · subst heq
      rw [hsymbol] at hs
      cases hs
      simp
    · rw [hkinds i s (by omega) hs]
      decide
  refine ⟨Typing.allWithin_of_forall fun x hx => ?_, hreturns.shrink hold⟩
  obtain ⟨b, hb, rfl⟩ := List.mem_map.mp hx
  exact (hps b hb).1.shrink hold

/-- The handle of a scope comes before those of what is declared in it. -/
theorem numbered_created {name : String} {kind : SymbolKind} {ids : List SymbolId} {m : Nat}
    (h : Numbered (ctx.table.create name kind ctx.current).2.symbols.size ids m) :
    Numbered ctx.table.symbols.size (.unit ctx.table.symbols.size :: ids) m := by
  rw [show (ctx.table.create name kind ctx.current).2.symbols.size = ctx.table.symbols.size + 1
    from Table.size_extend _ _] at h
  exact (Numbered.single _).append h

/-- The symbol of a function that is known is in the table. -/
theorem lt_size_of_known {t : Table} {b : Header} {external : Bool} {n : Nat}
    (hb : b.Known t external) (hsymbol : b.symbol = .unit n) : n < t.symbols.size := by
  obtain ⟨-, returns, -, i, x, hi, hx, -⟩ := hb
  rw [hsymbol] at hi
  cases hi
  exact Table.lt_size hx

/-- A function with a body is published, and its scope stays open. -/
theorem funcHeader_leads {S : Surface.Standard} (h : ctx.WellFormed S.name)
    {f : Surface.Header} (hf : f.Over S) :
    Leads (funcHeader f) ctx
      (fun b c => ctx.Reaches S.name c ∧ c.scopes = .unit ctx.table.symbols.size :: ctx.scopes ∧
        b.symbol = .unit ctx.table.symbols.size ∧ b.Known c.table false ∧ b.variadic = false ∧
        b.Placed c.table ctx.current ∧
        Numbered ctx.table.symbols.size b.created c.table.symbols.size)
      (fun d c => ctx.Reaches S.name c ∧ Reports S.fault d) := by
  obtain ⟨c, cs, hcur, hcs, -⟩ := h.current
  obtain ⟨hname, hparams, hreturns⟩ := hf
  have hopen : ctx.Reaches S.name ⟨(ctx.table.create f.name.text .func ctx.current).2,
      .unit ctx.table.symbols.size :: ctx.scopes⟩ :=
    Context.reaches_openScope h fun _ => hname
  unfold funcHeader
  refine Leads.bind (leads_get (Leads.bind (leads_openScope ?_)))
  refine Leads.bind ((params_leads hopen.wellFormed f.params hparams).mono ?_ ?_)
  · rintro ⟨ps, variadic⟩ c₂ ⟨hreach, hscopes, hps, hkinds, hplaced, hnumbered⟩
    have hbase := hopen.trans hreach
    cases variadic with
    | true => exact ⟨hbase, .inl trivial⟩
    | false =>
      simp only [Bool.false_eq_true, if_false]
      refine Leads.bind (leads_known (hreturns.mono ?_ fun d hd => ⟨hbase, .inr hd⟩))
      intro a ha
      refine Leads.bind ((typeUse_leads (P := S.fault) hreach.wellFormed a).mono ?_ ?_)
      · rintro typing c₃ ⟨rfl, hty⟩
        obtain ⟨children, hsymbol⟩ := symbol_after_params hcur hreach
        have hsig := signature_within hcur hreach hps hkinds hty false
        rw [hcur]
        refine Leads.bind ((publish_leads hbase f.name.pos hcur (Table.lt_size hcs)
          (Nat.le_refl _) hsymbol rfl SymbolKind.isNamed_func hsig).mono ?_ ?_)
        · rintro - c₄ ⟨hreach', hscopes', hsize, hkeep, hsame, hdone⟩
          refine ⟨hreach', hscopes'.trans hscopes, rfl, ⟨?_, typing, ?_, ?_⟩, rfl,
            ⟨⟨_, _, rfl, hdone, rfl, rfl⟩, fun p hp => (hplaced p hp).mono hkeep⟩, ?_⟩
          · intro b hb
            exact known_publish hsymbol rfl hkeep hsame (hps b hb)
          · exact hty.mono hkeep hkeep.size_le
          · exact ⟨_, _, rfl, hdone, rfl, rfl, rfl, rfl⟩
          · rw [hsize]
            exact numbered_created hnumbered
        · rintro d c₄ ⟨hreach', hcause⟩
          exact ⟨hreach', .inl (by rw [hcause]; trivial)⟩
      · rintro d c₃ ⟨rfl, hd⟩
        exact ⟨hbase, hd⟩
  · rintro d c₂ ⟨hreach, hd⟩
    exact ⟨hopen.trans hreach, hd⟩

/-- A function without a body is published once its scope is closed. -/
theorem externalFunction_leads {S : Surface.Standard} (h : ctx.WellFormed S.name)
    {f : Surface.Header} (hf : f.Over S) :
    Leads (externalFunction f) ctx
      (fun b c => ctx.Reaches S.name c ∧ c.scopes = ctx.scopes ∧ b.Known c.table true ∧
        b.Placed c.table ctx.current ∧
        Numbered ctx.table.symbols.size b.created c.table.symbols.size)
      (fun d c => ctx.Reaches S.name c ∧ Reports S.fault d) := by
  obtain ⟨c, cs, hcur, hcs, -⟩ := h.current
  obtain ⟨hname, hparams, hreturns⟩ := hf
  have hopen : ctx.Reaches S.name ⟨(ctx.table.create f.name.text .func ctx.current).2,
      .unit ctx.table.symbols.size :: ctx.scopes⟩ :=
    Context.reaches_openScope h fun _ => hname
  unfold externalFunction
  refine Leads.bind (leads_get (Leads.bind (leads_openScope ?_)))
  refine Leads.bind ((params_leads hopen.wellFormed f.params hparams).mono ?_ ?_)
  · rintro ⟨ps, variadic⟩ c₂ ⟨hreach, hscopes, hps, hkinds, hplaced, hnumbered⟩
    have hbase := hopen.trans hreach
    refine Leads.bind (leads_known (hreturns.mono ?_ fun d hd => ⟨hbase, .inr hd⟩))
    intro a ha
    refine Leads.bind ((typeUse_leads (P := S.fault) hreach.wellFormed a).mono ?_ ?_)
    · rintro typing c₃ ⟨rfl, hty⟩
      obtain ⟨children, hsymbol⟩ := symbol_after_params hcur hreach
      have hsig := signature_within hcur hreach hps hkinds hty variadic
      obtain ⟨hclose, hclosed⟩ := hbase.close h hreach rfl (Table.size_lt_create ..)
      refine Leads.bind (leads_closeScope ?_)
      rw [hclose, hcur]
      refine Leads.bind ((publish_leads hclosed f.name.pos hcur (Table.lt_size hcs)
        (Nat.le_refl _) hsymbol rfl SymbolKind.isNamed_func hsig).mono ?_ ?_)
      · rintro - c₄ ⟨hreach', hscopes', hsize', hkeep, hsame, hdone⟩
        refine Leads.bind (leads_changeTable ?_)
        rw [Table.markExternal_unit hdone]
        have hmarked : ctx.Reaches S.name ⟨c₄.table.replace ctx.table.symbols.size
            ⟨f.name.text, .func, some (signature ps typing variadic), some (.unit c), children,
              true⟩, c₄.scopes⟩ :=
          hreach'.replace hdone (Nat.le_refl _) rfl rfl rfl rfl
            fun ty heq => hreach'.wellFormed.table.typing hdone heq
        have hkeep' : c₄.table.Keeps (c₄.table.replace ctx.table.symbols.size
            ⟨f.name.text, .func, some (signature ps typing variadic), some (.unit c), children,
              true⟩) := Table.keeps_replace hdone rfl rfl rfl
        have hall := hkeep.trans hkeep'
        have hlast : (c₄.table.replace ctx.table.symbols.size
            ⟨f.name.text, .func, some (signature ps typing variadic), some (.unit c), children,
              true⟩).symbols[ctx.table.symbols.size]? = some ⟨f.name.text, .func,
                some (signature ps typing variadic), some (.unit c), children, true⟩ := by
          rw [Table.symbols_replace hdone, if_pos rfl]
        refine ⟨hmarked, hscopes', ⟨?_, typing, hty.mono hall hall.size_le, _, _, rfl, hlast, rfl,
          rfl, rfl, rfl⟩, ⟨⟨_, _, rfl, hlast, rfl, rfl⟩, fun p hp => (hplaced p hp).mono hall⟩, ?_⟩
        · intro b hb
          have hb' := known_publish hsymbol rfl hkeep hsame (hps b hb)
          refine known_publish hdone rfl hkeep' (fun i x hi hx => ⟨[], ?_⟩) hb'
          rw [Table.symbols_replace hdone, if_neg hi, hx, List.append_nil]
        · rw [Table.size_replace, hsize']
          exact numbered_created hnumbered
      · rintro d c₄ ⟨hreach', hcause⟩
        exact ⟨hreach', .inl (by rw [hcause]; trivial)⟩
    · rintro d c₃ ⟨rfl, hd⟩
      exact ⟨hbase, hd⟩
  · rintro d c₂ ⟨hreach, hd⟩
    exact ⟨hopen.trans hreach, hd⟩

/-! ### Statements -/

/-- What binding a statement ends with: a later context in which just the module that the statement
opens, if any, is open as well, and which knows the statement. -/
structure Binds (S : Surface.Standard) (ctx : Context) (s : Stmt) (ctx' : Context) : Prop where
  reaches : ctx.Reaches S.name ctx'
  scopes : ctx'.scopes = s.opens ++ ctx.scopes
  known : s.Known ctx'.table
  placed : s.Placed ctx'.table ctx.current
  created : Numbered ctx.table.symbols.size s.created ctx'.table.symbols.size
  exprs : ∀ e ∈ s.exprs, S.expr e.erase

/-- The same for a block, which leaves no scope open. -/
structure BindsBlock (S : Surface.Standard) (ctx : Context) (b : Block) (ctx' : Context) :
    Prop where
  reaches : ctx.Reaches S.name ctx'
  scopes : ctx'.scopes = ctx.scopes
  known : b.Known ctx'.table
  placed : b.Placed ctx'.table ctx.current
  created : Numbered ctx.table.symbols.size b.created ctx'.table.symbols.size
  exprs : ∀ e ∈ b.exprs, S.expr e.erase

/-- The same for statements, the modules of which stay open. -/
structure BindsAll (S : Surface.Standard) (ctx : Context) (ss : List Stmt) (ctx' : Context) :
    Prop where
  reaches : ctx.Reaches S.name ctx'
  known : Stmt.AllKnown ctx'.table ss
  placed : Stmt.AllPlaced ctx'.table ctx.current ss
  created : Numbered ctx.table.symbols.size (Stmt.allCreated ss) ctx'.table.symbols.size
  exprs : ∀ e ∈ Stmt.allExprs ss, S.expr e.erase

theorem numbered_single {symbol : SymbolId} {n m : Nat} (hsymbol : symbol = .unit n)
    (hsize : m = n + 1) : Numbered n [symbol] m := by
  rw [hsymbol, hsize]
  exact .single n

theorem initialValue_leads {S : Surface.Standard} (h : ctx.WellFormed S.name)
    (hS : ∀ e, S.expr e → e.Faults S.fault) {initial : Option Surface.Expr}
    (hi : ∀ e ∈ initial, S.expr e) :
    Leads (initialValue initial) ctx
      (fun r c => ctx = c ∧ (∀ e ∈ r, e.Known ctx.table) ∧ ∀ e ∈ r, S.expr e.erase)
      (fun d c => ctx = c ∧ Reports S.fault d) := by
  cases initial with
  | none => exact leads_pure ⟨rfl, by simp, by simp⟩
  | some e =>
    have he := hi e (by simp)
    refine Leads.bind ((expr_leads h e (hS e he)).mono ?_ fun _ _ hd => hd)
    rintro b c ⟨rfl, hb, rfl⟩
    exact ⟨rfl, by simpa using hb, by simpa using he⟩

/-- A module is declared, and stays open behind its statement. -/
theorem mod_leads {S : Surface.Standard} (h : ctx.WellFormed S.name) {name : Surface.Name}
    (hname : S.name name.text) (span : Span) :
    Leads (stmt (.mod name span)) ctx (fun b c => Binds S ctx b c)
      (fun d c => ctx.Reaches S.name c ∧ Reports S.fault d) := by
  unfold stmt
  refine Leads.bind ((declare_leads h name.pos hname (by decide) (by simp)).mono ?_ ?_)
  · rintro id c ⟨rfl, hreach, hscopes, hsize, hsymbol⟩
    refine Leads.bind (leads_modify ?_)
    have hpushed : ctx.Reaches S.name (c.push (.unit ctx.table.symbols.size)) := by
      refine ⟨⟨hreach.wellFormed.table, ?_, hreach.wellFormed.named⟩, hreach.grows,
        [.unit ctx.table.symbols.size], ?_, ?_⟩
      · obtain ⟨k, ks, hcur, -, rest, hrest⟩ := h.current
        have hnested := hreach.wellFormed.nested
        rw [hscopes, hrest] at hnested
        simp only [Context.push, hscopes, hrest]
        exact .step hsymbol (by rw [hcur]; rfl) hnested
      · simp [Context.push, hscopes]
      · intro id hid
        obtain rfl : id = .unit ctx.table.symbols.size := by simpa using hid
        exact ⟨_, rfl, Nat.le_refl _⟩
    refine ⟨hpushed, ?_, ⟨_, _, rfl, hsymbol, rfl, rfl, rfl, rfl⟩, ⟨_, _, rfl, hsymbol, rfl, rfl⟩,
      hsize ▸ .single _, by simp [Stmt.exprs]⟩
    simp [Context.push, hscopes, Stmt.opens]
  · rintro d c ⟨hreach, hcause⟩
    exact ⟨hreach, .inl (by rw [hcause]; trivial)⟩

/-- The initial value of a variable is bound before the variable is declared. -/
theorem variable_leads {S : Surface.Standard} (hS : ∀ e, S.expr e → e.Faults S.fault)
    (h : ctx.WellFormed S.name) {b : Surface.Binding} {initial : Option Surface.Expr}
    (hb : b.Over S) (hi : ∀ e ∈ initial, S.expr e) (span : Span) :
    Leads (stmt (.declare b initial span)) ctx (fun b c => Binds S ctx b c)
      (fun d c => ctx.Reaches S.name c ∧ Reports S.fault d) := by
  unfold stmt
  refine (initialValue_leads h hS hi).bind_still h ?_
  rintro r ⟨hr, hexprs⟩
  refine Leads.bind ((binding_leads h (by decide) hb.1).mono ?_ fun _ _ hd => hd)
  rintro b' c ⟨hreach, hscopes, hsize, hsymbol, hknown, hsits⟩
  refine ⟨hreach, hscopes, ⟨hknown, fun e he => (hr e he).mono hreach.grows.keeps⟩,
    ⟨hsits, fun e he id hid heq => ?_⟩, numbered_single hsymbol hsize, ?_⟩
  · -- The initial value was bound when the symbol was not there yet.
    have hhas := (hr e he).idents id hid
    rw [heq, hsymbol] at hhas
    exact absurd hhas Table.not_has_size
  · intro e he
    exact hexprs e (by simpa [Stmt.exprs] using he)

/-- A variable from elsewhere is declared and then marked. -/
theorem externalVariable_leads {S : Surface.Standard} (h : ctx.WellFormed S.name)
    {b : Surface.Binding} (hb : b.Over S) (pos : Position) (span : Span) :
    Leads (stmt (.externalVariable b pos span)) ctx (fun b c => Binds S ctx b c)
      (fun d c => ctx.Reaches S.name c ∧ Reports S.fault d) := by
  unfold stmt
  refine Leads.bind ((binding_leads h (by decide) hb.1).mono ?_ fun _ _ hd => hd)
  rintro b' c ⟨hreach, hscopes, hsize, hsymbol, ⟨hty, i, x, hi, hx, hname, hkind, htyping, -⟩,
    hsits⟩
  have hnumbered := numbered_single hsymbol hsize
  rw [hi] at hsymbol
  cases hsymbol
  refine Leads.bind (leads_changeTable ?_)
  rw [hi, Table.markExternal_unit hx]
  have hkeep : c.table.Keeps (c.table.replace ctx.table.symbols.size
      { x with isExternal := true }) := Table.keeps_replace hx rfl rfl rfl
  have hmarked : ctx.Reaches S.name ⟨c.table.replace ctx.table.symbols.size
      { x with isExternal := true }, c.scopes⟩ :=
    hreach.replace hx (Nat.le_refl _) rfl rfl rfl rfl
      fun ty heq => hreach.wellFormed.table.typing hx heq
  refine ⟨hmarked, hscopes, ⟨hty.mono hkeep hkeep.size_le, _, { x with isExternal := true }, hi,
    ?_, hname, hkind, htyping, rfl⟩, hsits.mono hkeep, ?_, by simp [Stmt.exprs]⟩
  · rw [Table.symbols_replace hx, if_pos rfl]
  · rw [Table.size_replace]
    exact hnumbered

/-- A name for a type is declared once the type is bound. -/
theorem typeAlias_leads {S : Surface.Standard} (h : ctx.WellFormed S.name) {name : Surface.Name}
    (hname : S.name name.text) (a : Surface.TypeUse) (span : Span) :
    Leads (stmt (.typeAlias name a span)) ctx (fun b c => Binds S ctx b c)
      (fun d c => ctx.Reaches S.name c ∧ Reports S.fault d) := by
  unfold stmt
  refine (typeUse_leads h a).bind_still h fun typing hty => ?_
  refine Leads.bind ((declare_leads h name.pos hname (by decide) ?_).mono ?_ ?_)
  · intro ty heq
    cases heq
    exact hty
  · rintro id c ⟨rfl, hreach, hscopes, hsize, hsymbol⟩
    refine ⟨hreach, hscopes, ⟨typing, ?_, _, _, rfl, hsymbol, rfl, rfl, rfl, rfl⟩,
      ⟨_, _, rfl, hsymbol, rfl, rfl⟩, hsize ▸ .single _, by simp [Stmt.exprs]⟩
    exact hty.mono hreach.grows.keeps hreach.grows.keeps.size_le
  · rintro d c ⟨hreach, hcause⟩
    exact ⟨hreach, .inl (by rw [hcause]; trivial)⟩

mutual

/-- **From a context in order, binding a statement leads to one that knows the statement, or reports
a cause of binding or a fault of the statement.** -/
theorem stmt_leads {S : Surface.Standard} (hS : ∀ e, S.expr e → e.Faults S.fault)
    {ctx : Context} (h : ctx.WellFormed S.name) : (s : Surface.Stmt) → s.Over S →
    Leads (stmt s) ctx (fun b c => Binds S ctx b c)
      (fun d c => ctx.Reaches S.name c ∧ Reports S.fault d)
  | .empty span, _ => by
    unfold stmt
    exact leads_pure ⟨.refl h, rfl, trivial, trivial, .nil _, by simp [Stmt.exprs]⟩
  | .mod _ span, hs => mod_leads h hs span
  | .declare _ _ span, hs => variable_leads hS h hs.1 hs.2 span
  | .externalVariable _ pos span, hs => externalVariable_leads h hs pos span
  | .externalFunction f declared span, hs => by
    unfold stmt
    refine Leads.bind ((externalFunction_leads h hs).mono ?_ fun _ _ hd => hd)
    rintro b c ⟨hreach, hscopes, hb, hplaced, hnumbered⟩
    exact ⟨hreach, hscopes, hb, hplaced, hnumbered, by simp [Stmt.exprs]⟩
  | .whileLoop test body span, hs | .ifThen test body span, hs => by
    unfold stmt
    refine (expr_leads h test (hS test hs.1)).bind_still h ?_
    rintro x ⟨hx, rfl⟩
    refine Leads.bind ((block_leads hS h body hs.2).mono ?_ fun _ _ hd => hd)
    intro b c hb
    exact ⟨hb.reaches, hb.scopes, ⟨hx.mono hb.reaches.grows.keeps, hb.known⟩, hb.placed,
      hb.created, List.forall_mem_cons.mpr ⟨hs.1, hb.exprs⟩⟩
  | .ifElse test yes no span, hs => by
    unfold stmt
    refine (expr_leads h test (hS test hs.1)).bind_still h ?_
    rintro x ⟨hx, rfl⟩
    refine (block_leads hS h yes hs.2.1).bind_reaching (fun _ _ hy => hy.reaches) fun y c hy => ?_
    refine Leads.bind ((block_leads hS hy.reaches.wellFormed no hs.2.2).mono ?_ fun _ _ hd => hd)
    intro z c' hz
    have hboth := hy.reaches.trans hz.reaches
    have hcurrent : c.current = ctx.current := by
      rw [Context.current, hy.scopes, Context.current]
    exact ⟨hboth, hz.scopes.trans hy.scopes, ⟨hx.mono hboth.grows.keeps,
      hy.known.mono hz.reaches.grows, hz.known⟩,
      ⟨hy.placed.mono hz.reaches.grows.keeps, hcurrent ▸ hz.placed⟩, hy.created.append hz.created,
      List.forall_mem_cons.mpr ⟨hs.1, List.forall_mem_append.mpr ⟨hy.exprs, hz.exprs⟩⟩⟩
  | .returned value span, hs | .expr value span, hs => by
    unfold stmt
    refine (expr_leads h value (hS value hs)).bind_still h ?_
    rintro x ⟨hx, rfl⟩
    exact ⟨.refl h, rfl, hx, trivial, .nil _, List.forall_mem_singleton.mpr hs⟩
  | .typeAlias _ a span, hs => typeAlias_leads h hs.1 a span
  | .func f (.mk body bodySpan) span, hs => by
    unfold stmt
    refine (funcHeader_leads h hs.1).bind_reaching (fun _ _ hb => hb.1) ?_
    rintro b c ⟨hreach, hscopes, hsymbol, hb, hvariadic, hplaced, hnumbered⟩
    refine Leads.bind ((stmts_leads hS hreach.wellFormed body hs.2).mono ?_ fun _ _ hd => hd)
    intro bs c' hbs
    obtain ⟨hclose, hclosed⟩ := (hreach.trans hbs.reaches).close h hbs.reaches hscopes
      (lt_size_of_known hb hsymbol)
    refine Leads.bind (leads_closeScope ?_)
    rw [hsymbol, hclose]
    have hcurrent : c.current = b.symbol := by
      rw [Context.current, hscopes, hsymbol]
      rfl
    exact ⟨hclosed, rfl, ⟨hb.mono hbs.reaches.grows, hvariadic, hbs.known⟩,
      ⟨hplaced.mono hbs.reaches.grows.keeps, hsymbol.symm, hcurrent ▸ hbs.placed⟩,
      hnumbered.append hbs.created, hbs.exprs⟩
  | .bad d, hs => by
    unfold stmt
    exact ⟨.refl h, .inr hs⟩
  | .stuck first d, hs => by
    unfold stmt
    refine (expr_leads h first (hS first hs.1)).bind_still h fun _ _ => ?_
    exact ⟨.refl h, .inr hs.2⟩

theorem block_leads {S : Surface.Standard} (hS : ∀ e, S.expr e → e.Faults S.fault)
    {ctx : Context} (h : ctx.WellFormed S.name) : (b : Surface.Block) → b.Over S →
    Leads (block b) ctx (fun b c => BindsBlock S ctx b c)
      (fun d c => ctx.Reaches S.name c ∧ Reports S.fault d)
  | .mk body span, hb => by
    unfold block
    have hopen : ctx.Reaches S.name ⟨(ctx.table.create blockName .block ctx.current).2,
        .unit ctx.table.symbols.size :: ctx.scopes⟩ :=
      Context.reaches_openScope h fun hne => absurd rfl hne.2
    refine Leads.bind (leads_openScope ?_)
    refine Leads.bind ((stmts_leads hS hopen.wellFormed body hb).mono ?_ ?_)
    · rintro bs c hbs
      obtain ⟨hclose, hclosed⟩ :=
        (hopen.trans hbs.reaches).close h hbs.reaches rfl (Table.size_lt_create ..)
      refine Leads.bind (leads_closeScope ?_)
      rw [hclose]
      have hsits : c.table.Sits ctx.current .block (.unit ctx.table.symbols.size) := by
        have hlast := Table.symbols_extend_last ctx.table
          (.fresh blockName .block (some ctx.current))
        exact Table.Sits.mono hbs.reaches.grows.keeps ⟨_, _, rfl, hlast, rfl, rfl⟩
      refine ⟨hclosed, rfl, hbs.known, ⟨hsits, hbs.placed⟩, ?_, hbs.exprs⟩
      exact numbered_created hbs.created
    · rintro d c ⟨hreach, hd⟩
      exact ⟨hopen.trans hreach, hd⟩

theorem stmts_leads {S : Surface.Standard} (hS : ∀ e, S.expr e → e.Faults S.fault)
    {ctx : Context} (h : ctx.WellFormed S.name) : (ss : List Surface.Stmt) →
    Surface.Stmt.AllOver S ss →
    Leads (stmts ss) ctx (fun bs c => BindsAll S ctx bs c)
      (fun d c => ctx.Reaches S.name c ∧ Reports S.fault d)
  | [], _ => by
    unfold stmts
    exact leads_pure ⟨.refl h, trivial, trivial, .nil _, by simp [Stmt.allExprs]⟩
  | s :: rest, hs => by
    unfold stmts
    refine (stmt_leads hS h s hs.1).bind_reaching (fun _ _ hb => hb.reaches) fun b c hb => ?_
    refine Leads.bind ((stmts_leads hS hb.reaches.wellFormed rest hs.2).mono ?_ fun _ _ hd => hd)
    intro bs c' hbs
    have hcurrent : c.current = b.innermost ctx.current := by
      rw [Context.current, hb.scopes, Stmt.innermost, Context.current]
      cases b.opens <;> rfl
    exact ⟨hb.reaches.trans hbs.reaches, ⟨hb.known.mono hbs.reaches.grows, hbs.known⟩,
      ⟨hb.placed.mono hbs.reaches.grows.keeps, hcurrent ▸ hbs.placed⟩,
      hb.created.append hbs.created, List.forall_mem_append.mpr ⟨hb.exprs, hbs.exprs⟩⟩

end

end Binder

/-- What binding a tree gives is what its statements are bound to. -/
theorem bindTree_run {root : Node} {source : ByteArray} {u : Bound.CompilationUnit}
    (h : bindTree root source = .ok u) :
    ∃ ctx, (Binder.stmts (Surface.stmtsOf source root.children)).run .initial =
      .ok u.sourceFile.stmts ctx ∧ u.table = ctx.table := by
  unfold bindTree at h
  split at h
  · split at h
    · rename_i stmts ctx hrun
      cases h
      exact ⟨ctx, hrun, rfl⟩
    · cases h
  · cases h

/-- What is known of a program that was bound, whatever tree it came from. -/
theorem bindTree_binds {root : Node} {source : ByteArray} {u : Bound.CompilationUnit}
    (h : bindTree root source = .ok u) :
    ∃ ctx, u.table = ctx.table ∧
      Binder.BindsAll Surface.anything .initial u.sourceFile.stmts ctx := by
  obtain ⟨ctx, hrun, htable⟩ := bindTree_run h
  have hleads := Binder.stmts_leads (S := Surface.anything) (fun e _ => e.faults_anything)
    Context.wellFormed_initial _
    (Surface.Stmt.allOver_anything (Surface.stmtsOf source root.children))
  unfold Binder.Leads at hleads
  rw [hrun] at hleads
  exact ⟨ctx, htable, hleads⟩

end BlockC

import BlockC.Bound.Context

/-! # What computations lead to

Two ways to say at once what a computation gives if it succeeds and what it reports if it fails: for
plain computations (`Meets`), and for the steps of binding, which change a context as well
(`Binder.Leads`).  Each comes with a rule for every way to build such a computation.
-/
namespace BlockC

section Meets
variable {ε α β : Type} {P Q : α → Prop} {E F : ε → Prop}

/-- The result has the first property, or the failure has the second. -/
def Meets (P : α → Prop) (E : ε → Prop) : Except ε α → Prop
  | .ok a => P a
  | .error e => E e

theorem Meets.bind {R : β → Prop} {r : Except ε α} {f : α → Except ε β} (h : Meets P E r)
    (hf : ∀ a, P a → Meets R E (f a)) : Meets R E (r >>= f) := by
  cases r with
  | ok a => exact hf a h
  | error e => exact h

theorem Meets.mono {r : Except ε α} (h : Meets P E r) (hP : ∀ a, P a → Q a)
    (hE : ∀ e, E e → F e) : Meets Q F r := by
  cases r with
  | ok a => exact hP a h
  | error e => exact hE e h

theorem Meets.mapError {ζ : Type} {F : ζ → Prop} {r : Except ε α} {f : ε → ζ} (h : Meets P E r)
    (hf : ∀ e, E e → F (f e)) : Meets P F (r.mapError f) := by
  cases r with
  | ok a => exact h
  | error e => exact hf e h

/-- A computation that cannot fail. -/
theorem Meets.exists_ok {r : Except ε α} (h : Meets P (fun _ => False) r) :
    ∃ a, r = .ok a ∧ P a := by
  cases r with
  | ok a => exact ⟨a, rfl, h⟩
  | error e => exact h.elim

/-- A computation gives a result if something is known of its result. -/
theorem exists_ok_of_map {r : Except ε α} {f : α → β} {b : β} (h : r.toOption.map f = some b) :
    ∃ a, r = .ok a ∧ f a = b := by
  cases r with
  | ok a => exact ⟨a, rfl, Option.some.inj h⟩
  | error e => cases h

end Meets

namespace Binder

variable {α β : Type} {ctx : Context} {Q R : α → Context → Prop} {E F : Diagnostic → Context → Prop}

/-- From a context, a step ends with the first property, or fails with the second. -/
def Leads (m : Binder α) (ctx : Context) (Q : α → Context → Prop)
    (E : Diagnostic → Context → Prop) : Prop :=
  match m.run ctx with
  | .ok a ctx' => Q a ctx'
  | .error d ctx' => E d ctx'

theorem Leads.mono {m : Binder α} (h : Leads m ctx Q E) (hQ : ∀ a c, Q a c → R a c)
    (hE : ∀ d c, E d c → F d c) : Leads m ctx R F := by
  unfold Leads at h ⊢
  split at h
  · exact hQ _ _ h
  · exact hE _ _ h

/-- Two things that a step leads to hold together, since a step has one outcome. -/
theorem Leads.and {m : Binder α} (h : Leads m ctx Q E) (h' : Leads m ctx R F) :
    Leads m ctx (fun a c => Q a c ∧ R a c) (fun d c => E d c ∧ F d c) := by
  unfold Leads at h h' ⊢
  cases hm : m.run ctx with
  | ok a c =>
    rw [hm] at h h'
    exact ⟨h, h'⟩
  | error d c =>
    rw [hm] at h h'
    exact ⟨h, h'⟩

theorem leads_pure {a : α} (h : Q a ctx) : Leads (pure a) ctx Q E := h

theorem leads_throw {d : Diagnostic} (h : E d ctx) : Leads (throw d) ctx Q E := h

theorem leads_get {Q : Context → Context → Prop} (h : Q ctx ctx) : Leads get ctx Q E := h

theorem leads_modify {Q : Unit → Context → Prop} {f : Context → Context} (h : Q () (f ctx)) :
    Leads (modify f) ctx Q E := h

theorem Leads.bind {m : Binder α} {f : α → Binder β} {R : β → Context → Prop}
    (h : Leads m ctx (fun a c => Leads (f a) c R E) E) : Leads (m >>= f) ctx R E := by
  unfold Leads at h ⊢
  change match (EStateM.bind m f) ctx with
    | .ok a ctx' => R a ctx'
    | .error d ctx' => E d ctx'
  unfold EStateM.bind
  change match m ctx with
    | .ok a c => _
    | .error d c => _ at h
  cases hm : m ctx with
  | ok a c =>
    rw [hm] at h
    exact h
  | error d c =>
    rw [hm] at h
    exact h

theorem leads_located {pos : Position} {r : Except Cause α}
    (h : Meets (fun a => Q a ctx) (fun cause => E ⟨cause, pos⟩ ctx) r) :
    Leads (located pos r) ctx Q E := by
  cases r with
  | ok a => exact h
  | error cause => exact h

theorem leads_known {r : Except Diagnostic α}
    (h : Meets (fun a => Q a ctx) (fun d => E d ctx) r) : Leads (known r) ctx Q E := by
  cases r with
  | ok a => exact h
  | error d => exact h

theorem leads_changeTable {Q : Unit → Context → Prop} {pos : Position}
    {f : Table → Except Cause Table}
    (h : Meets (fun table => Q () { ctx with table }) (fun cause => E ⟨cause, pos⟩ ctx)
      (f ctx.table)) : Leads (changeTable pos f) ctx Q E := by
  refine Leads.bind (leads_get ?_)
  refine Leads.bind (leads_located ?_)
  exact h.mono (fun table hQ => leads_modify hQ) fun cause hE => hE

theorem leads_create {Q : SymbolId → Context → Prop} {name : String} {kind : SymbolKind}
    (h : Q (.unit ctx.table.symbols.size)
      { ctx with table := (ctx.table.create name kind ctx.current).2 }) :
    Leads (create name kind) ctx Q E := h

theorem leads_openScope {Q : SymbolId → Context → Prop} {name : String} {kind : SymbolKind}
    (h : Q (.unit ctx.table.symbols.size)
      ⟨(ctx.table.create name kind ctx.current).2,
        .unit ctx.table.symbols.size :: ctx.scopes⟩) :
    Leads (openScope name kind) ctx Q E := h

theorem leads_closeScope {Q : Unit → Context → Prop} {scope : SymbolId}
    (h : Q () (ctx.close scope)) : Leads (closeScope scope) ctx Q E := h

end Binder
end BlockC

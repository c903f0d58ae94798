import BlockC.Proofs.Frames

/-! # Contexts in order

In a context in order (`Context.WellFormed`) each open scope is inside the next one and the last is
the root.  A step of binding leads to contexts that are in order again, where the table has grown
and scopes were opened on top of those that were open (`Context.Reaches`).  This module says what
each kind of change to a context does.
-/
namespace BlockC

namespace Context

variable {N : String → Prop} {ctx ctx' ctx'' : Context}

/-- What holds of every context on the way of binding a program whose names are in `N`. -/
structure WellFormed (N : String → Prop) (ctx : Context) : Prop where
  table : ctx.table.WellFormed
  nested : Nested ctx.table ctx.scopes
  /-- What a program can name has one of its names. -/
  named : ∀ {i : Nat} {s : Symbol}, ctx.table.symbols[i]? = some s →
    s.kind.IsNamed → N s.name

theorem wellFormed_initial : initial.WellFormed N := by
  refine ⟨Table.wellFormed_empty, .root, fun {i s} h hnamed => ?_⟩
  cases i with
  | zero =>
    obtain rfl : s = .fresh Table.rootName .root none := by
      simpa [initial, Table.empty] using h.symm
    exact absurd rfl hnamed.1
  | succ i => simp [initial, Table.empty] at h

/-- The innermost open scope is a symbol of the unit. -/
theorem WellFormed.current (h : ctx.WellFormed N) :
    ∃ c cs, ctx.current = .unit c ∧ ctx.table.symbols[c]? = some cs ∧
      ∃ rest, ctx.scopes = .unit c :: rest := by
  obtain ⟨r, hr, -⟩ := h.table.root
  have hn := h.nested
  unfold Context.current
  generalize ctx.scopes = scopes at hn ⊢
  cases hn with
  | root => exact ⟨0, r, rfl, hr, [], rfl⟩
  | step hs _ _ => exact ⟨_, _, rfl, hs, _, rfl⟩

/-- What is looked up in a context is a symbol of its table, or is not declared. -/
theorem WellFormed.resolveFullName_meets (h : ctx.WellFormed N) (name : String) :
    Meets ctx.table.Has (fun cause => cause = .unresolvedSymbol name)
      (ctx.table.resolveFullName ctx.current name) := by
  obtain ⟨c, cs, hcur, hcs, -⟩ := h.current
  rw [hcur]
  exact Table.resolveFullName_meets h.table.toRooted (Table.lt_size hcs) name

/-- From one context to a later one: the table has grown in the scope that was current, and scopes
that were not there before were opened. -/
structure Reaches (N : String → Prop) (ctx ctx' : Context) : Prop where
  wellFormed : ctx'.WellFormed N
  grows : ctx.table.Grows ctx.current ctx'.table
  scopes : ∃ new, ctx'.scopes = new ++ ctx.scopes ∧
    ∀ id ∈ new, ∃ i, id = .unit i ∧ ctx.table.symbols.size ≤ i

theorem Reaches.refl (h : ctx.WellFormed N) : ctx.Reaches N ctx :=
  ⟨h, .refl _ _, [], rfl, by simp⟩

/-- The current scope of a later context is that of the earlier one, or was opened since. -/
theorem Reaches.current (h : ctx.Reaches N ctx') :
    ctx'.current = ctx.current ∨
      ∃ i, ctx'.current = .unit i ∧ ctx.table.symbols.size ≤ i := by
  obtain ⟨new, hnew, hfresh⟩ := h.scopes
  cases new with
  | nil =>
    left
    simp [Context.current, hnew]
  | cons id new =>
    right
    obtain ⟨i, rfl, hi⟩ := hfresh id (by simp)
    exact ⟨i, by simp [Context.current, hnew], hi⟩

theorem Reaches.trans (h : ctx.Reaches N ctx') (h' : ctx'.Reaches N ctx'') :
    ctx.Reaches N ctx'' := by
  have hsize := h.grows.keeps.size_le
  refine ⟨h'.wellFormed, h.grows.trans h'.grows h.current, ?_⟩
  obtain ⟨new, hnew, hfresh⟩ := h.scopes
  obtain ⟨new', hnew', hfresh'⟩ := h'.scopes
  refine ⟨new' ++ new, by rw [hnew', hnew, List.append_assoc], fun id hid => ?_⟩
  rcases List.mem_append.mp hid with hid | hid
  · obtain ⟨i, rfl, hi⟩ := hfresh' id hid
    exact ⟨i, rfl, by omega⟩
  · exact hfresh id hid

/-! ### Opening and closing scopes -/

/-- A further symbol in the current scope, which is not published. -/
theorem reaches_extend (h : ctx.WellFormed N) {s : Symbol} (hp : s.parent = some ctx.current)
    (hc : s.children = [])
    (hty : ∀ typing, s.typing = some typing → typing.Within ctx.table ctx.table.symbols.size)
    (hN : s.kind.IsNamed → N s.name) :
    ctx.Reaches N { ctx with table := ctx.table.extend s } := by
  obtain ⟨c, cs, hcur, hcs, -⟩ := h.current
  have hkeep := Table.keeps_extend ctx.table s
  refine ⟨⟨?_, h.nested.mono hkeep, ?_⟩, (Table.Grows.refl _ _).extend s, [], rfl, by simp⟩
  · exact h.table.extend (hp.trans (by rw [hcur])) (Table.lt_size hcs) hc hty
  · intro i x hx hnamed
    rw [Table.symbols_extend] at hx
    split at hx
    · obtain rfl := Option.some.inj hx
      exact hN hnamed
    · exact h.named hx hnamed

/-- A further scope inside the current one. -/
theorem reaches_openScope (h : ctx.WellFormed N) {name : String} {kind : SymbolKind}
    (hN : kind.IsNamed → N name) :
    ctx.Reaches N ⟨(ctx.table.create name kind ctx.current).2,
      .unit ctx.table.symbols.size :: ctx.scopes⟩ := by
  obtain ⟨c, cs, hcur, hcs, rest, hscopes⟩ := h.current
  have hext := reaches_extend h (s := .fresh name kind (some ctx.current)) rfl rfl
    (fun _ hty => by cases hty) hN
  refine ⟨⟨hext.wellFormed.table, ?_, hext.wellFormed.named⟩, hext.grows,
    [.unit ctx.table.symbols.size], rfl, ?_⟩
  · change Nested _ (.unit ctx.table.symbols.size :: ctx.scopes)
    rw [hscopes]
    refine .step (Table.symbols_extend_last ctx.table (.fresh name kind (some ctx.current)))
      (by rw [hcur]; rfl) ?_
    rw [← hscopes]
    exact hext.wellFormed.nested
  · intro id hid
    obtain rfl : id = .unit ctx.table.symbols.size := by simpa using hid
    exact ⟨_, rfl, Nat.le_refl _⟩

/-- Closing a scope closes what was opened on top of it. -/
theorem close_append {new : List SymbolId} {scope : SymbolId} {scopes : List SymbolId}
    (hs : ctx.scopes = new ++ scope :: scopes) (hnew : scope ∉ new) :
    ctx.close scope = { ctx with scopes } := by
  unfold Context.close
  rw [hs]
  have hdrop : (new ++ scope :: scopes).dropWhile (· != scope) = scope :: scopes := by
    rw [List.dropWhile_append_of_pos]
    · simp
    · intro id hid
      simp only [bne_iff_ne]
      intro heq
      exact hnew (heq ▸ hid)
  rw [hdrop, List.tail_cons]

/-- After a scope is opened and closed again, the scopes are those of before.  The inner context is
one with just that scope open on top. -/
theorem Reaches.close {inner : Context} (h : ctx.WellFormed N) (hout : ctx.Reaches N ctx')
    (hin : inner.Reaches N ctx')
    (hscopes : inner.scopes = .unit ctx.table.symbols.size :: ctx.scopes)
    (hsize : ctx.table.symbols.size < inner.table.symbols.size) :
    ctx'.close (.unit ctx.table.symbols.size) = ⟨ctx'.table, ctx.scopes⟩ ∧
      ctx.Reaches N ⟨ctx'.table, ctx.scopes⟩ := by
  obtain ⟨new, hnew, hfresh⟩ := hin.scopes
  rw [hscopes] at hnew
  refine ⟨close_append hnew fun hmem => ?_, ⟨hout.wellFormed.table, ?_, hout.wellFormed.named⟩,
    hout.grows, [], rfl, by simp⟩
  · obtain ⟨i, heq, hi⟩ := hfresh _ hmem
    cases heq
    omega
  · exact h.nested.mono hout.grows.keeps

/-! ### Publishing -/

/-- What is published in a scope that had nothing of that name. -/
theorem wellFormed_publish {t : Table} (h : t.WellFormed) {p k : Nat} {ps s : Symbol}
    (hps : t.symbols[p]? = some ps) (hs : t.symbols[k]? = some s)
    (hparent : s.parent = some (.unit p)) (hk : s.kind.IsNamed)
    (hnone : ps.child? s.name = none) :
    (t.replace p { ps with children := ps.children ++ [(s.name, .unit k)] }).WellFormed := by
  refine h.replace hps rfl rfl rfl ?_ ?_ (fun typing hty => h.typing hps hty)
  · intro name id hmem
    rcases List.mem_append.mp hmem with hmem | hmem
    · exact h.child hps hmem
    · obtain ⟨rfl, rfl⟩ : name = s.name ∧ id = .unit k := by simpa using hmem
      exact ⟨k, s, rfl, hs, rfl, hparent, hk⟩
  · rw [List.map_append, List.nodup_append]
    refine ⟨h.distinct hps, by simp, ?_⟩
    intro a ha b hb
    obtain rfl : b = s.name := by simpa using hb
    intro heq
    subst heq
    obtain ⟨⟨name, id⟩, hmem, rfl⟩ := List.mem_map.mp ha
    have hnot := List.lookup_eq_none_iff.mp hnone (s.name, id) hmem
    simp at hnot

/-- A change that keeps names and kinds keeps the names in `N`. -/
theorem named_replace {t : Table} {i : Nat} {s new : Symbol} (hs : t.symbols[i]? = some s)
    (hname : new.name = s.name) (hkind : new.kind = s.kind)
    (h : ∀ {j : Nat} {x : Symbol}, t.symbols[j]? = some x → x.kind.IsNamed → N x.name)
    {j : Nat} {x : Symbol} (hx : (t.replace i new).symbols[j]? = some x)
    (hnamed : x.kind.IsNamed) : N x.name := by
  rw [Table.symbols_replace hs] at hx
  split at hx
  · obtain rfl := Option.some.inj hx
    rw [hname]
    exact h hs (by rwa [hkind] at hnamed)
  · exact h hx hnamed

/-- A symbol that was not there at first gets a type, or is marked as declared elsewhere. -/
theorem Reaches.replace (h : ctx.Reaches N ctx') {k : Nat} {s new : Symbol}
    (hs : ctx'.table.symbols[k]? = some s) (hk : ctx.table.symbols.size ≤ k)
    (hname : new.name = s.name) (hkind : new.kind = s.kind) (hparent : new.parent = s.parent)
    (hchildren : new.children = s.children)
    (hty : ∀ typing, new.typing = some typing → typing.Within ctx'.table k) :
    ctx.Reaches N { ctx' with table := ctx'.table.replace k new } := by
  have hkeep := Table.keeps_replace hs hname hkind hparent
  have hwf := h.wellFormed
  refine ⟨⟨?_, hwf.nested.mono hkeep, ?_⟩, h.grows.replace hs hk new, h.scopes⟩
  · refine hwf.table.replace hs hname hkind hparent ?_ ?_ hty
    · intro name id hmem
      rw [hchildren] at hmem
      exact hwf.table.child hs hmem
    · rw [hchildren]
      exact hwf.table.distinct hs
  · intro j x hx
    exact named_replace hs hname hkind hwf.named hx

/-- The scope that was current at first publishes a symbol. -/
theorem Reaches.publish (h : ctx.Reaches N ctx') {c k : Nat} {cs s : Symbol}
    (hcur : ctx.current = .unit c) (hcs : ctx'.table.symbols[c]? = some cs)
    (hs : ctx'.table.symbols[k]? = some s) (hparent : s.parent = some (.unit c))
    (hk : s.kind.IsNamed) (hnone : cs.child? s.name = none) :
    ctx.Reaches N ⟨ctx'.table.replace c
      { cs with children := cs.children ++ [(s.name, .unit k)] }, ctx'.scopes⟩ := by
  have hwf := h.wellFormed
  have hkeep : ctx'.table.Keeps (ctx'.table.replace c
      { cs with children := cs.children ++ [(s.name, .unit k)] }) :=
    Table.keeps_replace hcs rfl rfl rfl
  have hgrows := h.grows
  rw [hcur] at hgrows
  refine ⟨⟨wellFormed_publish hwf.table hcs hs hparent hk hnone, hwf.nested.mono hkeep, ?_⟩, ?_,
    h.scopes⟩
  · intro j x hx
    refine named_replace hcs ?_ ?_ hwf.named hx <;> rfl
  · rw [hcur]
    exact hgrows.publish hcs _

end Context

/-! ### Declarations -/

namespace Table

theorem extend_replace_last (t : Table) (s new : Symbol) :
    (t.extend s).replace t.symbols.size new = t.extend new := by
  have h := symbols_extend_last t s
  refine congrArg Table.mk (Array.ext_getElem? fun i => ?_)
  change ((t.extend s).replace t.symbols.size new).symbols[i]? = (t.extend new).symbols[i]?
  rw [symbols_replace h, symbols_extend, symbols_extend]
  split <;> rfl

theorem setTyping_unit {t : Table} {i : Nat} {s : Symbol} (h : t.symbols[i]? = some s)
    (typing : Typing) :
    t.setTyping (.unit i) typing = .ok (t.replace i { s with typing := some typing }) := by
  rw [setTyping, update_unit h]
  rfl

theorem markExternal_unit {t : Table} {i : Nat} {s : Symbol} (h : t.symbols[i]? = some s) :
    t.markExternal (.unit i) = .ok (t.replace i { s with isExternal := true }) := by
  rw [markExternal, update_unit h]
  rfl

theorem addChild_unit {t : Table} {p k : Nat} {ps s : Symbol} (hp : t.symbols[p]? = some ps)
    (hk : t.symbols[k]? = some s) :
    t.addChild (.unit p) (.unit k) =
      match ps.child? s.name with
      | some _ => .error (.redefinition s.name)
      | none => .ok (t.replace p { ps with children := ps.children ++ [(s.name, .unit k)] }) := by
  have hget : t.get (.unit k) = .ok s := by simp [get, get?, hk]
  rw [addChild, hget]
  simp only [bind, Except.bind]
  rw [update_unit hp]
  cases ps.child? s.name <;> rfl

end Table

namespace Binder

variable {N : String → Prop} {ctx : Context}

/-- A symbol as it is declared. -/
def declared (name : String) (kind : SymbolKind) (typing : Option Typing) (scope : SymbolId) :
    Symbol :=
  ⟨name, kind, typing, some scope, [], false⟩

/-- A declaration fails just if the current scope has published the name, and otherwise publishes a
further symbol. -/
theorem leads_declare {Q : SymbolId → Context → Prop} {E : Diagnostic → Context → Prop}
    {name : String} {kind : SymbolKind} {typing : Option Typing} {pos : Position} {c : Nat}
    {cs : Symbol} (hcur : ctx.current = .unit c) (hcs : ctx.table.symbols[c]? = some cs)
    (hok : cs.child? name = none → Q (.unit ctx.table.symbols.size)
      ⟨(ctx.table.extend (declared name kind typing (.unit c))).replace c
        { cs with children := cs.children ++ [(name, .unit ctx.table.symbols.size)] },
        ctx.scopes⟩)
    (herror : ∀ id, cs.child? name = some id → E ⟨.redefinition name, pos⟩
      ⟨ctx.table.extend (declared name kind typing (.unit c)), ctx.scopes⟩) :
    Leads (declare name kind typing pos) ctx Q E := by
  -- Once the symbol is there with its type, it is published.
  have hpublish (t : Table) (ht : t = ctx.table.extend (declared name kind typing (.unit c))) :
      Leads (do
        changeTable pos (·.addChild (.unit c) (.unit ctx.table.symbols.size))
        return .unit ctx.table.symbols.size) ⟨t, ctx.scopes⟩ Q E := by
    subst ht
    refine Leads.bind (leads_changeTable ?_)
    rw [Table.addChild_unit (Table.symbols_extend_of_some hcs _) (Table.symbols_extend_last _ _)]
    cases hchild : cs.child? name with
    | none =>
      have hname : cs.child? (declared name kind typing (.unit c)).name = none := hchild
      simp only [hname]
      exact hok hchild
    | some id =>
      have hname : cs.child? (declared name kind typing (.unit c)).name = some id := hchild
      simp only [hname]
      exact herror id hchild
  unfold declare
  refine Leads.bind (leads_get ?_)
  refine Leads.bind (leads_create ?_)
  rw [hcur]
  cases typing with
  | none => exact hpublish _ rfl
  | some typing =>
    refine Leads.bind (leads_changeTable ?_)
    have hset := Table.setTyping_unit
      (Table.symbols_extend_last ctx.table (.fresh name kind (some (.unit c)))) typing
    change Meets _ _ ((ctx.table.extend (.fresh name kind (some (.unit c)))).setTyping
      (.unit ctx.table.symbols.size) typing)
    rw [hset, Table.extend_replace_last]
    exact hpublish _ rfl

/-- What a declaration leaves behind. -/
theorem declare_leads (h : ctx.WellFormed N) {name : String} {kind : SymbolKind}
    {typing : Option Typing} (pos : Position) (hN : N name) (hkind : kind.IsNamed)
    (hty : ∀ ty, typing = some ty → ty.Within ctx.table ctx.table.symbols.size) :
    Leads (declare name kind typing pos) ctx
      (fun id ctx' => id = .unit ctx.table.symbols.size ∧ ctx.Reaches N ctx' ∧
        ctx'.scopes = ctx.scopes ∧ ctx'.table.symbols.size = ctx.table.symbols.size + 1 ∧
        ctx'.table.symbols[ctx.table.symbols.size]? =
          some (declared name kind typing ctx.current))
      (fun d ctx' => ctx.Reaches N ctx' ∧ d.cause = .redefinition name) := by
  obtain ⟨c, cs, hcur, hcs, -⟩ := h.current
  have hc := Table.lt_size hcs
  have hext : ctx.Reaches N
      ⟨ctx.table.extend (declared name kind typing (.unit c)), ctx.scopes⟩ :=
    Context.reaches_extend h (by rw [hcur]; rfl) rfl hty fun _ => hN
  have hcs' := Table.symbols_extend_of_some hcs (declared name kind typing (.unit c))
  refine leads_declare hcur hcs (fun hnone => ⟨rfl, ?_, rfl, ?_, ?_⟩) fun _ _ => ⟨hext, rfl⟩
  · exact hext.publish hcur hcs' (Table.symbols_extend_last _ _) rfl hkind hnone
  · rw [Table.size_replace, Table.size_extend]
  · rw [Table.symbols_replace hcs', if_neg (by omega), Table.symbols_extend_last, hcur]

end Binder
end BlockC

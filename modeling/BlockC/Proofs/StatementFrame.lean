import BlockC.Proofs.TableWalks

/-! # A statement touches its own scope only

Whatever a statement holds, binding it leaves every symbol of before as it was, but for at most one
further child of the scope that the statement stands in: the symbol that the statement itself
declares (`Table.Adds`).  What is declared inside of it goes to scopes that were not there before.
This holds of every tree, and also of one that fails on the way (`statement_touches_own_scope`).
-/
namespace BlockC

/-- What follows another computation gives a result only if that one does. -/
theorem exists_ok_of_bind {ε α β : Type} {r : Except ε α} {f : α → Except ε β} {b : β}
    (h : r >>= f = .ok b) : ∃ a, r = .ok a ∧ f a = .ok b := by
  cases r with
  | ok a => exact ⟨a, rfl, h⟩
  | error e => cases h

namespace Table

variable {scope : SymbolId} {new : List (String × SymbolId)} {t t' t'' : Table}

/-- From one table to a later one, every symbol stays as it is, but for the given further children
of the given scope, which are symbols that were not there before. -/
structure Adds (scope : SymbolId) (new : List (String × SymbolId)) (t t' : Table) : Prop where
  kept : ∀ (i : Nat) (s : Symbol), t.symbols[i]? = some s → t'.symbols[i]? =
    some (if scope = .unit i then { s with children := s.children ++ new } else s)
  fresh : ∀ entry ∈ new, ∃ k, entry.2 = .unit k ∧ t.symbols.size ≤ k ∧ k < t'.symbols.size

theorem Adds.refl (scope : SymbolId) (t : Table) : t.Adds scope [] t := by
  refine ⟨fun i s hs => ?_, by simp⟩
  simpa using hs

theorem Adds.size_le (h : t.Adds scope new t') : t.symbols.size ≤ t'.symbols.size := by
  -- Otherwise the first symbol that is not there any more would be kept.
  refine Nat.le_of_not_lt fun hlt => ?_
  obtain ⟨s, hs⟩ := exists_symbol (t := t) (i := t'.symbols.size) hlt
  exact Nat.lt_irrefl _ (lt_size (h.kept _ s hs))

theorem Adds.trans (h : t.Adds scope [] t') (h' : t'.Adds scope new t'') :
    t.Adds scope new t'' := by
  refine ⟨fun i s hs => ?_, fun entry hmem => ?_⟩
  · have hkept := h.kept i s hs
    rw [List.append_nil, ite_self] at hkept
    exact h'.kept i s hkept
  · have hle := h.size_le
    obtain ⟨k, hk, hk', hlt⟩ := h'.fresh entry hmem
    exact ⟨k, hk, by omega, hlt⟩

/-- What happens later to symbols that were not there at first does not count. -/
theorem Adds.mono (h : t.Adds scope new t') (hsize : t'.symbols.size ≤ t''.symbols.size)
    (hsame : ∀ (i : Nat) (s : Symbol), i < t.symbols.size → t'.symbols[i]? = some s →
      t''.symbols[i]? = some s) : t.Adds scope new t'' := by
  refine ⟨fun i s hs => hsame i _ (lt_size hs) (h.kept i s hs), fun entry hmem => ?_⟩
  obtain ⟨k, hk, hle, hlt⟩ := h.fresh entry hmem
  exact ⟨k, hk, hle, by omega⟩

theorem Adds.extend (h : t.Adds scope new t') (s : Symbol) : t.Adds scope new (t'.extend s) :=
  h.mono (by simp) fun _ _ _ hs => symbols_extend_of_some hs s

theorem Adds.replace (h : t.Adds scope new t') {k : Nat} {s : Symbol}
    (hs : t'.symbols[k]? = some s) (hk : t.symbols.size ≤ k) (other : Symbol) :
    t.Adds scope new (t'.replace k other) := by
  refine h.mono (by simp) fun i x hi hx => ?_
  rw [symbols_replace hs, if_neg (by omega), hx]

/-- A scope that was not there at first may grow. -/
theorem Adds.grow (h : t.Adds scope new t') {k : Nat} (hk : t.symbols.size ≤ k)
    (hgrows : t'.Grows (.unit k) t'') : t.Adds scope new t'' := by
  refine h.mono hgrows.keeps.size_le fun i s hi hs => hgrows.symbol hs ?_
  intro heq
  cases heq
  omega

/-- The scope publishes a symbol that was not there at first. -/
theorem Adds.publish {c k : Nat} {cs : Symbol} (h : t.Adds (.unit c) [] t')
    (hcs : t'.symbols[c]? = some cs) (hk : t.symbols.size ≤ k) (hlt : k < t'.symbols.size)
    (name : String) : t.Adds (.unit c) [(name, .unit k)]
      (t'.replace c { cs with children := cs.children ++ [(name, .unit k)] }) := by
  refine ⟨fun i s hs => ?_, fun entry hmem => ?_⟩
  · have hkept := h.kept i s hs
    rw [symbols_replace hcs]
    by_cases hic : i = c
    · subst hic
      obtain rfl : s = cs := by simpa using hkept.symm.trans hcs
      simp
    · have hne : SymbolId.unit c ≠ .unit i := fun heq => hic (by cases heq; rfl)
      rw [if_neg hic, hkept, if_neg hne, if_neg hne]
  · obtain rfl := List.mem_singleton.mp hmem
    exact ⟨k, rfl, hk, by simpa using hlt⟩

/-- In a table in order no name is published twice, so what is added was new under its name. -/
theorem Adds.unbound (h : t.Adds scope new t') (ht' : t'.WellFormed) {c : Nat} {cs : Symbol}
    (hscope : scope = .unit c) (hcs : t.symbols[c]? = some cs) {entry : String × SymbolId}
    (hmem : entry ∈ new) : cs.child? entry.1 = none := by
  have hdistinct := ht'.distinct (h.kept c cs hcs)
  rw [if_pos hscope] at hdistinct
  have hapart := (List.nodup_append.mp (List.map_append ▸ hdistinct)).2.2
  refine List.lookup_eq_none_iff.mpr fun old hold => ?_
  have hne := hapart old.1 (List.mem_map_of_mem hold) entry.1 (List.mem_map_of_mem hmem)
  simpa using Ne.symm hne

end Table

namespace Surface

/-- The name that a statement declares in its own scope. -/
def Stmt.declares : Stmt → Option String
  | .mod name _ | .typeAlias name _ _ => some name.text
  | .declare b _ _ | .externalVariable b _ _ => some b.name.text
  | .externalFunction h _ _ | .func h _ _ => some h.name.text
  | .empty _ | .whileLoop _ _ _ | .ifThen _ _ _ | .ifElse _ _ _ _ | .returned _ _ | .expr _ _
  | .bad _ | .stuck _ _ => none

end Surface

namespace Binder

open Table (Adds)

variable {α : Type} {ctx : Context} {N : String → Prop}

/-- From one context to a later one, just the given names are added, and just to the scope that was
current. -/
def Adding (names : List String) (ctx ctx' : Context) : Prop :=
  ∃ new, ctx.table.Adds ctx.current new ctx'.table ∧ new.map (·.1) = names

theorem adding_nil (ctx : Context) : Adding [] ctx ctx :=
  ⟨[], .refl _ _, rfl⟩

/-- What only looks leaves it to what follows. -/
theorem Still.leads_bind {β : Type} {m : Binder α} {f : α → Binder β} {Q : β → Context → Prop}
    {E : Diagnostic → Context → Prop} (h : Still m) (hE : ∀ d, E d ctx)
    (hf : ∀ a, Leads (f a) ctx Q E) : Leads (m >>= f) ctx Q E := by
  refine Leads.bind ((h ctx).mono ?_ ?_)
  · rintro a _ rfl
    exact hf a
  · rintro d _ rfl
    exact hE d

/-- A declaration adds its name, or fails and adds nothing. -/
theorem declare_adding (h : ctx.WellFormed N) (name : String) (kind : SymbolKind)
    (typing : Option Typing) (pos : Position) :
    Leads (declare name kind typing pos) ctx
      (fun id c => id = .unit ctx.table.symbols.size ∧
        ctx.table.symbols.size < c.table.symbols.size ∧ Adding [name] ctx c)
      (fun _ c => Adding [] ctx c) := by
  obtain ⟨c, cs, hcur, hcs, -⟩ := h.current
  have hext := (Adds.refl (.unit c) ctx.table).extend (declared name kind typing (.unit c))
  refine leads_declare hcur hcs (fun _ => ⟨rfl, by simp, ?_⟩) fun _ _ => ⟨[], hcur ▸ hext, rfl⟩
  refine ⟨[(name, .unit ctx.table.symbols.size)], ?_, rfl⟩
  rw [hcur]
  exact hext.publish (Table.symbols_extend_of_some hcs _) (Nat.le_refl _) (by simp) name

theorem binding_adding (h : ctx.WellFormed N) (kind : SymbolKind) (b : Surface.Binding) :
    Leads (binding kind b) ctx
      (fun b' c => b'.symbol = .unit ctx.table.symbols.size ∧
        ctx.table.symbols.size < c.table.symbols.size ∧ Adding [b.name.text] ctx c)
      (fun _ c => Adding [] ctx c) := by
  unfold binding
  refine (still_typeUse b.typeUse).leads_bind (fun _ => adding_nil ctx) fun typing => ?_
  refine Leads.bind ((declare_adding h _ _ _ _).mono ?_ fun _ _ hd => hd)
  rintro _ c ⟨rfl, hlt, hadd⟩
  exact ⟨rfl, hlt, hadd⟩

/-! ### What is inside a scope of its own -/

/-- The context inside a scope that was just opened. -/
def inside (ctx : Context) (name : String) (kind : SymbolKind) : Context :=
  ⟨(ctx.table.create name kind ctx.current).2, .unit ctx.table.symbols.size :: ctx.scopes⟩

theorem wellFormed_inside (h : ctx.WellFormed Surface.anything.name) (name : String)
    (kind : SymbolKind) : (inside ctx name kind).WellFormed Surface.anything.name :=
  (Context.reaches_openScope h fun _ => trivial).wellFormed

/-- What goes on inside a scope that was just opened stays there. -/
theorem adds_inside {name : String} {kind : SymbolKind} {ctx' : Context}
    (h : (inside ctx name kind).Reaches N ctx') :
    ctx.table.Adds ctx.current [] ctx'.table :=
  ((Adds.refl _ _).extend (.fresh name kind (some ctx.current))).grow (Nat.le_refl _) h.grows

theorem stmts_reaches (h : ctx.WellFormed Surface.anything.name) (ss : List Surface.Stmt) :
    Leads (stmts ss) ctx (fun _ c => ctx.Reaches Surface.anything.name c)
      (fun _ c => ctx.Reaches Surface.anything.name c) :=
  (stmts_leads (fun e _ => e.faults_anything) h ss (Surface.Stmt.allOver_anything ss)).mono
    (fun _ _ hb => hb.reaches) fun _ _ hd => hd.1

theorem params_reaches (h : ctx.WellFormed Surface.anything.name) (ps : List Surface.Param) :
    Leads (params ps) ctx (fun _ c => ctx.Reaches Surface.anything.name c)
      (fun _ c => ctx.Reaches Surface.anything.name c) := by
  refine (params_leads h ps fun p _ => ?_).mono (fun _ _ hb => hb.1) fun _ _ hd => hd.1
  cases p <;> first | exact Surface.Binding.over_anything _ | trivial

/-- A block adds nothing to the scope that it stands in. -/
theorem block_adding (h : ctx.WellFormed Surface.anything.name) (b : Surface.Block) :
    Leads (block b) ctx (fun _ c => c.WellFormed Surface.anything.name ∧ c.current = ctx.current ∧
        Adding [] ctx c)
      (fun _ c => Adding [] ctx c) := by
  obtain ⟨body, span⟩ := b
  have hframe : Leads (block (.mk body span)) ctx (fun _ c => Adding [] ctx c)
      (fun _ c => Adding [] ctx c) := by
    unfold block
    refine Leads.bind (leads_openScope ?_)
    refine Leads.bind ((stmts_reaches (wellFormed_inside h _ _) body).mono ?_ ?_)
    · intro _ c hreach
      have hadds := adds_inside hreach
      exact ⟨[], hadds, rfl⟩
    · intro _ c hreach
      exact ⟨[], adds_inside hreach, rfl⟩
  refine ((block_leads (fun e _ => e.faults_anything) h _ (Surface.Block.over_anything _)).and
    hframe).mono ?_ fun _ _ hd => hd.2
  rintro _ c ⟨hb, hadd⟩
  refine ⟨hb.reaches.wellFormed, ?_, hadd⟩
  rw [Context.current, hb.scopes, Context.current]

/-- One thing after another that adds nothing. -/
theorem Adding.trans {names : List String} {ctx' ctx'' : Context} (h : Adding [] ctx ctx')
    (hcur : ctx'.current = ctx.current) (h' : Adding names ctx' ctx'') :
    Adding names ctx ctx'' := by
  obtain ⟨new, hadds, hnil⟩ := h
  obtain ⟨new', hadds', hnames⟩ := h'
  obtain rfl := List.map_eq_nil_iff.mp hnil
  exact ⟨new', hadds.trans (hcur ▸ hadds'), hnames⟩

/-- A symbol that was just made is marked as declared elsewhere. -/
theorem markExternal_adding {names : List String} {ctx' : Context} {pos : Position}
    {E : Diagnostic → Context → Prop} (h : Adding names ctx ctx')
    (hlt : ctx.table.symbols.size < ctx'.table.symbols.size) :
    Leads (changeTable pos (·.markExternal (.unit ctx.table.symbols.size))) ctx'
      (fun _ c => Adding names ctx c) E := by
  obtain ⟨s, hs⟩ := Table.exists_symbol hlt
  obtain ⟨new, hadds, hnames⟩ := h
  refine leads_changeTable ?_
  rw [Table.markExternal_unit hs]
  exact ⟨new, hadds.replace hs (Nat.le_refl _) _, hnames⟩

/-! ### Functions -/

/-- Publishing a function that was just made adds its name, or fails and adds nothing. -/
theorem publish_adding (inner : Context) {c : Nat} {s : Symbol} {typing : Typing} {pos : Position}
    (h : ctx.WellFormed N) (hcur : ctx.current = .unit c)
    (hadds : ctx.table.Adds (.unit c) [] inner.table)
    (hs : inner.table.symbols[ctx.table.symbols.size]? = some s) :
    Leads (publish (.unit ctx.table.symbols.size) (.unit c) typing pos) inner
      (fun _ c' => ctx.table.symbols.size < c'.table.symbols.size ∧ Adding [s.name] ctx c')
      (fun _ c' => Adding [] ctx c') := by
  obtain ⟨c', cs, hcur', hcs, -⟩ := h.current
  obtain rfl : c' = c := by simpa [hcur'] using hcur
  have hlt := Table.lt_size hcs
  have hsize := Table.lt_size hs
  have hkept := hadds.kept c' cs hcs
  rw [List.append_nil, ite_self] at hkept
  -- The type goes to the function, which was not there at first.
  have htyped := hadds.replace hs (Nat.le_refl _) { s with typing := some typing }
  refine leads_publish hs hkept (by omega) (fun _ => ⟨by simpa using hsize, ?_⟩)
    fun _ _ => ⟨[], hcur ▸ htyped, rfl⟩
  refine ⟨[(s.name, .unit ctx.table.symbols.size)], ?_, rfl⟩
  rw [hcur]
  refine htyped.publish ?_ (Nat.le_refl _) (by simpa using hsize) s.name
  rw [Table.symbols_replace hs, if_neg (by omega), hkept]

theorem funcHeader_adding (h : ctx.WellFormed Surface.anything.name) (f : Surface.Header) :
    Leads (funcHeader f) ctx (fun _ c => Adding [f.name.text] ctx c)
      (fun _ c => Adding [] ctx c) := by
  obtain ⟨c, cs, hcur, hcs, -⟩ := h.current
  unfold funcHeader
  refine Leads.bind (leads_get (Leads.bind (leads_openScope ?_)))
  refine Leads.bind ((params_reaches (wellFormed_inside h _ _) f.params).mono ?_ ?_)
  · rintro ⟨ps, variadic⟩ c₁ hreach
    have hadds := adds_inside hreach
    cases variadic with
    | true => exact ⟨[], hadds, rfl⟩
    | false =>
      refine (still_known f.returns).leads_bind (fun _ => ⟨[], hadds, rfl⟩) fun returns => ?_
      refine (still_typeUse returns).leads_bind (fun _ => ⟨[], hadds, rfl⟩) fun typing => ?_
      obtain ⟨children, hsymbol⟩ := symbol_after_params hcur hreach
      rw [hcur] at hadds ⊢
      exact Leads.bind ((publish_adding _ h hcur hadds hsymbol).mono (fun _ _ hc => hc.2)
        fun _ _ hc => hc)
  · intro _ c₁ hreach
    exact ⟨[], adds_inside hreach, rfl⟩

theorem externalFunction_adding (h : ctx.WellFormed Surface.anything.name) (f : Surface.Header) :
    Leads (externalFunction f) ctx (fun _ c => Adding [f.name.text] ctx c)
      (fun _ c => Adding [] ctx c) := by
  obtain ⟨c, cs, hcur, hcs, -⟩ := h.current
  unfold externalFunction
  refine Leads.bind (leads_get (Leads.bind (leads_openScope ?_)))
  refine Leads.bind ((params_reaches (wellFormed_inside h _ _) f.params).mono ?_ ?_)
  · rintro ⟨ps, variadic⟩ c₁ hreach
    have hadds := adds_inside hreach
    refine (still_known f.returns).leads_bind (fun _ => ⟨[], hadds, rfl⟩) fun returns => ?_
    refine (still_typeUse returns).leads_bind (fun _ => ⟨[], hadds, rfl⟩) fun typing => ?_
    obtain ⟨children, hsymbol⟩ := symbol_after_params hcur hreach
    refine Leads.bind (leads_closeScope ?_)
    rw [hcur] at hadds ⊢
    refine Leads.bind ((publish_adding (c₁.close _) h hcur hadds hsymbol).mono ?_
      fun _ _ hc => hc)
    rintro _ c₂ ⟨hlt, hadd⟩
    exact Leads.bind (markExternal_adding hadd hlt)
  · intro _ c₁ hreach
    exact ⟨[], adds_inside hreach, rfl⟩

/-- The body of a function adds nothing to the scope that the function stands in. -/
theorem func_adding (h : ctx.WellFormed Surface.anything.name) (f : Surface.Header)
    (body : List Surface.Stmt) (bodySpan span : Span) :
    Leads (stmt (.func f (.mk body bodySpan) span)) ctx (fun _ c => Adding [f.name.text] ctx c)
      (fun _ c => Adding [] ctx c ∨ Adding [f.name.text] ctx c) := by
  unfold stmt
  refine Leads.bind (((funcHeader_leads h f.over_anything).and (funcHeader_adding h f)).mono ?_
    fun _ _ hc => .inl hc.2)
  rintro b c ⟨⟨hreach, hscopes, hsymbol, -⟩, new, hadds, hnames⟩
  have hcur : c.current = .unit ctx.table.symbols.size := by
    rw [Context.current, hscopes]
    rfl
  -- Wherever the body stops, it was only the function that has grown.
  have hadding : ∀ c', c.Reaches Surface.anything.name c' → Adding [f.name.text] ctx c' := by
    intro c' hbody
    have hgrows := hbody.grows
    rw [hcur] at hgrows
    exact ⟨new, hadds.grow (Nat.le_refl _) hgrows, hnames⟩
  exact Leads.bind ((stmts_reaches hreach.wellFormed body).mono
    (fun _ c' hbody => Leads.bind (leads_closeScope (hadding c' hbody)))
    fun _ c' hbody => .inr (hadding c' hbody))

/-! ### Statements -/

/-- **A statement adds what it declares to the scope that it stands in, and nothing else to any
scope of before; one that fails adds no more.** -/
theorem stmt_adding (h : ctx.WellFormed Surface.anything.name) (s : Surface.Stmt) :
    Leads (stmt s) ctx (fun _ c => Adding s.declares.toList ctx c)
      (fun _ c => Adding [] ctx c ∨ Adding s.declares.toList ctx c) := by
  cases s with
  | empty span =>
    unfold stmt
    exact leads_pure (adding_nil ctx)
  | mod name span =>
    unfold stmt
    refine Leads.bind ((declare_adding h _ _ _ _).mono ?_ fun _ _ hc => .inl hc)
    rintro _ c ⟨-, -, hadd⟩
    exact Leads.bind (leads_modify hadd)
  | declare b initial span =>
    unfold stmt
    refine (still_initialValue initial).leads_bind (fun _ => .inl (adding_nil ctx)) fun _ => ?_
    exact Leads.bind ((binding_adding h _ b).mono (fun _ _ hc => hc.2.2) fun _ _ hc => .inl hc)
  | externalVariable b pos span =>
    unfold stmt
    refine Leads.bind ((binding_adding h _ b).mono ?_ fun _ _ hc => .inl hc)
    rintro b' c ⟨hsymbol, hlt, hadd⟩
    rw [hsymbol]
    exact Leads.bind (markExternal_adding hadd hlt)
  | externalFunction f declared span =>
    unfold stmt
    exact Leads.bind ((externalFunction_adding h f).mono (fun _ _ hc => hc) fun _ _ hc => .inl hc)
  | whileLoop test body span | ifThen test body span =>
    unfold stmt
    refine (still_expr test).leads_bind (fun _ => .inl (adding_nil ctx)) fun _ => ?_
    exact Leads.bind ((block_adding h body).mono (fun _ _ hc => hc.2.2) fun _ _ hc => .inl hc)
  | ifElse test yes no span =>
    unfold stmt
    refine (still_expr test).leads_bind (fun _ => .inl (adding_nil ctx)) fun _ => ?_
    refine Leads.bind ((block_adding h yes).mono ?_ fun _ _ hc => .inl hc)
    rintro _ c ⟨hc, hcur, hadd⟩
    exact Leads.bind ((block_adding hc no).mono (fun _ _ hd => hadd.trans hcur hd.2.2)
      fun _ _ hd => .inl (hadd.trans hcur hd))
  | returned value span | expr value span =>
    unfold stmt
    exact (still_expr value).leads_bind (fun _ => .inl (adding_nil ctx)) fun _ => adding_nil ctx
  | typeAlias name a span =>
    unfold stmt
    refine (still_typeUse a).leads_bind (fun _ => .inl (adding_nil ctx)) fun _ => ?_
    exact Leads.bind ((declare_adding h _ _ _ _).mono (fun _ _ hc => hc.2.2)
      fun _ _ hc => .inl hc)
  | func f body span =>
    obtain ⟨body, bodySpan⟩ := body
    exact func_adding h f body bodySpan span
  | bad d =>
    unfold stmt
    exact leads_throw (.inl (adding_nil ctx))
  | stuck first d =>
    unfold stmt
    exact (still_expr first).leads_bind (fun _ => .inl (adding_nil ctx))
      fun _ => .inl (adding_nil ctx)

end Binder

/-! ### The name that a tree declares -/

namespace Node

/-- The kinds of statement that declare a name in the scope that they stand in. -/
def declaringKinds : List String :=
  ["mod", "declare", "external", "type_alias", "func"]

/-- The node that holds the name of a node that is a name with its type. -/
def boundName? (n : Node) : Option Node :=
  (n.child? "typed_ident").bind (·.child? "ident")

/-- The node that holds the name of what an external declaration declares. -/
def externalName? (n : Node) : Option Node :=
  match n.kind with
  | "external_variable" => n.boundName?
  | "external_function" => n.child? "func_name"
  | _ => none

/-- The node that holds the name of what a statement declares. -/
def ownName? (n : Node) : Option Node :=
  match n.kind with
  | "mod" => n.child? "name"
  | "declare" => n.boundName?
  | "external" => n.namedChildren.head?.bind externalName?
  | "type_alias" => n.child? "ident"
  | "func" => n.child? "func_name"
  | _ => none

/-- Whether the statement in a tree declares a name, by the kind of the first named node below. -/
def holdsDeclaration (tree : Node) : Bool :=
  tree.namedChildren.head?.any (declaringKinds.contains ·.kind)

/-- The name that the statement in a tree declares is the text of a node below. -/
def Declares (source : ByteArray) (tree : Node) (name : String) : Prop :=
  ∃ node, tree.namedChildren.head?.bind ownName? = some node ∧
    Surface.textOf source node.head = .ok name

end Node

namespace Surface

/-- No whole statement could be read. -/
def Stmt.Unread (s : Stmt) : Prop :=
  (∃ d, s = .bad d) ∨ ∃ first d, s = .stuck first d

section
variable {source : ByteArray} {n : Node}

theorem childIn_ok {field : String} {child : Node} (h : childIn n field = .ok child) :
    n.child? field = some child := by
  unfold childIn at h
  split at h
  · rename_i hchild
    rw [hchild, Except.ok.inj h]
  · cases h

theorem nameIn_ok {field : String} {name : Name} (h : nameIn source n field = .ok name) :
    ∃ node, n.child? field = some node ∧ textOf source node.head = .ok name.text := by
  obtain ⟨child, hchild, h⟩ := exists_ok_of_bind h
  obtain ⟨text, htext, h⟩ := exists_ok_of_bind h
  cases h
  exact ⟨child, childIn_ok hchild, htext⟩

theorem bindingOf_ok {b : Binding} (h : bindingOf source n = .ok b) :
    nameIn source n "ident" = .ok b.name := by
  obtain ⟨name, hname, h⟩ := exists_ok_of_bind h
  obtain ⟨typeUse, -, h⟩ := exists_ok_of_bind h
  cases h
  exact hname

theorem headerOf_ok {f : Header} (h : headerOf source n = .ok f) :
    nameIn source n "func_name" = .ok f.name := by
  obtain ⟨name, hname, h⟩ := exists_ok_of_bind h
  cases h
  exact hname

theorem boundName_ok {child : Node} {b : Binding} (hchild : childIn n "typed_ident" = .ok child)
    (h : bindingOf source child = .ok b) :
    ∃ node, n.boundName? = some node ∧ textOf source node.head = .ok b.name.text := by
  obtain ⟨node, hnode, htext⟩ := nameIn_ok (bindingOf_ok h)
  exact ⟨node, by rw [Node.boundName?, childIn_ok hchild, Option.bind_some, hnode], htext⟩

/-- What is read as a statement is bad, or it was read. -/
theorem orBadStmt_cases (r : Except Diagnostic Stmt) :
    (orBadStmt r).Unread ∨ r = .ok (orBadStmt r) := by
  cases r with
  | ok s => exact .inr rfl
  | error d => exact .inl (.inl ⟨d, rfl⟩)

/-- A statement that was read declares the text of the given node. -/
def Stmt.Names (source : ByteArray) (s : Stmt) (node? : Option Node) : Prop :=
  ∃ node name, node? = some node ∧ textOf source node.head = .ok name ∧ s.declares = some name

theorem names_declareForm :
    (declareForm source n).Unread ∨ (declareForm source n).Names source n.boundName? := by
  unfold declareForm
  dsimp only
  split
  · rename_i b hb
    obtain ⟨child, hchild, hb⟩ := exists_ok_of_bind hb
    obtain ⟨node, hnode, htext⟩ := boundName_ok hchild hb
    exact .inr ⟨node, _, hnode, htext, rfl⟩
  · exact .inl (.inr ⟨_, _, rfl⟩)
  · exact .inl (.inl ⟨_, rfl⟩)

theorem names_externalForm : (externalForm source n).Unread ∨
    (externalForm source n).Names source (n.namedChildren.head?.bind Node.externalName?) := by
  unfold externalForm
  split
  · exact .inl (.inl ⟨_, rfl⟩)
  · rename_i declaration rest hchildren
    rw [hchildren, List.head?_cons, Option.bind_some]
    split
    · rename_i hkind
      refine (orBadStmt_cases _).imp_right fun h => ?_
      obtain ⟨child, hchild, h⟩ := exists_ok_of_bind h
      obtain ⟨b, hb, h⟩ := exists_ok_of_bind h
      obtain ⟨node, hnode, htext⟩ := boundName_ok hchild hb
      rw [← Except.ok.inj h]
      exact ⟨node, _, by simp only [Node.externalName?, hkind, hnode], htext, rfl⟩
    · rename_i hkind
      refine (orBadStmt_cases _).imp_right fun h => ?_
      obtain ⟨f, hf, h⟩ := exists_ok_of_bind h
      obtain ⟨node, hnode, htext⟩ := nameIn_ok (headerOf_ok hf)
      rw [← Except.ok.inj h]
      exact ⟨node, _, by simp only [Node.externalName?, hkind, hnode], htext, rfl⟩
    · exact .inl (.inl ⟨_, rfl⟩)

theorem declares_ifForm (block : String → Option Block) (alternative : Unit → Option Block) :
    (ifForm source n block alternative).declares = none := by
  unfold ifForm withBlock
  dsimp only
  split
  · split <;> rfl
  · rfl

/-- A statement that was read declares the text of its own name, if it is of a kind that declares
one, and nothing otherwise. -/
theorem declares_stmtForm (block : String → Option Block) (alternative : Unit → Option Block) :
    (stmtForm source n block alternative).Unread ∨
      if Node.declaringKinds.contains n.kind then
        (stmtForm source n block alternative).Names source n.ownName?
      else (stmtForm source n block alternative).declares = none := by
  unfold stmtForm
  dsimp only
  -- Each kind that declares a name has it in a child of its own; the other kinds come last.
  split
  case h_2 hkind =>
    refine (orBadStmt_cases _).imp_right fun h => ?_
    obtain ⟨name, hname, h⟩ := exists_ok_of_bind h
    obtain ⟨node, hnode, htext⟩ := nameIn_ok hname
    rw [if_pos (by rw [hkind]; decide), ← Except.ok.inj h]
    exact ⟨node, _, by simp only [Node.ownName?, hkind, hnode], htext, rfl⟩
  case h_3 hkind =>
    rw [if_pos (by rw [hkind]; decide)]
    simp only [Node.ownName?, hkind]
    exact names_declareForm
  case h_4 hkind =>
    rw [if_pos (by rw [hkind]; decide)]
    simp only [Node.ownName?, hkind]
    exact names_externalForm
  case h_5 hkind =>
    rw [if_neg (by rw [hkind]; decide)]
    cases block "body" <;> exact .inr rfl
  case h_6 hkind =>
    rw [if_neg (by rw [hkind]; decide)]
    exact .inr (declares_ifForm block alternative)
  case h_8 hkind =>
    refine (orBadStmt_cases _).imp_right fun h => ?_
    obtain ⟨name, hname, h⟩ := exists_ok_of_bind h
    obtain ⟨typeUse, -, h⟩ := exists_ok_of_bind h
    obtain ⟨node, hnode, htext⟩ := nameIn_ok hname
    rw [if_pos (by rw [hkind]; decide), ← Except.ok.inj h]
    exact ⟨node, _, by simp only [Node.ownName?, hkind, hnode], htext, rfl⟩
  case h_9 hkind =>
    refine (orBadStmt_cases _).imp_right fun h => ?_
    obtain ⟨f, hf, h⟩ := exists_ok_of_bind h
    obtain ⟨node, hnode, htext⟩ := nameIn_ok (headerOf_ok hf)
    rw [if_pos (by rw [hkind]; decide), ← Except.ok.inj h]
    exact ⟨node, _, by simp only [Node.ownName?, hkind, hnode], htext, rfl⟩
  case h_1 hkind | h_7 hkind | h_10 hkind =>
    rw [if_neg (by rw [hkind]; decide)]
    exact .inr rfl
  case h_11 => exact .inl (.inl ⟨_, rfl⟩)

theorem declares_stmtOf (source : ByteArray) (tree : Node) :
    (stmtOf source tree).Unread ∨
      if tree.holdsDeclaration then
        (stmtOf source tree).Names source (tree.namedChildren.head?.bind Node.ownName?)
      else (stmtOf source tree).declares = none := by
  obtain ⟨head, children⟩ := tree
  unfold stmtOf
  split
  · rw [stmtInside_eq, Node.holdsDeclaration, Node.namedChildren, Node.children_mk]
    cases (children.filter (·.named)).head? with
    | none => exact .inl (.inl ⟨_, rfl⟩)
    | some n =>
      simp only [Option.map_some, Option.getD_some, Option.any_some, Option.bind_some]
      exact declares_stmtForm _ _
  · exact .inl (.inl ⟨_, rfl⟩)

end
end Surface

/-- What could not be read whole is not bound. -/
theorem Surface.Stmt.Unread.not_bound {s : Stmt} (h : s.Unread) {ctx ctx' : Context}
    {b : Bound.Stmt} (hrun : (Binder.stmt s).run ctx = .ok b ctx') : False := by
  have hleads : Binder.Leads (Binder.stmt s) ctx (fun _ _ => False) fun _ _ => True := by
    rcases h with ⟨d, rfl⟩ | ⟨first, d, rfl⟩
    · exact trivial
    · unfold Binder.stmt
      exact .skip fun _ _ => trivial
  unfold Binder.Leads at hleads
  rw [hrun] at hleads
  exact hleads

open Context (Served)

/-- **A statement touches its own scope only.**  After any calls, and whether the statement in a
further tree is bound or fails, every symbol of before stays as it was, but for at most one further
child of the scope that was current: a symbol made since, under a name that was free there.  A
module, a declaration, an external declaration, a name for a type and a function that are bound add
just their own name, and every other statement adds none. -/
theorem statement_touches_own_scope {ctx : Context} (h : Served ctx) (source : ByteArray)
    (tree : Node) :
    ∃ new, ctx.table.Adds ctx.current new
        (ctx.after (Binder.stmt (Surface.stmtOf source tree))).table ∧
      new.length ≤ 1 ∧
      (∀ entry ∈ new, ∀ s, ctx.table.get? ctx.current = some s → s.child? entry.1 = none) ∧
      ∀ b ctx', (Binder.stmt (Surface.stmtOf source tree)).run ctx = .ok b ctx' →
        if tree.holdsDeclaration then
          ∃ name id, new = [(name, id)] ∧ tree.Declares source name
        else new = [] := by
  have hctx := h.wellFormed
  obtain ⟨c, cs, hcur, hcs, -⟩ := hctx.current
  obtain ⟨s, hs⟩ : ∃ s, s = Surface.stmtOf source tree := ⟨_, rfl⟩
  have hread := Surface.declares_stmtOf source tree
  rw [← hs] at hread ⊢
  -- In any case no more than the name of the statement is added.
  have hadd : ∃ names, Binder.Adding names ctx (ctx.after (Binder.stmt s)) ∧ names.length ≤ 1 ∧
      ∀ b ctx', (Binder.stmt s).run ctx = .ok b ctx' → names = s.declares.toList := by
    have hone : s.declares.toList.length ≤ 1 := by cases s.declares <;> simp
    have hleads := Binder.stmt_adding hctx s
    unfold Binder.Leads at hleads
    unfold Context.after
    cases hrun : (Binder.stmt s).run ctx with
    | ok b c' =>
      rw [hrun] at hleads
      exact ⟨_, hleads, hone, fun _ _ _ => rfl⟩
    | error d c' =>
      rw [hrun] at hleads
      rcases hleads with hadd | hadd
      · exact ⟨_, hadd, by simp, fun _ _ heq => by cases heq⟩
      · exact ⟨_, hadd, hone, fun _ _ heq => by cases heq⟩
  obtain ⟨names, ⟨new, hadds, rfl⟩, hone, hnames⟩ := hadd
  refine ⟨new, hadds, by simpa using hone, fun entry hmem x hx => ?_, fun b ctx' hrun => ?_⟩
  · rw [hcur] at hx
    exact hadds.unbound (Context.wellFormed_after_stmt hctx s).table hcur hx hmem
  · have hown := hnames b ctx' hrun
    rcases hread with hunread | hread
    · exact (hunread.not_bound hrun).elim
    · by_cases hkind : tree.holdsDeclaration
      · rw [if_pos hkind] at hread ⊢
        obtain ⟨node, name, hnode, htext, hdeclares⟩ := hread
        rw [hdeclares, Option.toList_some] at hown
        obtain ⟨⟨name', id⟩, hnew, hname⟩ := List.map_eq_singleton_iff.mp hown
        exact ⟨name', id, hnew, node, hnode, by rw [htext, ← hname]⟩
      · rw [if_neg hkind] at hread ⊢
        rw [hread, Option.toList_none] at hown
        exact List.map_eq_nil_iff.mp hown

/-- A function in a module: whatever its body declares, the module has the function as its one
further child. -/
theorem function_adds_its_name :
    ∃ ctx tree b ctx' id, Served ctx ∧ ctx.scopes = [.unit 1, .unit 0] ∧
      tree = (Grammar.parse "fn f(n: i32) -> i32 do mod a; let n: i32 = 1; end").children.headD
        default ∧
      (Binder.stmt (Surface.stmtOf "fn f(n: i32) -> i32 do mod a; let n: i32 = 1; end".toUTF8
        tree)).run ctx = .ok b ctx' ∧
      ctx'.table.symbols.size = 6 ∧ ctx.table.Adds (.unit 1) [("f", id)] ctx'.table := by
  obtain ⟨ctx, hctx, hserved⟩ : ∃ ctx, ctx = Context.initial.after (Binder.stmt
      (Surface.stmtOf "mod m".toUTF8 ((Grammar.parse "mod m").children.headD default))) ∧
      Served ctx := ⟨_, rfl, .stmt .start _ _⟩
  obtain ⟨source, hsource⟩ : ∃ source, source =
      "fn f(n: i32) -> i32 do mod a; let n: i32 = 1; end".toUTF8 := ⟨_, rfl⟩
  obtain ⟨tree, htree⟩ : ∃ tree, tree =
      (Grammar.parse "fn f(n: i32) -> i32 do mod a; let n: i32 = 1; end").children.headD
        default := ⟨_, rfl⟩
  have hfacts : ctx.scopes = [.unit 1, .unit 0] ∧ tree.holdsDeclaration = true ∧
      (tree.namedChildren.head?.bind Node.ownName?).bind
        (fun node => (Surface.textOf source node.head).toOption) = some "f" ∧
      ((Binder.stmt (Surface.stmtOf source tree)).run' ctx).isSome = true ∧
      (ctx.after (Binder.stmt (Surface.stmtOf source tree))).table.symbols.size = 6 := by
    rw [hctx, hsource, htree]
    decide +kernel
  obtain ⟨hscopes, hkind, hname, hbinds, hsize⟩ := hfacts
  obtain ⟨new, hadds, -, -, hbound⟩ := statement_touches_own_scope hserved source tree
  cases hrun : (Binder.stmt (Surface.stmtOf source tree)).run ctx with
  | ok b ctx' =>
    have hown := hbound b ctx' hrun
    rw [if_pos hkind] at hown
    obtain ⟨name, id, rfl, node, hnode, htext⟩ := hown
    rw [hnode, Option.bind_some, htext] at hname
    cases hname
    have hcur : ctx.current = .unit 1 := by rw [Context.current, hscopes]; rfl
    have hafter : ctx.after (Binder.stmt (Surface.stmtOf source tree)) = ctx' := by
      rw [Context.after, hrun]
    rw [hafter] at hsize hadds
    rw [hcur] at hadds
    exact ⟨ctx, tree, b, ctx', id, hserved, hscopes, htree, hsource ▸ hrun, hsize, hadds⟩
  | error d ctx' =>
    delta EStateM.run' at hbinds
    rw [hrun] at hbinds
    cases hbinds

end BlockC

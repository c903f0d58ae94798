import BlockC.Proofs.CompileOutcome
import BlockC.Proofs.NameTracking

/-! # Binding is lexical scoping

Binding works with a table of symbols that refer to their parents, and with scopes that are opened
and closed; the frames of the open scopes are all that matters for what names mean.  Each step of
binding is followed on the frames alone (`stmt_tracks`): what it binds is what the frames say, and
if it refuses a name, reading the program by frames refuses that name as well.
-/
namespace BlockC

namespace Binder

open BlockC.Bound
open Surface (Undotted)

variable {N : String → Prop} {ctx : Context}

/-! ### Declarations -/

/-- A declaration adds to the innermost frame, unless that has the name. -/
theorem declare_tracks (h : ctx.WellFormed N) (name : Surface.Name) (kind : SymbolKind)
    (typing : Option Typing) :
    Leads (declare name.text kind typing name.pos) ctx
      (fun id c => ctx.frames.declares name.text = false ∧
        c.frames = ctx.frames.add name.text id ∧
        Scoping.declare ctx.frames.names name = .ok c.frames.names)
      (fun d _ => Scoping.declare ctx.frames.names name = .error d) := by
  obtain ⟨c, cs, hcur, hcs, -⟩ := h.current
  have hdeclares := h.declares_eq hcur hcs name.text
  refine leads_declare hcur hcs (fun hnone => ?_) fun id hsome => ?_
  · rw [hnone] at hdeclares
    have hcs' := Table.symbols_extend_of_some hcs (declared name.text kind typing (.unit c))
    have hadd : Context.frames
        ⟨(ctx.table.extend (declared name.text kind typing (.unit c))).replace c
          { cs with children := cs.children ++ [(name.text, .unit ctx.table.symbols.size)] },
          ctx.scopes⟩ = ctx.frames.add name.text (.unit ctx.table.symbols.size) :=
      h.frames_add hcur hcs (((Table.Grows.refl _ _).extend _).publish hcs' _)
        (by rw [Table.symbols_replace hcs', if_pos rfl])
    refine ⟨hdeclares, hadd, ?_⟩
    rw [hadd]
    exact Frames.declare_ok h.frames_ne_nil hdeclares _
  · rw [hsome] at hdeclares
    exact Frames.declare_error hdeclares

theorem binding_tracks (h : ctx.WellFormed N) (kind : SymbolKind) {b : Surface.Binding}
    (hb : b.typeUse.type.Proper) :
    Leads (binding kind b) ctx
      (fun b' c => Binding.AllScoped ctx.frames [b'] ∧
        c.frames = ctx.frames.add b'.name b'.symbol ∧
        Scoping.binding ctx.frames.names b = .ok c.frames.names)
      (fun d _ => Refuses (b.Over Surface.undotted) (Scoping.binding ctx.frames.names b) d) := by
  unfold binding
  refine (typeUse_tracks h hb).then rfl (fun hplain => hplain.2) fun hrest typing hty => ?_
  refine Leads.bind ((declare_tracks h b.name kind (some typing)).mono ?_ ?_)
  · rintro id c ⟨hnew, hframes, hdeclare⟩
    exact ⟨⟨hnew, hty, trivial⟩, hframes, hrest.trans hdeclare⟩
  · intro d c hd _ _
    exact hrest.trans hd

theorem params_tracks (h : ctx.WellFormed Surface.proper.name) {ps : List Surface.Param}
    (hps : ∀ p ∈ ps, p.Over Surface.proper) :
    Leads (params ps) ctx
      (fun r c => Binding.AllScoped ctx.frames r.1 ∧ c.frames = framesAfter ctx.frames r.1 ∧
        Scoping.params ctx.frames.names ps = .ok c.frames.names)
      (fun d _ => Refuses (∀ p ∈ ps, p.Over Surface.undotted)
        (Scoping.params ctx.frames.names ps) d) := by
  induction ps generalizing ctx with
  | nil => exact leads_pure ⟨trivial, rfl, rfl⟩
  | cons p ps ih =>
    have hrest : ∀ p ∈ ps, p.Over Surface.proper := fun q hq => hps q (by simp [hq])
    have hp := hps p (by simp)
    cases p with
    | binding b =>
      unfold params
      refine Leads.bind (((binding_leads (P := Surface.proper.fault) h (by decide) hp.1).and
        (binding_tracks h .param hp.2)).mono ?_ ?_)
      · rintro b' c ⟨⟨hreach, -⟩, ⟨hnew, hty, -⟩, hframes, hread⟩
        refine Leads.bind ((ih hreach.wellFormed hrest).mono ?_ ?_)
        · rintro ⟨bs, variadic⟩ c' ⟨hscoped, hframes', hread'⟩
          rw [hframes] at hscoped hframes'
          refine ⟨⟨hnew, hty, hscoped⟩, hframes', ?_⟩
          rw [Scoping.params, hread]
          exact hread'
        · intro d c' hd hplain hscoping
          rw [Scoping.params, hread]
          exact hd (fun q hq => hplain q (by simp [hq])) hscoping
      · rintro d c ⟨-, hd⟩
        rw [Scoping.params]
        exact hd.bind fun hplain => hplain (.binding b) (by simp)
    | variadic =>
      unfold params
      refine Leads.bind ((ih h hrest).mono ?_ ?_)
      · rintro ⟨bs, variadic⟩ c hc
        exact hc
      · intro d c hd hplain
        exact hd fun q hq => hplain q (by simp [hq])
    | bad d =>
      unfold params
      exact fun _ hscoping => absurd hscoping (not_scoping_of_isNumberParse hp)

/-! ### Functions -/

/-- A function is published in the innermost frame of an earlier context, unless that has its
name. -/
theorem publish_tracks {base : Context} (hbase : base.WellFormed N) (hreach : base.Reaches N ctx)
    {c k : Nat} {s cs : Symbol} {typing : Typing} (name : Surface.Name) (hname : s.name = name.text)
    (hcur : base.current = .unit c) (hcs : base.table.symbols[c]? = some cs)
    (hcs' : ctx.table.symbols[c]? = some cs) (hs : ctx.table.symbols[k]? = some s)
    (hk : base.table.symbols.size ≤ k) :
    Leads (publish (.unit k) (.unit c) typing name.pos) ctx
      (fun _ c' => c'.scopes = ctx.scopes ∧ base.frames.declares name.text = false ∧
        c'.table.frames base.scopes = base.frames.add name.text (.unit k) ∧
        c'.table.symbols[k]? = some { s with typing := some typing } ∧
        Scoping.declare base.frames.names name =
          .ok (base.frames.add name.text (.unit k)).names)
      (fun d _ => Scoping.declare base.frames.names name = .error d) := by
  have hc := Table.lt_size hcs
  have hne : c ≠ k := by omega
  have hgrows := hreach.grows
  rw [hcur] at hgrows
  have hdeclares := hbase.declares_eq hcur hcs name.text
  have hset : (ctx.table.replace k { s with typing := some typing }).symbols[c]? = some cs := by
    rw [Table.symbols_replace hs, if_neg hne, hcs']
  refine leads_publish hs hcs' hne (fun hnone => ?_) fun id hsome => ?_
  · rw [← hname, hnone, hname] at hdeclares
    have hadd : ((ctx.table.replace k { s with typing := some typing }).replace c
        { cs with children := cs.children ++ [(s.name, .unit k)] }).frames base.scopes =
          base.frames.add name.text (.unit k) := by
      rw [← hname]
      exact hbase.frames_add hcur hcs ((hgrows.replace hs hk _).publish hset _)
        (by rw [Table.symbols_replace hset, if_pos rfl])
    refine ⟨rfl, hdeclares, hadd, ?_, Frames.declare_ok hbase.frames_ne_nil hdeclares _⟩
    rw [Table.symbols_replace hset, if_neg (Ne.symm hne), Table.symbols_replace hs, if_pos rfl]
  · rw [← hname, hsome, hname] at hdeclares
    rw [hname]
    exact Frames.declare_error hdeclares

/-- What is known of a function once its parameters are read. -/
structure ParamsRead (ctx : Context) (f : Surface.Header) (ps : List Binding) (c : Context) :
    Prop where
  wellFormed : c.WellFormed Surface.proper.name
  params : Binding.AllScoped ([] :: ctx.frames) ps
  frames : c.frames = framesAfter ([] :: ctx.frames) ps
  read : Scoping.params ([] :: ctx.frames.names) f.params = .ok c.frames.names
  /-- The symbol of the function has the parameters as its children. -/
  symbol : c.table.symbols[ctx.table.symbols.size]? = some ⟨f.name.text, .func, none,
    some ctx.current, ps.map fun b => (b.name, b.symbol), false⟩
  /-- The symbols of before are as they were. -/
  outer : ∀ {i : Nat} {s : Symbol}, ctx.table.symbols[i]? = some s → c.table.symbols[i]? = some s

theorem params_read (h : ctx.WellFormed Surface.proper.name) {f : Surface.Header}
    (hf : f.Over Surface.proper) :
    Leads (params f.params) ⟨(ctx.table.create f.name.text .func ctx.current).2,
        .unit ctx.table.symbols.size :: ctx.scopes⟩
      (fun r c => ParamsRead ctx f r.1 c ∧
        c.scopes = .unit ctx.table.symbols.size :: ctx.scopes ∧
        Context.Reaches Surface.proper.name
          ⟨(ctx.table.create f.name.text .func ctx.current).2,
            .unit ctx.table.symbols.size :: ctx.scopes⟩ c)
      (fun d _ => Refuses (f.Over Surface.undotted) (Scoping.header ctx.frames.names f) d) := by
  obtain ⟨c, cs, hcur, -⟩ := h.current
  have hopen : ctx.Reaches Surface.proper.name ⟨(ctx.table.create f.name.text .func ctx.current).2,
      .unit ctx.table.symbols.size :: ctx.scopes⟩ :=
    Context.reaches_openScope h fun _ => hf.1
  have hinner := frames_openScope h f.name.text .func
  refine ((params_leads hopen.wellFormed f.params hf.2.1).and
    (params_tracks hopen.wellFormed hf.2.1)).mono ?_ ?_
  · rintro ⟨ps, variadic⟩ c₂ ⟨⟨hreach, hscopes, -⟩, hscoped, hframes, hread⟩
    rw [hinner] at hscoped hframes hread
    refine ⟨⟨hreach.wellFormed, hscoped, hframes, hread, ?_, fun {i s} hs => ?_⟩, hscopes, hreach⟩
    · obtain ⟨children, hsymbol⟩ := symbol_after_params hcur hreach
      -- The innermost frame is that of the function.
      rw [framesAfter_cons, List.nil_append, Context.frames, hscopes, Table.frames, List.map_cons,
        Table.published_unit hsymbol] at hframes
      have hchildren : children = ps.map fun b => (b.name, b.symbol) := (List.cons.inj hframes).1
      rw [hsymbol, hcur, hchildren]
    · have hlt := Table.lt_size hs
      refine hreach.grows.symbol (Table.symbols_extend_of_some hs _) fun heq => ?_
      cases heq
      omega
  · rintro d c₂ ⟨-, hd⟩ hplain hscoping
    rw [hinner] at hd
    have hparams : Scoping.params ([] :: ctx.frames.names) f.params = .error d :=
      hd hplain.2.1 hscoping
    rw [Scoping.header, hparams]
    rfl

/-- The type of what a function returns is looked up among its parameters.  If that goes well, all
that is left of reading the header by frames is to declare the function. -/
theorem ParamsRead.returns {f : Surface.Header} {ps : List Binding} {c : Context}
    (hp : ParamsRead ctx f ps c) (hf : f.Over Surface.proper) {β : Type}
    {k : Surface.TypeUse → Typing → Binder β} {Q : β → Context → Prop}
    (hk : ∀ (a : Surface.TypeUse) (typing : Typing), a.type.Denotes c.frames typing →
      Scoping.header ctx.frames.names f = (do
        let outer ← Scoping.declare ctx.frames.names f.name
        return (ps.map (·.name)) :: outer) →
      Leads (k a typing) c Q fun d _ =>
        Refuses (f.Over Surface.undotted) (Scoping.header ctx.frames.names f) d) :
    Leads (do
      let a ← known f.returns
      let typing ← typeUse a
      k a typing) c Q fun d _ =>
        Refuses (f.Over Surface.undotted) (Scoping.header ctx.frames.names f) d := by
  have hreturns := hf.2.2
  cases hret : f.returns with
  | error d =>
    rw [hret] at hreturns
    exact fun _ hscoping => absurd hscoping (not_scoping_of_isNumberParse hreturns)
  | ok a =>
    rw [hret] at hreturns
    have hhead : c.frames.names.head?.getD [] = ps.map (·.name) := by
      rw [hp.frames, framesAfter_cons, Frames.names]
      simp
    have hheader : Scoping.header ctx.frames.names f = (do
        Scoping.typeUse c.frames.names a
        let outer ← Scoping.declare ctx.frames.names f.name
        return (ps.map (·.name)) :: outer) := by
      rw [Scoping.header, hp.read, hret]
      simp only [bind, Except.bind, hhead]
    refine Leads.bind ((typeUse_tracks hp.wellFormed hreturns).then hheader (fun hplain => ?_)
      fun hrest typing hty => hk a typing hty hrest)
    have hplain' := hplain.2.2
    rw [hret] at hplain'
    exact hplain'

/-- A function whose signature is read and that is published in the frame around it. -/
theorem ParamsRead.scoped_header {f : Surface.Header} {ps : List Binding} {c : Context} {t : Table}
    (hp : ParamsRead ctx f ps c) {typing : Typing} {a : Surface.TypeUse} {variadic : Bool}
    (external : Bool) (hty : a.type.Denotes c.frames typing)
    (hnew : ctx.frames.declares f.name.text = false)
    (hsymbol : t.symbols[ctx.table.symbols.size]? = some ⟨f.name.text, .func,
      some (signature ps typing variadic), some ctx.current,
      ps.map fun b => (b.name, b.symbol), external⟩) :
    Header.Scoped t ctx.frames
      ⟨f.name.text, ps, variadic, a.type, .unit ctx.table.symbols.size⟩ := by
  refine ⟨hnew, hp.params, external, typing, ⟨_, _, rfl, hsymbol, rfl, rfl, rfl, rfl⟩, ?_⟩
  rw [← hp.frames]
  exact hty

theorem funcHeader_tracks (h : ctx.WellFormed Surface.proper.name) {f : Surface.Header}
    (hf : f.Over Surface.proper) :
    Leads (funcHeader f) ctx
      (fun b c => b.Scoped c.table ctx.frames ∧ c.frames = b.frames ctx.frames ∧
        Scoping.header ctx.frames.names f = .ok c.frames.names)
      (fun d _ => Refuses (f.Over Surface.undotted) (Scoping.header ctx.frames.names f) d) := by
  obtain ⟨c, cs, hcur, hcs, -⟩ := h.current
  have hopen : ctx.Reaches Surface.proper.name ⟨(ctx.table.create f.name.text .func ctx.current).2,
      .unit ctx.table.symbols.size :: ctx.scopes⟩ :=
    Context.reaches_openScope h fun _ => hf.1
  unfold funcHeader
  refine Leads.bind (leads_get (Leads.bind (leads_openScope ?_)))
  refine Leads.bind ((params_read h hf).mono ?_ fun _ _ hd => hd)
  rintro ⟨ps, variadic⟩ c₂ ⟨hp, hscopes, hreach⟩
  cases variadic with
  | true => exact fun _ hscoping => hscoping.elim
  | false =>
    simp only [Bool.false_eq_true, if_false]
    refine hp.returns hf fun a typing hty hheader => ?_
    rw [hcur]
    refine Leads.bind ((publish_tracks h (hopen.trans hreach) f.name rfl hcur hcs (hp.outer hcs)
      hp.symbol (Nat.le_refl _)).mono ?_ ?_)
    · rintro - c₃ ⟨hscopes', hnew, hframes, hsymbol, hdeclare⟩
      have hframes₃ : c₃.frames = Header.frames ctx.frames
          ⟨f.name.text, ps, false, a.type, .unit ctx.table.symbols.size⟩ := by
        rw [Context.frames, hscopes', hscopes, Table.frames, List.map_cons,
          Table.published_unit hsymbol]
        exact congrArg _ hframes
      refine ⟨hp.scoped_header false hty hnew hsymbol, hframes₃, ?_⟩
      rw [hheader, hdeclare, hframes₃]
      simp [Header.frames, Frames.names]
    · intro d c₃ hd _ _
      rw [hheader, hd]
      rfl

theorem externalFunction_tracks (h : ctx.WellFormed Surface.proper.name) {f : Surface.Header}
    (hf : f.Over Surface.proper) :
    Leads (externalFunction f) ctx
      (fun b c => b.Scoped c.table ctx.frames ∧ c.frames = ctx.frames.add b.name b.symbol ∧
        Scoping.header ctx.frames.names f = .ok (b.params.map (·.name) :: c.frames.names))
      (fun d _ => Refuses (f.Over Surface.undotted) (Scoping.header ctx.frames.names f) d) := by
  obtain ⟨c, cs, hcur, hcs, -⟩ := h.current
  have hopen : ctx.Reaches Surface.proper.name ⟨(ctx.table.create f.name.text .func ctx.current).2,
      .unit ctx.table.symbols.size :: ctx.scopes⟩ :=
    Context.reaches_openScope h fun _ => hf.1
  unfold externalFunction
  refine Leads.bind (leads_get (Leads.bind (leads_openScope ?_)))
  refine Leads.bind ((params_read h hf).mono ?_ fun _ _ hd => hd)
  rintro ⟨ps, variadic⟩ c₂ ⟨hp, hscopes, hreach⟩
  refine hp.returns hf fun a typing hty hheader => ?_
  obtain ⟨hclose, hclosed⟩ := (hopen.trans hreach).close h hreach rfl (Table.size_lt_create ..)
  refine Leads.bind (leads_closeScope ?_)
  rw [hclose, hcur]
  refine Leads.bind ((publish_tracks h hclosed f.name rfl hcur hcs (hp.outer hcs)
    hp.symbol (Nat.le_refl _)).mono ?_ ?_)
  · rintro - c₃ ⟨hscopes', hnew, hframes, hsymbol, hdeclare⟩
    have hframes₃ : c₃.frames = ctx.frames.add f.name.text (.unit ctx.table.symbols.size) := by
      rw [Context.frames, hscopes']
      exact hframes
    have hsame := (Context.frames_marked hsymbol).trans hframes₃
    refine Leads.bind (leads_changeTable ?_)
    rw [Table.markExternal_unit hsymbol]
    refine ⟨hp.scoped_header true hty hnew ?_, hsame, ?_⟩
    · rw [Table.symbols_replace hsymbol, if_pos rfl]
    · rw [hheader, hdeclare, ← hsame]
      rfl
  · intro d c₃ hd _ _
    rw [hheader, hd]
    rfl

/-! ### Statements -/

theorem initialValue_tracks (h : ctx.WellFormed N) {initial : Option Surface.Expr}
    (hi : ∀ e ∈ initial, e.Proper) :
    Leads (initialValue initial) ctx
      (fun r c => ctx = c ∧ (∀ e ∈ r, e.Scoped ctx.frames) ∧
        Scoping.initialValue ctx.frames.names initial = .ok ())
      (fun d _ => Refuses (∀ e ∈ initial, Undotted e.paths)
        (Scoping.initialValue ctx.frames.names initial) d) := by
  cases initial with
  | none => exact leads_pure ⟨rfl, by simp, rfl⟩
  | some e =>
    refine Leads.bind (Leads.mono (expr_tracks h e (hi e rfl)) ?_ ?_)
    · rintro b c ⟨rfl, hb, hread⟩
      exact ⟨rfl, by simpa using hb, hread⟩
    · rintro d c ⟨rfl, hd⟩ hplain hscoping
      exact hd (hplain e rfl) hscoping

theorem mod_tracks (h : ctx.WellFormed Surface.proper.name) {name : Surface.Name}
    (hname : Surface.proper.name name.text) (span : Span) :
    Leads (stmt (.mod name span)) ctx
      (fun b c => b.Scoped c.table ctx.frames ∧ c.frames = b.framesBehind ctx.frames ∧
        Scoping.stmt ctx.frames.names (.mod name span) = .ok c.frames.names)
      (fun d _ => Scoping.stmt ctx.frames.names (.mod name span) = .error d) := by
  unfold stmt
  refine Leads.bind (((declare_leads h name.pos hname (by decide) (by simp)).and
    (declare_tracks h name .mod none)).mono ?_ ?_)
  · rintro id c ⟨⟨rfl, -, -, -, hsymbol⟩, hnew, hframes, hread⟩
    have hpushed : (c.push (.unit ctx.table.symbols.size)).frames =
        [] :: ctx.frames.add name.text (.unit ctx.table.symbols.size) := by
      rw [Context.frames, Context.push, Table.frames, List.map_cons, Table.published_unit hsymbol]
      exact congrArg _ hframes
    refine Leads.bind (leads_modify ⟨hnew, hpushed, ?_⟩)
    rw [Scoping.stmt, hread, hframes, hpushed]
    rfl
  · rintro d c ⟨-, hd⟩
    rw [Scoping.stmt, hd]
    rfl

theorem externalVariable_tracks (h : ctx.WellFormed Surface.proper.name) {b : Surface.Binding}
    (hb : b.Over Surface.proper) (pos : Position) (span : Span) :
    Leads (stmt (.externalVariable b pos span)) ctx
      (fun b' c => b'.Scoped c.table ctx.frames ∧ c.frames = b'.framesBehind ctx.frames ∧
        Scoping.binding ctx.frames.names b = .ok c.frames.names)
      (fun d _ => Refuses (b.Over Surface.undotted) (Scoping.binding ctx.frames.names b) d) := by
  unfold stmt
  refine Leads.bind (((binding_leads (P := Surface.proper.fault) h (by decide) hb.1).and
    (binding_tracks h .var hb.2)).mono ?_ ?_)
  · rintro b' c ⟨⟨-, -, -, -, ⟨-, i, x, hi, hx, -⟩, -⟩, hscoped, hframes, hread⟩
    refine Leads.bind (leads_changeTable ?_)
    rw [hi, Table.markExternal_unit hx]
    have hsame := Context.frames_marked hx
    refine ⟨hscoped, hsame.trans hframes, ?_⟩
    rw [hsame]
    exact hread
  · rintro d c ⟨-, hd⟩
    exact hd

theorem typeAlias_tracks (h : ctx.WellFormed Surface.proper.name) {name : Surface.Name}
    {a : Surface.TypeUse} (hname : Surface.proper.name name.text) (ha : a.type.Proper)
    (span : Span) :
    Leads (stmt (.typeAlias name a span)) ctx
      (fun b c => b.Scoped c.table ctx.frames ∧ c.frames = b.framesBehind ctx.frames ∧
        Scoping.stmt ctx.frames.names (.typeAlias name a span) = .ok c.frames.names)
      (fun d _ => Refuses (Undotted a.type.paths)
        (Scoping.stmt ctx.frames.names (.typeAlias name a span)) d) := by
  unfold stmt
  refine Leads.bind (((typeUse_leads (P := Surface.proper.fault) h a).and
    (typeUse_tracks h ha)).mono ?_ ?_)
  · rintro typing c ⟨⟨rfl, hwithin⟩, -, hty, hread⟩
    refine Leads.bind (((declare_leads h name.pos hname (by decide) ?_).and
      (declare_tracks h name .typeName (some typing))).mono ?_ ?_)
    · intro ty heq
      cases heq
      exact hwithin
    · rintro id c ⟨⟨rfl, -, -, -, hsymbol⟩, hnew, hframes, hdeclare⟩
      refine ⟨⟨hnew, typing, ⟨_, _, rfl, hsymbol, rfl, rfl, rfl, rfl⟩, hty⟩, hframes, ?_⟩
      rw [Scoping.stmt, hread]
      exact hdeclare
    · rintro d c ⟨-, hd⟩ _ _
      rw [Scoping.stmt, hread]
      exact hd
  · rintro d c ⟨-, rfl, hd⟩
    rw [Scoping.stmt]
    exact hd.bind fun hplain => hplain

mutual

/-- **Binding a statement follows the frames**: its names mean what the frames say, and a name that
is refused is refused by reading the statement by frames. -/
theorem stmt_tracks {ctx : Context} (h : ctx.WellFormed Surface.proper.name) :
    (s : Surface.Stmt) → s.Proper →
    Leads (stmt s) ctx
      (fun b c => b.Scoped c.table ctx.frames ∧ c.frames = b.framesBehind ctx.frames ∧
        Scoping.stmt ctx.frames.names s = .ok c.frames.names)
      (fun d _ => Refuses (s.Over Surface.undotted) (Scoping.stmt ctx.frames.names s) d)
  | .empty span, _ => by
    unfold stmt
    exact leads_pure ⟨trivial, rfl, rfl⟩
  | .mod name span, hs => by
    refine (mod_tracks h hs span).mono (fun _ _ hb => hb) ?_
    intro d c hd _ _
    exact hd
  | .declare b initial span, hs => by
    unfold stmt
    refine Leads.bind ((initialValue_tracks h hs.2).mono ?_ ?_)
    · rintro r c ⟨rfl, hr, hread⟩
      have hrest : Scoping.stmt ctx.frames.names (.declare b initial span) =
          Scoping.binding ctx.frames.names b := by
        rw [Scoping.stmt, hread]
        rfl
      refine Leads.bind ((binding_tracks h .var hs.1.2).mono ?_ ?_)
      · rintro b' c ⟨hb, hframes, hbinding⟩
        exact ⟨⟨hr, hb⟩, hframes, hrest.trans hbinding⟩
      · intro d c hd hplain hscoping
        exact hrest.trans (hd hplain.1 hscoping)
    · intro d c hd
      rw [Scoping.stmt]
      exact hd.bind fun hplain => hplain.2
  | .externalVariable _ pos span, hs => externalVariable_tracks h hs pos span
  | .externalFunction f declared span, hs => by
    unfold stmt
    refine Leads.bind ((externalFunction_tracks h hs).mono ?_ ?_)
    · rintro b c ⟨hb, hframes, hread⟩
      refine ⟨hb, hframes, ?_⟩
      rw [Scoping.stmt, hread]
      rfl
    · intro d c hd
      rw [Scoping.stmt]
      exact hd.bind fun hplain => hplain
  | .whileLoop test body span, hs | .ifThen test body span, hs => by
    unfold stmt
    refine (expr_tracks h test hs.1).then rfl (fun hplain => hplain.1) fun hrest x hx => ?_
    refine Leads.bind ((block_tracks h body hs.2).mono ?_ ?_)
    · rintro b c ⟨hb, hframes, hblock⟩
      refine ⟨⟨hx, hb⟩, hframes, ?_⟩
      rw [hrest, hblock, hframes]
      rfl
    · intro d c hd
      rw [hrest]
      exact hd.bind fun hplain => hplain.2
  | .ifElse test yes no span, hs => by
    unfold stmt
    refine (expr_tracks h test hs.1).then rfl (fun hplain => hplain.1) fun hrest x hx => ?_
    refine Leads.bind (((block_leads Surface.proper_faults h yes hs.2.1).and
      (block_tracks h yes hs.2.1)).mono ?_ ?_)
    · rintro y c ⟨hy, hscoped, hframes, hblock⟩
      have hlast : Scoping.stmt ctx.frames.names (.ifElse test yes no span) =
          (do Scoping.block ctx.frames.names no; return ctx.frames.names) := by
        rw [hrest, hblock]
        rfl
      refine Leads.bind (((block_leads Surface.proper_faults hy.reaches.wellFormed no hs.2.2).and
        (block_tracks hy.reaches.wellFormed no hs.2.2)).mono ?_ ?_)
      · rintro z c' ⟨hz, hscoped', hframes', hblock'⟩
        rw [hframes] at hscoped' hframes' hblock'
        refine ⟨⟨hx, hscoped.mono hz.reaches.grows, hscoped'⟩, hframes', ?_⟩
        rw [hlast, hblock', hframes']
        rfl
      · rintro d c' ⟨-, hd⟩
        rw [hframes] at hd
        rw [hlast]
        exact hd.bind fun hplain => hplain.2.2
    · rintro d c ⟨-, hd⟩
      rw [hrest]
      exact hd.bind fun hplain => hplain.2.1
  | .returned value span, hs | .expr value span, hs => by
    unfold stmt
    refine (expr_tracks h value hs).then rfl (fun hplain => hplain) fun hrest x hx => ?_
    exact leads_pure ⟨hx, rfl, hrest⟩
  | .typeAlias _ _ span, hs => by
    refine (typeAlias_tracks h hs.1 hs.2 span).mono (fun _ _ hb => hb) ?_
    intro d c hd hplain
    exact hd hplain.2
  | .func f (.mk body bodySpan) span, hs => by
    unfold stmt
    refine Leads.bind (((funcHeader_leads h hs.1).and (funcHeader_tracks h hs.1)).mono ?_ ?_)
    · rintro b c ⟨⟨hreach, hscopes, hsymbol, hb, -⟩, hscoped, hframes, hread⟩
      have hrest : Scoping.stmt ctx.frames.names (.func f (.mk body bodySpan) span) =
          (do let _ ← Scoping.stmts c.frames.names body; return c.frames.names.tail) := by
        rw [Scoping.stmt, hread]
        rfl
      refine Leads.bind (((stmts_leads Surface.proper_faults hreach.wellFormed body hs.2).and
        (stmts_tracks hreach.wellFormed body hs.2)).mono ?_ ?_)
      · rintro bs c' ⟨hbs, hall, hstmts⟩
        have hclose := ((hreach.trans hbs.reaches).close h hbs.reaches hscopes
          (lt_size_of_known hb hsymbol)).1
        obtain ⟨hbehind, hnames⟩ := frames_body_closed h hreach hscopes hframes hbs.reaches
        refine Leads.bind (leads_closeScope ?_)
        rw [hsymbol, hclose]
        refine ⟨⟨hscoped.mono hbs.reaches.grows, hframes ▸ hall⟩, hbehind, ?_⟩
        rw [hrest, hstmts]
        exact congrArg Except.ok hnames
      · rintro d c' ⟨-, hd⟩
        rw [hrest]
        exact hd.bind fun hplain => hplain.2
    · rintro d c ⟨-, hd⟩
      rw [Scoping.stmt]
      exact hd.bind fun hplain => hplain.1
  | .bad d, hs => by
    unfold stmt
    exact fun _ hscoping => absurd hscoping (not_scoping_of_isNumberParse hs)
  | .stuck first d, hs => by
    unfold stmt
    refine (expr_tracks h first hs.1).then rfl (fun hplain => hplain.1) fun _ _ _ => ?_
    exact leads_throw fun _ hscoping => absurd hscoping (not_scoping_of_isNumberParse hs.2)

theorem block_tracks {ctx : Context} (h : ctx.WellFormed Surface.proper.name) :
    (b : Surface.Block) → b.Over Surface.proper →
    Leads (block b) ctx
      (fun b' c => b'.Scoped c.table ctx.frames ∧ c.frames = ctx.frames ∧
        Scoping.block ctx.frames.names b = .ok ())
      (fun d _ => Refuses (b.Over Surface.undotted) (Scoping.block ctx.frames.names b) d)
  | .mk body span, hb => by
    unfold block
    have hopen : ctx.Reaches Surface.proper.name
        ⟨(ctx.table.create blockName .block ctx.current).2,
          .unit ctx.table.symbols.size :: ctx.scopes⟩ :=
      Context.reaches_openScope h fun hne => absurd rfl hne.2
    have hinner := frames_openScope h blockName .block
    refine Leads.bind (leads_openScope ?_)
    refine Leads.bind (((stmts_leads Surface.proper_faults hopen.wellFormed body hb).and
      (stmts_tracks hopen.wellFormed body hb)).mono ?_ ?_)
    · rintro bs c ⟨hbs, hall, hstmts⟩
      rw [hinner] at hall hstmts
      refine Leads.bind (leads_closeScope ?_)
      rw [((hopen.trans hbs.reaches).close h hbs.reaches rfl (Table.size_lt_create ..)).1]
      refine ⟨hall, frames_closed (c := c) h hbs.reaches, ?_⟩
      exact congrArg (· >>= fun _ => .ok ()) hstmts
    · rintro d c ⟨-, hd⟩
      rw [hinner] at hd
      exact hd.bind fun hplain => hplain

theorem stmts_tracks {ctx : Context} (h : ctx.WellFormed Surface.proper.name) :
    (ss : List Surface.Stmt) → Surface.Stmt.AllProper ss →
    Leads (stmts ss) ctx
      (fun bs c => Stmt.AllScoped c.table ctx.frames bs ∧
        Scoping.stmts ctx.frames.names ss = .ok c.frames.names)
      (fun d _ => Refuses (Surface.Stmt.AllOver Surface.undotted ss)
        (Scoping.stmts ctx.frames.names ss) d)
  | [], _ => by
    unfold stmts
    exact leads_pure ⟨trivial, rfl⟩
  | s :: rest, hs => by
    unfold stmts
    refine Leads.bind (((stmt_leads Surface.proper_faults h s hs.1).and
      (stmt_tracks h s hs.1)).mono ?_ ?_)
    · rintro b c ⟨hb, hscoped, hframes, hread⟩
      refine Leads.bind (((stmts_leads Surface.proper_faults hb.reaches.wellFormed rest hs.2).and
        (stmts_tracks hb.reaches.wellFormed rest hs.2)).mono ?_ ?_)
      · rintro bs c' ⟨hbs, hall, hrest⟩
        refine ⟨⟨hscoped.mono hbs.reaches.grows, hframes ▸ hall⟩, ?_⟩
        rw [Scoping.stmts, hread]
        exact hrest
      · rintro d c' ⟨-, hd⟩ hplain hscoping
        rw [Scoping.stmts, hread]
        exact hd hplain.2 hscoping
    · rintro d c ⟨-, hd⟩
      rw [Scoping.stmts]
      exact hd.bind fun hplain => hplain.1

end

end Binder

/-- What binding a text in order comes to, by frames alone. -/
theorem bindTree_tracks {source : String}
    (h : (Grammar.parse source).check source.toUTF8 = .ok ()) :
    match bindTree (Grammar.parse source) source.toUTF8 with
    | .ok u => Bound.Stmt.AllScoped u.table [[]] u.sourceFile.stmts ∧
        ∃ names, Scoping.stmts [[]]
          (Surface.stmtsOf source.toUTF8 (Grammar.parse source).children) = .ok names
    | .error d => Surface.Stmt.AllOver Surface.undotted
          (Surface.stmtsOf source.toUTF8 (Grammar.parse source).children) → d.cause.IsScoping →
        Scoping.stmts [[]] (Surface.stmtsOf source.toUTF8 (Grammar.parse source).children) =
          .error d := by
  obtain ⟨hkind, hproper⟩ := Grammar.stmtsOf_allProper_of_check h
  have htracks := Binder.stmts_tracks Context.wellFormed_initial _ hproper
  rw [show Context.initial.frames = [[]] from rfl] at htracks
  unfold Binder.Leads at htracks
  unfold bindTree
  simp only [hkind]
  cases hrun : (Binder.stmts (Surface.stmtsOf source.toUTF8 (Grammar.parse source).children)).run
      .initial with
  | ok stmts ctx =>
    rw [hrun] at htracks
    obtain ⟨hscoped, hread⟩ := htracks
    exact ⟨hscoped, _, hread⟩
  | error d ctx =>
    rw [hrun] at htracks
    exact htracks

/-- **Binding is lexical scoping.**  Of a text in order that is bound, every name of a single
segment and every such name of a type is bound to what the innermost frame that has it says at that
place, and to a built-in type only if no frame has it; and reading the text by frames finds no
fault.  If the text has no dotted names and binding refuses a name, reading by frames refuses the
same name at the same place; and if reading by frames refuses a name, binding refuses it too, unless
something else is wrong before. -/
theorem binding_is_lexical {source : String}
    (h : (Grammar.parse source).check source.toUTF8 = .ok ()) :
    (∀ u, bindTree (Grammar.parse source) source.toUTF8 = .ok u →
      Bound.Stmt.AllScoped u.table [[]] u.sourceFile.stmts ∧
      ∃ names, Scoping.stmts [[]]
        (Surface.stmtsOf source.toUTF8 (Grammar.parse source).children) = .ok names) ∧
    (Surface.Stmt.AllOver Surface.undotted
        (Surface.stmtsOf source.toUTF8 (Grammar.parse source).children) → ∀ d,
      (bindTree (Grammar.parse source) source.toUTF8 = .error d → d.cause.IsScoping →
        Scoping.stmts [[]] (Surface.stmtsOf source.toUTF8 (Grammar.parse source).children) =
          .error d) ∧
      (Scoping.stmts [[]] (Surface.stmtsOf source.toUTF8 (Grammar.parse source).children) =
        .error d → ∃ d', bindTree (Grammar.parse source) source.toUTF8 = .error d' ∧
          (d' = d ∨ ¬d'.cause.IsScoping))) := by
  have htracks := bindTree_tracks h
  cases hbind : bindTree (Grammar.parse source) source.toUTF8 with
  | ok u =>
    rw [hbind] at htracks
    obtain ⟨hscoped, names, hread⟩ := htracks
    refine ⟨fun u' hu => ?_, fun _ d => ⟨fun hd => (by cases hd), fun hd => ?_⟩⟩
    · cases hu
      exact ⟨hscoped, names, hread⟩
    · rw [hread] at hd
      cases hd
  | error d =>
    rw [hbind] at htracks
    refine ⟨fun u hu => (by cases hu), fun hplain d' => ⟨fun hd hscoping => ?_, fun hd => ?_⟩⟩
    · cases hd
      exact htracks hplain hscoping
    · refine ⟨d, rfl, ?_⟩
      by_cases hscoping : d.cause.IsScoping
      · left
        exact Except.error.inj ((htracks hplain hscoping).symm.trans hd)
      · exact .inr hscoping

/-- A name that is declared again in the function, in a block of it and in its own initial value.
All its uses are in the function and before the declaration in the block, so they mean the
parameter. -/
theorem shadowed_names_are_lexical :
    ∃ u, analyze "let x: i32 = 1; fn f(x: bool) -> i32 do while x do let x: i32 = f(x); end
        return f(x); end" = .ok u ∧ u.sourceFile.stmts.length = 3 ∧
      ((Bound.Stmt.allExprs u.sourceFile.stmts).flatMap Bound.Expr.idents).map
          (fun id => (id.path, id.symbol)) =
        [(["x"], .unit 3), (["f"], .unit 2), (["x"], .unit 3), (["f"], .unit 2),
          (["x"], .unit 3)] ∧
      Bound.Stmt.AllScoped u.table [[]] u.sourceFile.stmts := by
  have hfacts : (analyze "let x: i32 = 1; fn f(x: bool) -> i32 do while x do let x: i32 = f(x); end
        return f(x); end").toOption.map (fun u => (u.sourceFile.stmts.length,
          ((Bound.Stmt.allExprs u.sourceFile.stmts).flatMap Bound.Expr.idents).map
            fun id => (id.path, id.symbol))) =
      some (3, [(["x"], .unit 3), (["f"], .unit 2), (["x"], .unit 3), (["f"], .unit 2),
        (["x"], .unit 3)]) := by
    decide +kernel
  obtain ⟨u, hu, hvalues⟩ := exists_ok_of_map hfacts
  obtain ⟨hlength, huses⟩ := Prod.mk.inj hvalues
  obtain ⟨hcheck, hbind⟩ := analyze_eq_ok hu
  exact ⟨u, hu, hlength, huses, ((binding_is_lexical hcheck).1 u hbind).1⟩

end BlockC

import BlockC.Proofs.BinderInvariant
import BlockC.Proofs.ContextFrames

/-! # Names are bound by frames

Binding the names of an expression or a type changes nothing, so it can be followed on the frames of
the context as they stand (`Tracks`, `Finds`): the names are bound to what the frames say, and if a
name without dots is refused, reading by frames refuses it as well (`expr_tracks`,
`typeUse_tracks`).
-/
namespace BlockC

/-! ### Names of a single segment -/

namespace Text

theorem cutAtDots_of_not_mem {cs : List Char} (h : '.' ∉ cs) : cutAtDots cs = [cs] := by
  induction cs with
  | nil => rfl
  | cons c cs ih =>
    have hc : c ≠ '.' := fun heq => h (by simp [heq])
    rw [cutAtDots, if_neg hc, ih fun hmem => h (by simp [hmem])]

end Text

theorem Lexical.IsName.dot_not_mem {name : String} (h : Lexical.IsName name) :
    '.' ∉ name.toList := by
  obtain ⟨c, cs, hname, hc, hcs⟩ := h.1
  rw [hname]
  intro hmem
  rcases List.mem_cons.mp hmem with rfl | hmem
  · exact absurd hc (by decide)
  · exact absurd (hcs _ hmem) (by decide)

theorem Lexical.IsName.segments {name : String} (h : Lexical.IsName name) :
    Text.segments name = [name] := by
  rw [Text.segments, Text.cutAtDots_of_not_mem h.dot_not_mem]
  simp

namespace Surface

mutual

/-- The names in an expression, in order, segment by segment. -/
def Expr.paths : Expr → List (List String)
  | .ident id => [id.path]
  | .binary left _ right _ => left.paths ++ right.paths
  | .unary _ argument _ => argument.paths
  | .condition test yes no _ => test.paths ++ (yes.paths ++ no.paths)
  | .call callee args _ => callee.path :: Expr.allPaths args
  | .assignment left _ right _ => left.paths ++ right.paths
  | .parenthesized inner _ => inner.paths
  | .number _ _ | .string _ _ | .boolean _ _ | .null _ | .bad _ => []
  | .stuck first _ => first.paths

/-- The names in expressions, in order. -/
def Expr.allPaths : List Expr → List (List String)
  | [] => []
  | e :: rest => e.paths ++ Expr.allPaths rest

end

/-- No name is dotted. -/
def Undotted (paths : List (List String)) : Prop :=
  ∀ path ∈ paths, path.length = 1

theorem Undotted.append {paths paths' : List (List String)} :
    Undotted (paths ++ paths') ↔ Undotted paths ∧ Undotted paths' :=
  List.forall_mem_append

/-- Programs without dotted names. -/
def undotted : Standard where
  name _ := True
  type type := Undotted type.paths
  expr e := Undotted e.paths
  fault _ := True

end Surface

namespace Binder

open BlockC.Bound
open Surface (Undotted)

variable {N : String → Prop} {ctx : Context}

/-- If there are no dotted names, a fault of scoping is the one that reading by frames finds. -/
def Refuses {α : Type} (plain : Prop) (read : Except Diagnostic α) (d : Diagnostic) : Prop :=
  plain → d.cause.IsScoping → read = .error d

/-- A fault that reading finds stays the fault of whatever reading goes on with. -/
theorem Refuses.bind {α β : Type} {plain plain' : Prop} {read : Except Diagnostic α}
    {k : α → Except Diagnostic β} {d : Diagnostic} (h : Refuses plain read d)
    (hplain : plain' → plain) : Refuses plain' (read >>= k) d := by
  intro hp hscoping
  rw [h (hplain hp) hscoping]
  rfl

theorem not_scoping_of_isNumberParse {d : Diagnostic} (h : d.IsNumberParse) :
    ¬d.cause.IsScoping := by
  obtain ⟨literal, hcause⟩ := h
  rw [hcause]
  exact fun hscoping => hscoping

/-! ### Expressions -/

theorem resolve_meets (h : ctx.WellFormed N) {path : List String} (hpath : IsPath path)
    (pos : Position) :
    Meets (fun symbol => ctx.frames.Means path symbol ∧
        Scoping.look ctx.frames.names path pos = .ok ())
      (fun cause => Refuses (Undotted [path]) (Scoping.look ctx.frames.names path pos) ⟨cause, pos⟩)
      (ctx.table.resolveFullName ctx.current (Text.joined "." path)) := by
  obtain ⟨c, cs, hcur, hcs, rest, hscopes⟩ := h.current
  match path, hpath with
  | [], hpath => exact absurd rfl hpath.1
  | first :: second :: more, _ =>
    -- Nothing is said of dotted names.
    cases ctx.table.resolveFullName ctx.current (Text.joined "." (first :: second :: more)) with
    | ok symbol => exact ⟨fun name heq => (by cases heq), rfl⟩
    | error cause =>
      intro hplain
      have hlength := hplain _ (List.mem_singleton.mpr rfl)
      simp at hlength
  | [name], hpath =>
    have hsegments := (hpath.2 name (by simp)).segments
    have hresolve : ctx.table.resolveFullName ctx.current (Text.joined "." [name]) =
        (ctx.frames.resolve name).elim (.error (.unresolvedSymbol name)) .ok := by
      have hnested := h.nested
      have hframes : ctx.frames = ctx.table.frames (.unit c :: rest) := by
        rw [Context.frames, hscopes]
      rw [hscopes] at hnested
      rw [hframes, hcur, ← Table.resolveName_eq_resolve h.table.toRooted hnested]
      simp only [Table.resolveFullName, Text.joined, hsegments]
    rw [hresolve, Frames.look_eq]
    cases hfound : ctx.frames.resolve name with
    | some symbol =>
      refine ⟨fun name' heq => ?_, rfl⟩
      cases heq
      exact hfound
    | none =>
      intro _ _
      rfl

/-- A step that leaves the context as it is, binds what has a property, and is refused a name just
if reading by frames is. -/
def Tracks {α : Type} (m : Binder α) (ctx : Context) (paths : List (List String))
    (read : Except Diagnostic Unit) (Q : α → Prop) : Prop :=
  Leads m ctx (fun a c => ctx = c ∧ Q a ∧ read = .ok ()) fun d c =>
    ctx = c ∧ Refuses (Undotted paths) read d

section
variable {α β : Type} {m : Binder α} {paths paths' : List (List String)}
variable {read read' : Except Diagnostic Unit} {Q : α → Prop} {R : β → Prop}

theorem tracks_pure {a : α} (h : Q a) : Tracks (pure a) ctx [] (.ok ()) Q :=
  leads_pure ⟨rfl, h, rfl⟩

theorem Tracks.bind {f : α → Binder β} (h : Tracks m ctx paths read Q)
    (hf : ∀ a, Q a → Tracks (f a) ctx paths' read' R) :
    Tracks (m >>= f) ctx (paths ++ paths') (do read; read') R := by
  refine Leads.bind (Leads.mono h ?_ ?_)
  · rintro a c ⟨rfl, ha, hread⟩
    rw [hread]
    refine Leads.mono (hf a ha) (fun _ _ hb => hb) ?_
    rintro d c ⟨rfl, hd⟩
    exact ⟨rfl, fun hplain => hd (Undotted.append.mp hplain).2⟩
  · rintro d c ⟨rfl, hd⟩
    exact ⟨rfl, hd.bind fun hplain => (Undotted.append.mp hplain).1⟩

/-- What follows a step that leaves the context as it is, while reading by frames goes on with the
rest. -/
theorem Tracks.then {γ : Type} {f : α → Binder β} {whole rest : Except Diagnostic γ} {plain : Prop}
    {Q' : β → Context → Prop} (h : Tracks m ctx paths read Q) (hwhole : whole = (do read; rest))
    (hplain : plain → Undotted paths)
    (hf : whole = rest → ∀ a, Q a → Leads (f a) ctx Q' fun d _ => Refuses plain whole d) :
    Leads (m >>= f) ctx Q' fun d _ => Refuses plain whole d := by
  refine Leads.bind (Leads.mono h ?_ ?_)
  · rintro a c ⟨rfl, ha, hread⟩
    refine hf ?_ a ha
    rw [hwhole, hread]
    rfl
  · rintro d c ⟨rfl, hd⟩
    rw [hwhole]
    exact hd.bind hplain

theorem Tracks.map {f : α → β} (h : Tracks m ctx paths read Q) (hf : ∀ a, Q a → R (f a)) :
    Tracks (do return f (← m)) ctx paths read R := by
  refine Leads.bind (Leads.mono h ?_ fun _ _ hd => hd)
  rintro a c ⟨rfl, ha, hread⟩
  exact ⟨rfl, hf a ha, hread⟩

end

theorem ident_tracks (h : ctx.WellFormed N) {id : Surface.Ident} (hpath : IsPath id.path) :
    Tracks (ident id) ctx [id.path] (Scoping.look ctx.frames.names id.path id.span.start)
      fun b => ctx.frames.Means b.path b.symbol := by
  unfold ident
  refine Leads.bind (leads_get (Leads.bind (leads_located ?_)))
  refine (resolve_meets h hpath id.span.start).mono ?_ ?_
  · rintro symbol ⟨hmeans, hlook⟩
    exact ⟨rfl, hmeans, hlook⟩
  · intro cause hcause
    exact ⟨rfl, hcause⟩

theorem callee_tracks (h : ctx.WellFormed N) {id : Surface.Ident} (hpath : IsPath id.path) :
    Tracks (callee id) ctx [id.path] (Scoping.look ctx.frames.names id.path id.span.start)
      fun b => ctx.frames.Means b.path b.symbol := by
  unfold callee
  refine Leads.bind (((ident_leads (P := fun _ => True) h id).and
    (ident_tracks h hpath)).mono ?_ ?_)
  · rintro b c ⟨⟨rfl, hb, -⟩, -, hmeans, hlook⟩
    obtain ⟨callable, hcallable⟩ := Table.isCallable_ok h.table hb
    refine Leads.bind (leads_get (Leads.bind (leads_located ?_)))
    rw [hcallable]
    cases callable with
    | true => exact ⟨rfl, hmeans, hlook⟩
    | false => exact ⟨rfl, fun _ hscoping => hscoping.elim⟩
  · rintro d c ⟨-, hd⟩
    exact hd

mutual

/-- The names of an expression are bound to what the frames say. -/
theorem expr_tracks (h : ctx.WellFormed N) : (e : Surface.Expr) → e.Proper →
    Tracks (expr e) ctx e.paths (Scoping.expr ctx.frames.names e) (·.Scoped ctx.frames)
  | .ident id, hp => by
    unfold expr
    exact (ident_tracks h hp).map fun b hb => by simpa [Expr.Scoped, Expr.idents] using hb
  | .binary left op right span, hp => by
    unfold expr
    exact (expr_tracks h left hp.1).bind fun l hl => (expr_tracks h right hp.2).map fun r hr =>
      List.forall_mem_append.mpr ⟨hl, hr⟩
  | .unary op argument span, hp => by
    unfold expr
    exact (expr_tracks h argument hp).map fun a ha => ha
  | .condition test yes no span, hp => by
    unfold expr
    exact (expr_tracks h test hp.1).bind fun x hx => (expr_tracks h yes hp.2.1).bind fun y hy =>
      (expr_tracks h no hp.2.2).map fun z hz =>
        List.forall_mem_append.mpr ⟨hx, List.forall_mem_append.mpr ⟨hy, hz⟩⟩
  | .call id args span, hp => by
    unfold expr
    exact (callee_tracks h hp.1).bind fun b hb => (exprs_tracks h args hp.2).map fun bs hbs =>
      List.forall_mem_cons.mpr ⟨hb, hbs⟩
  | .assignment left op right span, hp => by
    unfold expr
    exact (expr_tracks h left hp.1).bind fun l hl => (expr_tracks h right hp.2.2).map fun r hr =>
      List.forall_mem_append.mpr ⟨hl, hr⟩
  | .parenthesized inner span, hp => by
    unfold expr
    exact (expr_tracks h inner hp).map fun a ha => ha
  | .number _ _, _ | .string _ _, _ | .boolean _ _, _ | .null _, _ => by
    unfold expr
    exact tracks_pure (by simp [Expr.Scoped, Expr.idents])
  | .bad d, hp => by
    unfold expr
    exact ⟨rfl, fun _ hscoping => absurd hscoping (not_scoping_of_isNumberParse hp)⟩

theorem exprs_tracks (h : ctx.WellFormed N) : (es : List Surface.Expr) →
    Surface.Expr.AllProper es →
    Tracks (exprs es) ctx (Surface.Expr.allPaths es) (Scoping.exprs ctx.frames.names es)
      fun bs => ∀ id ∈ Expr.allIdents bs, ctx.frames.Means id.path id.symbol
  | [], _ => by
    unfold exprs
    exact tracks_pure (by simp [Expr.allIdents])
  | e :: rest, hp => by
    unfold exprs
    exact (expr_tracks h e hp.1).bind fun b hb => (exprs_tracks h rest hp.2).map fun bs hbs =>
      List.forall_mem_append.mpr ⟨hb, hbs⟩

end

/-! ### Types -/

/-- A computation that finds what has a property, and is refused a name just if reading by frames
is. -/
def Finds {α : Type} (r : Except Cause α) (pos : Position) (paths : List (List String))
    (read : Except Diagnostic Unit) (Q : α → Prop) : Prop :=
  Meets (fun a => Q a ∧ read = .ok ()) (fun cause => Refuses (Undotted paths) read ⟨cause, pos⟩) r

section
variable {α β : Type} {r : Except Cause α} {pos : Position} {paths paths' : List (List String)}
variable {read read' : Except Diagnostic Unit} {Q : α → Prop} {R : β → Prop}

theorem Finds.bind {f : α → Except Cause β} (h : Finds r pos paths read Q)
    (hf : ∀ a, Q a → Finds (f a) pos paths' read' R) :
    Finds (r >>= f) pos (paths ++ paths') (do read; read') R := by
  cases r with
  | ok a =>
    obtain ⟨ha, hread⟩ := h
    rw [hread]
    refine Meets.mono (hf a ha) (fun _ hb => hb) fun cause hcause => ?_
    exact fun hplain => hcause (Undotted.append.mp hplain).2
  | error cause => exact Refuses.bind h fun hplain => (Undotted.append.mp hplain).1

/-- What fails for another reason than scoping may follow. -/
theorem Finds.then {f : α → Except Cause β} (h : Finds r pos paths read Q)
    (hf : ∀ a, Q a → Meets R (fun cause => ¬cause.IsScoping) (f a)) :
    Finds (r >>= f) pos paths read R := by
  cases r with
  | ok a =>
    obtain ⟨ha, hread⟩ := h
    refine Meets.mono (hf a ha) (fun _ hb => ⟨hb, hread⟩) fun cause hcause => ?_
    exact fun _ hscoping => absurd hscoping hcause
  | error cause => exact h

end

theorem typeNamed_finds {path : List String} (h : ctx.WellFormed N) (hpath : IsPath path)
    (pos : Position) :
    Finds (ctx.table.typeNamed ctx.current (Text.joined "." path)) pos [path]
      (Scoping.lookAll ctx.frames.names pos [path])
      fun typing => List.Forall₂ ctx.frames.Means [path] typing.refs := by
  have hlook : Scoping.lookAll ctx.frames.names pos [path] =
      Scoping.look ctx.frames.names path pos := by
    unfold Scoping.lookAll
    cases Scoping.look ctx.frames.names path pos <;> rfl
  have hresolve : Finds (ctx.table.resolveFullName ctx.current (Text.joined "." path)) pos [path]
      (Scoping.look ctx.frames.names path pos) (ctx.frames.Means path) := resolve_meets h hpath pos
  rw [hlook]
  unfold Table.typeNamed
  refine hresolve.then fun symbol hmeans => ?_
  unfold Table.get
  cases ctx.table.get? symbol with
  | none => exact fun hscoping => hscoping
  | some s =>
    simp only [bind, Except.bind]
    split
    · exact .cons hmeans .nil
    · exact fun hscoping => hscoping

theorem Finds.qualified {r : Except Cause Typing} {type : TypeExpr} {pos : Position}
    {paths : List (List String)} {read : Except Diagnostic Unit}
    (h : Finds r pos paths read (type.Denotes ctx.frames)) (q : Qualifier) :
    Finds (do (← r).qualified q) pos paths read (type.Denotes ctx.frames) := by
  refine h.then fun typing hty => ?_
  cases typing with
  | ref symbol qualifiers => exact hty
  | signature params returns variadic => exact fun hscoping => hscoping

mutual

/-- The names of a type are bound to what the frames say. -/
theorem typingOf_finds (h : ctx.WellFormed N) (pos : Position) : (type : TypeExpr) → type.Proper →
    Finds (ctx.table.typingOf ctx.current type) pos type.paths
      (Scoping.lookAll ctx.frames.names pos type.paths) (type.Denotes ctx.frames)
  | .name _ _, hp => typeNamed_finds h hp pos
  | .pointer pointee _, hp => (typingOf_finds h pos pointee hp).qualified .pointer
  | .array size element _, hp => (typingOf_finds h pos element hp).qualified (.array size)
  | .slice element _, hp => (typingOf_finds h pos element hp).qualified .slice
  | .func params returns _, hp => by
    rw [TypeExpr.paths, Scoping.lookAll_append]
    exact (typingsOf_finds h pos params hp.1).bind fun typings htypings =>
      (typingOf_finds h pos returns hp.2).then fun typing hty => List.rel_append htypings hty

theorem typingsOf_finds (h : ctx.WellFormed N) (pos : Position) :
    (types : List TypeExpr) → TypeExpr.AllProper types →
    Finds (ctx.table.typingsOf ctx.current types) pos (TypeExpr.allPaths types)
      (Scoping.lookAll ctx.frames.names pos (TypeExpr.allPaths types))
      fun typings =>
        List.Forall₂ ctx.frames.Means (TypeExpr.allPaths types) (Typing.allRefs typings)
  | [], _ => ⟨.nil, rfl⟩
  | type :: rest, hp => by
    rw [TypeExpr.allPaths, Scoping.lookAll_append]
    exact (typingOf_finds h pos type hp.1).bind fun typing hty =>
      (typingsOf_finds h pos rest hp.2).then fun typings htypings => List.rel_append hty htypings

end

theorem typeUse_tracks (h : ctx.WellFormed N) {a : Surface.TypeUse} (ha : a.type.Proper) :
    Tracks (typeUse a) ctx a.type.paths (Scoping.typeUse ctx.frames.names a)
      (a.type.Denotes ctx.frames) := by
  unfold typeUse
  refine Leads.bind (leads_get (leads_located ?_))
  refine Meets.mono (typingOf_finds h a.pos a.type ha) ?_ ?_
  · intro typing hty
    exact ⟨rfl, hty⟩
  · intro cause hcause
    exact ⟨rfl, hcause⟩

end Binder
end BlockC

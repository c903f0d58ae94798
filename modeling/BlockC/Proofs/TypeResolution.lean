import BlockC.Proofs.BlockIsolation
import BlockC.Proofs.TableWalks

/-! # What types as written mean

A type as written has parts, each of which can be at fault by itself (`Faulty`): a name that means
no type, or a function type under qualifiers.  Looking the type up reports the first part at fault,
each part behind those that it is made of; if no part is, what is found mirrors the type
(`typingOf_settles`).
-/
namespace BlockC
namespace TypeExpr

/-! ### The parts of a type -/

/-- What is laid around the innermost part of a type, the outermost first. -/
def qualifiers : TypeExpr → List Qualifier
  | pointer pointee _ => .pointer :: pointee.qualifiers
  | array size element _ => .array size :: element.qualifiers
  | slice element _ => .slice :: element.qualifiers
  | name _ _ | func _ _ _ => []

/-- What the qualifiers are laid around: a name or a function type. -/
def core : TypeExpr → TypeExpr
  | pointer pointee _ => pointee.core
  | array _ element _ => element.core
  | slice element _ => element.core
  | name path span => name path span
  | func params returns span => func params returns span

mutual

/-- A type and all types in it, each behind those that it is made of, parameters before the
result. -/
def parts : TypeExpr → List TypeExpr
  | name path span => [name path span]
  | pointer pointee span => pointee.parts ++ [pointer pointee span]
  | array size element span => element.parts ++ [array size element span]
  | slice element span => element.parts ++ [slice element span]
  | func params returns span => partsOf params ++ (returns.parts ++ [func params returns span])

/-- Types and all types in them. -/
def partsOf : List TypeExpr → List TypeExpr
  | [] => []
  | type :: rest => type.parts ++ partsOf rest

end

/-- A pointer, array or slice of a function type, possibly through further ones. -/
def WrapsFunction (type : TypeExpr) : Prop :=
  type.qualifiers ≠ [] ∧ ∃ params returns span, type.core = func params returns span

end TypeExpr

namespace Table

/-! ### Parts at fault -/

/-- A name that means a type in a scope. -/
def NamesType (t : Table) (scope : SymbolId) (name : String) : Prop :=
  ∃ id s, t.resolveFullName scope name = .ok id ∧ t.get? id = some s ∧ s.kind = .typeName

/-- All names of a type mean types, and no function type stands under a qualifier. -/
def Resolvable (t : Table) (scope : SymbolId) (type : TypeExpr) : Prop :=
  (∀ path span, .name path span ∈ type.parts → t.NamesType scope (Text.joined "." path)) ∧
    ∀ part ∈ type.parts, ¬ part.WrapsFunction

/-- What is wrong with a part of a type itself. -/
inductive Faulty (t : Table) (scope : SymbolId) : TypeExpr → Cause → Prop
  /-- A name that is not declared. -/
  | unresolved {path : List String} {span : Span}
      (h : ∀ id, t.resolveFullName scope (Text.joined "." path) ≠ .ok id) :
      Faulty t scope (.name path span) (.unresolvedSymbol (Text.joined "." path))
  /-- The name of something else. -/
  | notAType {path : List String} {span : Span} {id : SymbolId} {s : Symbol}
      (h : t.resolveFullName scope (Text.joined "." path) = .ok id) (hs : t.get? id = some s)
      (hk : s.kind ≠ .typeName) :
      Faulty t scope (.name path span) (.notAType (Text.joined "." path))
  /-- A function type under a qualifier. -/
  | misuse {type : TypeExpr} (h : type.WrapsFunction) :
      Faulty t scope type
        (.typingMisuse "a function type cannot be pointed to or stored in an array")

/-- What a type as written means: a type symbol under the qualifiers around its name, or the
signature of what the parts of a function type mean. -/
inductive Mirrors (t : Table) (scope : SymbolId) : TypeExpr → Typing → Prop
  | ref {type : TypeExpr} {path : List String} {span : Span} {id : SymbolId}
      (hcore : type.core = .name path span)
      (h : t.resolveFullName scope (Text.joined "." path) = .ok id) :
      Mirrors t scope type (.ref id type.qualifiers)
  | signature {params : List TypeExpr} {returns : TypeExpr} {span : Span} {typings : List Typing}
      {result : Typing} (hparams : List.Forall₂ (Mirrors t scope) params typings)
      (hreturns : Mirrors t scope returns result) :
      Mirrors t scope (.func params returns span) (.signature typings result false)

/-- No part is at fault. -/
def Sound (t : Table) (scope : SymbolId) (parts : List TypeExpr) : Prop :=
  ∀ part ∈ parts, ∀ cause, ¬ t.Faulty scope part cause

/-- What is wrong with the first part at fault. -/
def FirstFault (t : Table) (scope : SymbolId) (parts : List TypeExpr) (cause : Cause) : Prop :=
  ∃ before part behind, parts = before ++ part :: behind ∧ t.Sound scope before ∧
    t.Faulty scope part cause

section
variable {t : Table} {scope : SymbolId} {s : Symbol}

/-- A part is at fault in one way only. -/
theorem Faulty.unique {part : TypeExpr} {cause cause' : Cause} (h : t.Faulty scope part cause)
    (h' : t.Faulty scope part cause') : cause = cause' := by
  cases h with
  | unresolved hnone =>
    cases h' with
    | unresolved => rfl
    | notAType hfound => exact absurd hfound (hnone _)
    | misuse hwraps => exact absurd rfl hwraps.1
  | notAType hfound =>
    cases h' with
    | unresolved hnone => exact absurd hfound (hnone _)
    | notAType => rfl
    | misuse hwraps => exact absurd rfl hwraps.1
  | misuse hwraps =>
    cases h' with
    | unresolved | notAType => exact absurd rfl hwraps.1
    | misuse => rfl

theorem sound_append {ps qs : List TypeExpr} :
    t.Sound scope (ps ++ qs) ↔ t.Sound scope ps ∧ t.Sound scope qs :=
  List.forall_mem_append

theorem sound_singleton {part : TypeExpr} :
    t.Sound scope [part] ↔ ∀ cause, ¬ t.Faulty scope part cause := by
  simp [Sound]

theorem Faulty.first {part : TypeExpr} {cause : Cause} (h : t.Faulty scope part cause) :
    t.FirstFault scope [part] cause :=
  ⟨[], part, [], rfl, by simp [Sound], h⟩

theorem FirstFault.append {ps : List TypeExpr} {cause : Cause} (h : t.FirstFault scope ps cause)
    (qs : List TypeExpr) : t.FirstFault scope (ps ++ qs) cause := by
  obtain ⟨before, part, behind, rfl, hsound, hfault⟩ := h
  exact ⟨before, part, behind ++ qs, by simp, hsound, hfault⟩

theorem FirstFault.behind {ps qs : List TypeExpr} {cause : Cause} (h : t.FirstFault scope qs cause)
    (hps : t.Sound scope ps) : t.FirstFault scope (ps ++ qs) cause := by
  obtain ⟨before, part, behind, rfl, hsound, hfault⟩ := h
  exact ⟨ps ++ before, part, behind, by simp, sound_append.mpr ⟨hps, hsound⟩, hfault⟩

theorem FirstFault.not_sound {ps : List TypeExpr} {cause : Cause}
    (h : t.FirstFault scope ps cause) : ¬ t.Sound scope ps := by
  obtain ⟨before, part, behind, rfl, -, hfault⟩ := h
  intro hsound
  exact hsound part (by simp) cause hfault

theorem FirstFault.unique {ps : List TypeExpr} {cause cause' : Cause}
    (h : t.FirstFault scope ps cause) (h' : t.FirstFault scope ps cause') : cause = cause' := by
  obtain ⟨before, part, behind, rfl, hsound, hfault⟩ := h
  obtain ⟨before', part', behind', hsame, hsound', hfault'⟩ := h'
  -- If one of them came first, it would be among the sound parts before the other.
  rcases List.append_eq_append_iff.mp hsame with ⟨more, rfl, hmore⟩ | ⟨more, rfl, hmore⟩
  · cases more with
    | nil =>
      obtain ⟨rfl, -⟩ := List.cons.inj hmore
      exact hfault.unique hfault'
    | cons first more =>
      obtain ⟨rfl, -⟩ := List.cons.inj hmore
      exact absurd hfault (hsound' _ (by simp) _)
  · cases more with
    | nil =>
      obtain ⟨rfl, -⟩ := List.cons.inj hmore
      exact hfault.unique hfault'
    | cons first more =>
      obtain ⟨rfl, -⟩ := List.cons.inj hmore
      exact absurd hfault' (hsound _ (by simp) _)

/-! ### Names -/

/-- From every scope of a table, a name means a symbol of the table, or is not declared. -/
theorem Rooted.resolveFullName_meets (ht : t.Rooted) (hs : t.get? scope = some s) (name : String) :
    Meets t.Has (fun cause => cause = .unresolvedSymbol name) (t.resolveFullName scope name) := by
  cases scope with
  | unit i => exact Table.resolveFullName_meets ht (lt_size hs) name
  | builtin i =>
    -- A built-in type has no parent, so that it is its own root.
    obtain ⟨builtin, hb, -⟩ := Option.map_eq_some_iff.mp hs
    have hi := (List.getElem?_eq_some_iff.mp hb).1
    have hroot : t.rootOf (.builtin i) = .ok (.builtin i) := by
      simp [rootOf, lineage_builtin hb, symbolsAlong, bind, Except.bind, pure, Except.pure]
    unfold resolveFullName
    split
    · rename_i first second rest _
      rw [hroot]
      have hstart : Meets t.Has (fun cause => cause = .unresolvedSymbol name)
          ((t.resolveName (.builtin i) first).mapError (underName name)) :=
        (resolveName_builtin_meets hi first).mapError fun cause hc => by rw [hc]; rfl
      exact hstart.bind fun start hstart => descend_meets ht name hstart _
    · exact resolveName_builtin_meets hi name

theorem NamesType.not_faulty {path : List String} {span : Span} {cause : Cause}
    (h : t.NamesType scope (Text.joined "." path)) : ¬ t.Faulty scope (.name path span) cause := by
  obtain ⟨id, s, hid, hs, hk⟩ := h
  intro hfault
  cases hfault with
  | unresolved hnone => exact hnone id hid
  | notAType hid' hs' hk' =>
    obtain rfl := Except.ok.inj (hid.symm.trans hid')
    obtain rfl := Option.some.inj (hs.symm.trans hs')
    exact hk' hk
  | misuse hwraps => exact hwraps.1 rfl

/-- No part is at fault just if all names mean types and no function type stands under a
qualifier. -/
theorem sound_parts_iff (ht : t.Rooted) (hs : t.get? scope = some s) {type : TypeExpr} :
    t.Sound scope type.parts ↔ t.Resolvable scope type := by
  constructor
  · refine fun h => ⟨fun path span hmem => ?_,
      fun part hmem hwraps => h part hmem _ (.misuse hwraps)⟩
    have hfound := ht.resolveFullName_meets hs (Text.joined "." path)
    cases hr : t.resolveFullName scope (Text.joined "." path) with
    | error cause => exact absurd (.unresolved (by simp [hr])) (h _ hmem _)
    | ok id =>
      rw [hr] at hfound
      obtain ⟨s', -, hs'⟩ := Has.get hfound
      refine ⟨id, s', hr, hs', ?_⟩
      by_contra hk
      exact h _ hmem _ (.notAType hr hs' hk)
  · rintro ⟨hnames, hwraps⟩ part hmem cause hfault
    have hpart := hfault
    cases hfault with
    | unresolved | notAType => exact (hnames _ _ hmem).not_faulty hpart
    | misuse h => exact hwraps part hmem h

theorem typeNamed_settles (ht : t.Rooted) (hs : t.get? scope = some s) (path : List String)
    (span : Span) :
    Meets (fun typing => t.Mirrors scope (.name path span) typing ∧
        t.Sound scope [.name path span]) (t.FirstFault scope [.name path span])
      (t.typeNamed scope (Text.joined "." path)) := by
  have hfound := ht.resolveFullName_meets hs (Text.joined "." path)
  unfold typeNamed
  cases hr : t.resolveFullName scope (Text.joined "." path) with
  | error cause =>
    rw [hr] at hfound
    obtain rfl : cause = .unresolvedSymbol _ := hfound
    exact Faulty.first (.unresolved (by simp [hr]))
  | ok id =>
    rw [hr] at hfound
    obtain ⟨s', hget, hs'⟩ := Has.get hfound
    simp only [bind, Except.bind, hget]
    split
    · rename_i hk
      have htype : t.NamesType scope (Text.joined "." path) := ⟨id, s', hr, hs', hk⟩
      exact ⟨.ref rfl hr, sound_singleton.mpr fun _ => htype.not_faulty⟩
    · rename_i hk
      exact Faulty.first (.notAType hr hs' hk)

/-! ### Qualifiers and function types -/

/-- A qualifier around a type that is looked up. -/
theorem qualified_settles {inner : TypeExpr} (outer : TypeExpr) {q : Qualifier}
    (hqualifiers : outer.qualifiers = q :: inner.qualifiers) (hcore : outer.core = inner.core)
    {r : Except Cause Typing}
    (h : Meets (fun typing => t.Mirrors scope inner typing ∧ t.Sound scope inner.parts)
      (t.FirstFault scope inner.parts) r) :
    Meets (fun typing => t.Mirrors scope outer typing ∧ t.Sound scope (inner.parts ++ [outer]))
      (t.FirstFault scope (inner.parts ++ [outer])) (r >>= (·.qualified q)) := by
  refine (h.mono (fun _ h => h) fun cause hfault => hfault.append [outer]).bind ?_
  rintro typing ⟨hmirrors, hsound⟩
  cases hmirrors with
  | ref hname hid =>
    rw [Typing.qualified, ← hqualifiers]
    refine ⟨.ref (hcore.trans hname) hid, sound_append.mpr ⟨hsound, sound_singleton.mpr ?_⟩⟩
    intro cause hfault
    cases hfault with
    | unresolved | notAType => cases hqualifiers
    | misuse hwraps =>
      obtain ⟨-, params, returns, place, hfunc⟩ := hwraps
      cases hname.symm.trans (hcore.symm.trans hfunc)
  | signature _ _ =>
    -- Only function types have a signature, so the qualifier is at fault and nothing inside it.
    refine FirstFault.behind (Faulty.first (.misuse ⟨?_, _, _, _, hcore⟩)) hsound
    rw [hqualifiers]
    exact List.cons_ne_nil _ _

/-- A function type is not at fault itself. -/
theorem sound_func {params : List TypeExpr} {returns : TypeExpr} {span : Span} :
    t.Sound scope [.func params returns span] := by
  refine sound_singleton.mpr fun cause hfault => ?_
  cases hfault with
  | misuse hwraps => exact hwraps.1 rfl

mutual

/-- **Looking up a type reports the first part at fault**, or finds what mirrors the type if no part
is. -/
theorem typingOf_settles (ht : t.Rooted) (hs : t.get? scope = some s) : ∀ type : TypeExpr,
    Meets (fun typing => t.Mirrors scope type typing ∧ t.Sound scope type.parts)
      (t.FirstFault scope type.parts) (t.typingOf scope type)
  | .name path span => typeNamed_settles ht hs path span
  | .pointer pointee span =>
    qualified_settles (.pointer pointee span) rfl rfl (typingOf_settles ht hs pointee)
  | .array size element span =>
    qualified_settles (.array size element span) rfl rfl (typingOf_settles ht hs element)
  | .slice element span =>
    qualified_settles (.slice element span) rfl rfl (typingOf_settles ht hs element)
  | .func params returns span => by
    rw [TypeExpr.parts, typingOf]
    refine ((typingsOf_settles ht hs params).mono (fun _ h => h)
      fun cause hfault => hfault.append _).bind ?_
    rintro typings ⟨hparams, hsound⟩
    refine ((typingOf_settles ht hs returns).mono (fun _ h => h)
      fun cause hfault => (hfault.append _).behind hsound).bind ?_
    rintro result ⟨hreturns, hsound'⟩
    exact ⟨.signature hparams hreturns,
      sound_append.mpr ⟨hsound, sound_append.mpr ⟨hsound', sound_func⟩⟩⟩

theorem typingsOf_settles (ht : t.Rooted) (hs : t.get? scope = some s) : ∀ types : List TypeExpr,
    Meets (fun typings => List.Forall₂ (t.Mirrors scope) types typings ∧
        t.Sound scope (TypeExpr.partsOf types))
      (t.FirstFault scope (TypeExpr.partsOf types)) (t.typingsOf scope types)
  | [] => ⟨.nil, by simp [Sound, TypeExpr.partsOf]⟩
  | type :: rest => by
    rw [TypeExpr.partsOf, typingsOf]
    refine ((typingOf_settles ht hs type).mono (fun _ h => h)
      fun cause hfault => hfault.append _).bind ?_
    rintro typing ⟨htype, hsound⟩
    refine ((typingsOf_settles ht hs rest).mono (fun _ h => h)
      fun cause hfault => hfault.behind hsound).bind ?_
    rintro typings ⟨hrest, hsound'⟩
    exact ⟨.cons htype hrest, sound_append.mpr ⟨hsound, hsound'⟩⟩

end

end

end Table

namespace Context

theorem Served.rooted {ctx : Context} (h : Served ctx) : ctx.Rooted := by
  induction h with
  | start => exact rooted_initial
  | stmt _ source tree ih => exact (steps_after (Binder.moves_stmt _ _)).rooted ih
  | expr _ source tree ih => rwa [after_of_still (Binder.still_expr _)]
  | type _ source tree ih => rwa [after_of_still (Binder.still_known _)]

end Context

open Context (Served Steps)

/-- **Types are looked up just as they are written.**  At every moment after any calls, and in every
scope, a type can be looked up just if all its names mean types and no function type stands under a
qualifier.  Then what is found mirrors the type; otherwise the first part at fault is reported. -/
theorem type_lookup_is_exact {ctx moment : Context} (h : Served ctx) (hm : Steps ctx moment)
    {scope : SymbolId} {s : Symbol} (hs : moment.table.get? scope = some s) (type : TypeExpr) :
    ((∃ typing, moment.table.typingOf scope type = .ok typing) ↔
      moment.table.Resolvable scope type) ∧
    (∀ typing, moment.table.typingOf scope type = .ok typing →
      moment.table.Mirrors scope type typing) ∧
    ∀ cause, moment.table.typingOf scope type = .error cause ↔
      moment.table.FirstFault scope type.parts cause := by
  have hrooted := (hm.rooted h.rooted).table
  have hsettles := Table.typingOf_settles hrooted hs type
  rw [← Table.sound_parts_iff hrooted hs]
  cases hr : moment.table.typingOf scope type with
  | ok typing =>
    rw [hr] at hsettles
    obtain ⟨hmirrors, hsound⟩ := hsettles
    refine ⟨iff_of_true ⟨typing, rfl⟩ hsound, ?_, fun cause => iff_of_false (by simp) ?_⟩
    · rintro _ ⟨⟩
      exact hmirrors
    · exact fun hfault => hfault.not_sound hsound
  | error cause =>
    rw [hr] at hsettles
    have hfault : moment.table.FirstFault scope type.parts cause := hsettles
    refine ⟨iff_of_false (by simp) hfault.not_sound, by simp, fun cause' => ⟨?_, fun hfault' => ?_⟩⟩
    · rintro ⟨⟩
      exact hfault
    · rw [hfault.unique hfault']

/-- A name for a function type may stand under qualifiers.  A function type written in place may
not, which is reported although a name behind it is not declared. -/
theorem type_lookup_is_exact_sample :
    ∃ (ctx : Context) (s : Symbol) (here : Span), Served ctx ∧ Steps ctx ctx ∧
      ctx.table.get? Table.root = some s ∧
      (∃ typing, ctx.table.typingOf Table.root
        (.pointer (.array 4 (.name ["f"] here) here) here) = .ok typing) ∧
      ctx.table.typingOf Table.root (.func
        [.slice (.pointer (.func [] (.name ["f"] here) here) here) here, .name ["g"] here]
        (.name ["f"] here) here) =
        .error (.typingMisuse "a function type cannot be pointed to or stored in an array") := by
  obtain ⟨ctx, hctx, hserved⟩ : ∃ ctx, ctx = Context.initial.after (Binder.stmt
      (Surface.stmtOf "type f = fn(i32) -> i32".toUTF8
        ((Grammar.parse "type f = fn(i32) -> i32").children.headD default))) ∧ Served ctx :=
    ⟨_, rfl, .stmt .start _ _⟩
  have hfacts : (ctx.table.get? Table.root).map (·.kind) = some .root ∧
      (ctx.table.resolveFullName Table.root "f").toOption.map id = some (.unit 1) ∧
      (ctx.table.get? (.unit 1)).map (·.kind) = some .typeName := by
    rw [hctx]
    decide +kernel
  obtain ⟨hroot, hname, hkind⟩ := hfacts
  obtain ⟨s, hs, -⟩ := Option.map_eq_some_iff.mp hroot
  obtain ⟨_, hid, rfl⟩ := exists_ok_of_map hname
  obtain ⟨f, hf, hk⟩ := Option.map_eq_some_iff.mp hkind
  have hnamed : ctx.table.NamesType Table.root "f" := ⟨_, f, hid, hf, hk⟩
  have hexact := type_lookup_is_exact hserved .refl hs
  let here : Span := ⟨.origin, .origin⟩
  refine ⟨ctx, s, here, hserved, .refl, hs, (hexact _).1.mpr ⟨?_, ?_⟩, ((hexact _).2.2 _).mpr ?_⟩
  · intro path span hmem
    obtain ⟨rfl, -⟩ : path = ["f"] ∧ span = here := by simpa [TypeExpr.parts] using hmem
    exact hnamed
  · simp [TypeExpr.parts, TypeExpr.WrapsFunction, TypeExpr.core]
  · refine ⟨[.name ["f"] here, .func [] (.name ["f"] here) here], _, _, rfl, ?_,
      .misuse ⟨List.cons_ne_nil _ _, _, _, _, rfl⟩⟩
    have hpart : ctx.table.Sound Table.root [.name ["f"] here] :=
      Table.sound_singleton.mpr fun _ => hnamed.not_faulty
    exact Table.sound_append.mpr ⟨hpart, Table.sound_func⟩

end BlockC

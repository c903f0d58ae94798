import BlockC.Proofs.ContextInvariant
import BlockC.Proofs.Scoping

/-! # Frames on the way of binding

What reading by frames asks of names can be asked of the frames of a context (`Frames.look_eq`,
`Frames.declare_ok`, `Frames.declare_error`).  The frames of a context change as scopes are opened
(`frames_openScope`) and closed (`frames_closed`, `frames_body_closed`) and as the innermost one
publishes names (`Context.WellFormed.frames_add`), and in no other way.
-/
namespace BlockC

/-! ### Names in frames -/

namespace Frames

/-- The names of each frame. -/
def names (frames : Frames) : Scoping.Names :=
  frames.map (·.map Prod.fst)

theorem lookup_isSome (frame : List (String × SymbolId)) (name : String) :
    (frame.lookup name).isSome = (frame.map Prod.fst).contains name := by
  induction frame with
  | nil => rfl
  | cons entry frame ih =>
    obtain ⟨key, symbol⟩ := entry
    rw [List.lookup_cons, List.map_cons, List.contains_cons]
    cases hkey : name == key with
    | true => rfl
    | false => simpa using ih

theorem find_isSome (frames : Frames) (name : String) :
    (frames.find name).isSome = frames.names.any (·.contains name) := by
  induction frames with
  | nil => rfl
  | cons frame frames ih =>
    unfold find names at ih ⊢
    rw [List.findSome?_cons, List.map_cons, List.any_cons, ← lookup_isSome, ← ih]
    cases frame.lookup name <;> rfl

theorem look_eq (frames : Frames) (name : String) (pos : Position) :
    Scoping.look frames.names [name] pos = (frames.resolve name).elim
      (.error ⟨.unresolvedSymbol name, pos⟩) fun _ => .ok () := by
  have hfind := frames.find_isSome name
  unfold Scoping.look resolve
  simp only [← hfind]
  cases frames.find name with
  | some symbol => rfl
  | none => cases builtin? name <;> rfl

/-- A name that the innermost frame does not have is declared in it. -/
theorem declare_ok {frames : Frames} (hne : frames ≠ []) {name : Surface.Name}
    (h : frames.declares name.text = false) (symbol : SymbolId) :
    Scoping.declare frames.names name = .ok (frames.add name.text symbol).names := by
  obtain ⟨frame, rest, rfl⟩ := List.exists_cons_of_ne_nil hne
  have hlookup : (frame.lookup name.text).isSome = false := h
  rw [lookup_isSome] at hlookup
  unfold Scoping.declare names add
  simp only [List.map_cons, hlookup]
  simp

/-- A name that the innermost frame has is not declared again. -/
theorem declare_error {frames : Frames} {name : Surface.Name}
    (h : frames.declares name.text = true) :
    Scoping.declare frames.names name = .error ⟨.redefinition name.text, name.pos⟩ := by
  cases frames with
  | nil => cases h
  | cons frame rest =>
    have hlookup : (frame.lookup name.text).isSome = true := h
    rw [lookup_isSome] at hlookup
    unfold Scoping.declare names
    simp only [List.map_cons, hlookup]
    rfl

end Frames

namespace Scoping

theorem lookAll_append (names : Names) (pos : Position) (paths paths' : List (List String)) :
    lookAll names pos (paths ++ paths') = (do
      lookAll names pos paths
      lookAll names pos paths') := by
  induction paths with
  | nil => rfl
  | cons path paths ih =>
    simp only [List.cons_append, lookAll, ih]
    cases look names path pos <;> rfl

end Scoping

/-! ### Frames of contexts -/

namespace Context

variable {N : String → Prop} {ctx : Context} {c : Nat} {cs : Symbol}

/-- The innermost frame is what the current scope has published. -/
theorem WellFormed.frames_eq (h : ctx.WellFormed N) (hcur : ctx.current = .unit c)
    (hcs : ctx.table.symbols[c]? = some cs) :
    ∃ rest, ctx.scopes = .unit c :: rest ∧ ctx.frames = cs.children :: ctx.table.frames rest := by
  obtain ⟨c', -, hcur', -, rest, hscopes⟩ := h.current
  rw [hcur] at hcur'
  cases hcur'
  refine ⟨rest, hscopes, ?_⟩
  rw [Context.frames, hscopes, Table.frames, List.map_cons, Table.published_unit hcs]
  rfl

theorem WellFormed.frames_ne_nil (h : ctx.WellFormed N) : ctx.frames ≠ [] := by
  obtain ⟨c, cs, hcur, hcs, -⟩ := h.current
  obtain ⟨rest, -, hframes⟩ := h.frames_eq hcur hcs
  simp [hframes]

theorem WellFormed.declares_eq (h : ctx.WellFormed N) (hcur : ctx.current = .unit c)
    (hcs : ctx.table.symbols[c]? = some cs) (name : String) :
    ctx.frames.declares name = (cs.child? name).isSome := by
  obtain ⟨rest, -, hframes⟩ := h.frames_eq hcur hcs
  rw [hframes]
  rfl

/-- What the current scope publishes is added to the innermost frame. -/
theorem WellFormed.frames_add (h : ctx.WellFormed N) (hcur : ctx.current = .unit c)
    (hcs : ctx.table.symbols[c]? = some cs) {t : Table} (hgrows : ctx.table.Grows (.unit c) t)
    {name : String} {id : SymbolId}
    (hcs' : t.symbols[c]? = some { cs with children := cs.children ++ [(name, id)] }) :
    t.frames ctx.scopes = ctx.frames.add name id := by
  obtain ⟨rest, hscopes, -⟩ := h.frames_eq hcur hcs
  have hnested := h.nested
  rw [hscopes] at hnested
  rw [Context.frames, hscopes]
  exact Table.frames_add h.table.toRooted hnested hgrows hcs hcs' rfl

/-- Marking a symbol as external changes no frame. -/
theorem frames_marked {i : Nat} {s : Symbol} (hs : ctx.table.symbols[i]? = some s) :
    Context.frames ⟨ctx.table.replace i { s with isExternal := true }, ctx.scopes⟩ = ctx.frames :=
  Table.frames_replace hs (by rfl) ctx.scopes

end Context

namespace Binder

open BlockC.Bound

variable {N : String → Prop} {ctx : Context}

theorem framesAfter_cons (frame : List (String × SymbolId)) (frames : Frames) (bs : List Binding) :
    framesAfter (frame :: frames) bs =
      (frame ++ bs.map fun b => (b.name, b.symbol)) :: frames := by
  induction bs generalizing frame with
  | nil => simp [framesAfter]
  | cons b bs ih =>
    rw [framesAfter, Frames.add, ih]
    simp

/-- Frames inside a scope that was just opened. -/
theorem frames_openScope (h : ctx.WellFormed N) (name : String) (kind : SymbolKind) :
    Context.frames ⟨(ctx.table.create name kind ctx.current).2,
      .unit ctx.table.symbols.size :: ctx.scopes⟩ = [] :: ctx.frames := by
  have hgrows : ctx.table.Grows (.unit ctx.table.symbols.size)
      (ctx.table.extend (.fresh name kind (some ctx.current))) := (Table.Grows.refl _ _).extend _
  have hlast := Table.symbols_extend_last ctx.table (.fresh name kind (some ctx.current))
  have hnot := h.nested.not_mem h.table.toRooted (Nat.le_refl ctx.table.symbols.size)
  have houter := Table.frames_of_grows h.table.toRooted h.nested hgrows hnot
  change Table.published _ _ :: Table.frames _ _ = _
  rw [show (ctx.table.create name kind ctx.current).2 =
    ctx.table.extend (.fresh name kind (some ctx.current)) from rfl, houter,
    Table.published_unit hlast]
  rfl

/-- The frames once a scope that was opened is closed again. -/
theorem frames_closed (h : ctx.WellFormed N) {name : String} {kind : SymbolKind} {c : Context}
    (hreach : Context.Reaches N ⟨(ctx.table.create name kind ctx.current).2,
      .unit ctx.table.symbols.size :: ctx.scopes⟩ c) :
    c.table.frames ctx.scopes = ctx.frames := by
  have hgrows : ctx.table.Grows (.unit ctx.table.symbols.size)
      (ctx.table.create name kind ctx.current).2 :=
    (Table.Grows.refl _ _).extend (.fresh name kind (some ctx.current))
  have hnot := h.nested.not_mem h.table.toRooted (Nat.le_refl ctx.table.symbols.size)
  exact Table.frames_of_grows h.table.toRooted h.nested (hgrows.trans hreach.grows (.inl rfl)) hnot

/-- The frames once the body of a function is bound and its scope is closed: the body adds to the
frame of the function only. -/
theorem frames_body_closed {c c' : Context} {b : Header} (h : ctx.WellFormed N)
    (hreach : ctx.Reaches N c) (hscopes : c.scopes = .unit ctx.table.symbols.size :: ctx.scopes)
    (hframes : c.frames = b.frames ctx.frames) (hbody : c.Reaches N c') :
    c'.table.frames ctx.scopes = ctx.frames.add b.name b.symbol ∧
      c.frames.names.tail = Frames.names (c'.table.frames ctx.scopes) := by
  have hcurrent : c.current = .unit ctx.table.symbols.size := by
    rw [Context.current, hscopes]
    rfl
  have hgrows := hbody.grows
  rw [hcurrent] at hgrows
  have hnot := h.nested.not_mem h.table.toRooted (Nat.le_refl ctx.table.symbols.size)
  have hsame := Table.frames_of_grows hreach.wellFormed.table.toRooted
    (h.nested.mono hreach.grows.keeps) hgrows hnot
  rw [Context.frames, hscopes, Table.frames, List.map_cons] at hframes
  refine ⟨hsame.trans (List.cons.inj hframes).2, ?_⟩
  rw [Context.frames, hscopes]
  exact (congrArg Frames.names hsame).symm

end Binder
end BlockC

import BlockC.Proofs.ScopeStack
import Mathlib.Logic.Relation

/-! # Walks through a table end

The walks through a table go from a symbol to its parent, or from a name for a type to what it
stands for.  Neither is bounded by anything but the table: both end because every symbol was made
after its parent and after the types that it names.  This holds of every table that is reached by
binding any trees, whether they succeed or fail (`tables_stay_in_order`).
-/
namespace BlockC

/-- The place of a symbol of the unit in its table. -/
def SymbolId.place : SymbolId → Nat
  | .builtin _ => 0
  | .unit i => i

/-- How far down in its table a bare name for a type is. -/
def Typing.depth : Typing → Nat
  | .ref (.unit i) [] => i + 1
  | .ref (.unit _) (_ :: _) | .ref (.builtin _) _ | .signature _ _ _ => 0

theorem Typing.Within.depth_le {t : Table} {bound : Nat} {typing : Typing}
    (h : typing.Within t bound) : typing.depth ≤ bound := by
  match typing, h with
  | .ref (.unit _) [], h => exact h.1
  | .ref (.unit _) (_ :: _), _ | .ref (.builtin _) _, _ | .signature _ _ _, _ => exact Nat.zero_le _

namespace Table

variable {t : Table} {typing aliased found : Typing}

/-! ### The way to the root -/

/-- No symbol is above itself. -/
theorem Rooted.hasParent_wellFounded (ht : t.Rooted) :
    WellFounded fun parent id => t.HasParent id parent := by
  -- Built-in types have no parent, and that of a symbol of the unit has an earlier place.
  refine Subrelation.wf ?_ (measure SymbolId.place).wf
  rintro parent id ⟨s, hs, hp⟩
  cases id with
  | builtin i =>
    rw [(get?_builtin hs).2.1] at hp
    cases hp
  | unit i =>
    obtain ⟨j, rfl, hj, -⟩ := ht.through_parent hs hp
    exact hj

/-- The way from a symbol to its root goes on from the parent, however far that is. -/
theorem Rooted.lineage_eq (ht : t.Rooted) (id : SymbolId) :
    t.lineage id = match t.get? id with
      | none => [.dangling id]
      | some s => .symbol id s :: s.parent.elim [] t.lineage := by
  cases hs : t.get? id with
  | none => simp [lineage, lineageUpTo, hs]
  | some s =>
    dsimp only
    cases id with
    | builtin i =>
      obtain ⟨name, hname, rfl⟩ := Option.map_eq_some_iff.mp hs
      exact lineage_builtin hname
    | unit i =>
      cases hp : s.parent with
      | none =>
        rw [lineage, lineageUpTo_succ hs, hp]
        rfl
      | some parent =>
        obtain ⟨j, rfl, -, hway⟩ := ht.through_parent hs hp
        exact hway

/-- All symbols on the way from one that is there are there. -/
theorem Rooted.exists_way (ht : t.Rooted) {id : SymbolId} {s : Symbol}
    (hs : t.get? id = some s) : ∃ way, symbolsAlong (t.lineage id) = .ok way := by
  cases id with
  | builtin i =>
    obtain ⟨name, hname, rfl⟩ := Option.map_eq_some_iff.mp hs
    rw [lineage_builtin hname]
    exact ⟨_, rfl⟩
  | unit i =>
    obtain ⟨way, hway, -⟩ := symbolsAlong_climbs (climbs_lineage ht (lt_size hs))
    exact ⟨way, hway⟩

theorem symbolsAlong_tail {way : List Link} {found : List (SymbolId × Symbol)}
    (h : symbolsAlong way = .ok found) : ∃ rest, symbolsAlong way.tail = .ok rest := by
  match way, h with
  | [], _ => exact ⟨[], rfl⟩
  | .dangling id :: _, h => cases h
  | .symbol id s :: rest, h =>
    cases hrest : symbolsAlong rest with
    | ok found' => exact ⟨found', hrest⟩
    | error cause => simp [symbolsAlong, hrest, bind, Except.bind] at h

/-- Where all symbols on the way are there, it is known whether one of them is a module. -/
theorem moduleAlong_ok {way : List Link} {found : List (SymbolId × Symbol)}
    (h : symbolsAlong way = .ok found) : ∃ m, moduleAlong way = .ok m := by
  induction way generalizing found with
  | nil => exact ⟨none, rfl⟩
  | cons link rest ih =>
    obtain ⟨found', hrest⟩ := symbolsAlong_tail h
    cases link with
    | dangling id => cases h
    | symbol id s =>
      unfold moduleAlong
      split
      · exact ⟨_, rfl⟩
      · exact ih hrest

/-- From a built-in type just built-in types are found. -/
theorem resolveName_builtin_meets {i : Nat} (hi : i < builtinNames.length) (name : String) :
    Meets t.Has (fun cause => cause = .unresolvedSymbol name)
      (t.resolveName (.builtin i) name) := by
  unfold resolveName
  rw [lineage_builtin (List.getElem?_eq_getElem hi)]
  cases hb : builtin? name with
  | none => rfl
  | some id =>
    obtain ⟨k, rfl, hk⟩ := builtin?_spec hb
    exact ⟨.fresh name .typeName none, by simp [get?, hk], SymbolKind.isNamed_typeName⟩

/-! ### Names for types -/

/-- The first type is a bare name for a type, and the second is what this is declared to be. -/
def StandsFor (t : Table) (typing aliased : Typing) : Prop :=
  ∃ id s, typing = .ref id [] ∧ t.get? id = some s ∧ s.kind = .typeName ∧ s.typing = some aliased

theorem StandsFor.unit (h : t.StandsFor typing aliased) :
    ∃ i s, typing = .ref (.unit i) [] ∧ t.symbols[i]? = some s ∧ s.typing = some aliased := by
  obtain ⟨id, s, rfl, hs, -, htyping⟩ := h
  cases id with
  | builtin i =>
    obtain ⟨name, -, rfl⟩ := Option.map_eq_some_iff.mp hs
    cases htyping
  | unit i => exact ⟨i, s, rfl, hs, htyping⟩

theorem WellFormed.depth_lt (ht : t.WellFormed) (h : t.StandsFor typing aliased) :
    aliased.depth < typing.depth := by
  obtain ⟨i, s, rfl, hs, htyping⟩ := h.unit
  exact Nat.lt_succ_of_le (ht.typing hs htyping).depth_le

/-- No name for a type stands for itself. -/
theorem WellFormed.standsFor_wellFounded (ht : t.WellFormed) :
    WellFounded fun aliased typing => t.StandsFor typing aliased :=
  Subrelation.wf ht.depth_lt (measure Typing.depth).wf

/-- A type that does not stand for another one, and whose name is there if it is a bare one. -/
structure Settled (t : Table) (typing : Typing) : Prop where
  last : ∀ aliased, ¬t.StandsFor typing aliased
  known : ∀ id, typing = .ref id [] → ∃ s, t.get? id = some s

theorem unaliasUpTo_of_standsFor (h : t.StandsFor typing aliased) (n : Nat) :
    t.unaliasUpTo (n + 1) typing = t.unaliasUpTo n aliased := by
  obtain ⟨id, s, rfl, hs, hkind, htyping⟩ := h
  simp [unaliasUpTo, Table.get, hs, hkind, htyping, bind, Except.bind]

theorem Settled.unaliasUpTo_eq (h : t.Settled typing) (n : Nat) :
    t.unaliasUpTo n typing = .ok typing := by
  unfold unaliasUpTo
  split
  · rename_i id
    obtain ⟨s, hs⟩ := h.known id rfl
    simp only [Table.get, hs, bind, Except.bind]
    split
    · rename_i aliased hkind htyping
      exact absurd ⟨id, s, rfl, hs, hkind, htyping⟩ (h.last aliased)
    · rfl
  · rfl

theorem settled_of_unaliasUpTo {n : Nat} (hlast : ∀ aliased, ¬t.StandsFor typing aliased)
    (h : t.unaliasUpTo (n + 1) typing = .ok found) : t.Settled typing := by
  refine ⟨hlast, fun id hid => ?_⟩
  subst hid
  cases hs : t.get? id with
  | some s => exact ⟨s, rfl⟩
  | none => simp [unaliasUpTo, Table.get, hs, bind, Except.bind] at h

/-- A walk along names for types that has room enough ends with what they stand for in the end. -/
theorem WellFormed.unaliasUpTo_iff (ht : t.WellFormed) {n : Nat}
    (hn : ∀ aliased, t.StandsFor typing aliased → typing.depth ≤ n) :
    t.unaliasUpTo (n + 1) typing = .ok found ↔
      Relation.ReflTransGen t.StandsFor typing found ∧ t.Settled found := by
  -- The depth of a name is more than that of what it stands for, so it bounds the walk.
  have hroom {m : Nat} {a b : Typing} (hstep : t.StandsFor a b)
      (hm : ∀ aliased, t.StandsFor a aliased → a.depth ≤ m) : ∃ k, m = k + 1 ∧ b.depth ≤ k := by
    have hlt := ht.depth_lt hstep
    have hle := hm b hstep
    exact ⟨m - 1, by omega, by omega⟩
  constructor
  · intro h
    induction n using Nat.strongRecOn generalizing typing with
    | ind n ih =>
      -- Either the walk takes a step, or it ends right here.
      by_cases hstep : ∃ aliased, t.StandsFor typing aliased
      · obtain ⟨aliased, hstep⟩ := hstep
        obtain ⟨m, rfl, hm⟩ := hroom hstep hn
        rw [unaliasUpTo_of_standsFor hstep] at h
        obtain ⟨hsteps, hsettled⟩ := ih m (Nat.lt_succ_self m) (fun _ _ => hm) h
        exact ⟨.head hstep hsteps, hsettled⟩
      · have hsettled := settled_of_unaliasUpTo (not_exists.mp hstep) h
        rw [hsettled.unaliasUpTo_eq] at h
        cases h
        exact ⟨.refl, hsettled⟩
  · rintro ⟨hsteps, hsettled⟩
    induction hsteps using Relation.ReflTransGen.head_induction_on generalizing n with
    | refl => exact hsettled.unaliasUpTo_eq (n + 1)
    | head hstep _ ih =>
      obtain ⟨m, rfl, hm⟩ := hroom hstep hn
      rw [unaliasUpTo_of_standsFor hstep]
      exact ih fun _ _ => hm

theorem WellFormed.unalias_iff (ht : t.WellFormed) :
    t.unalias typing = .ok found ↔
      Relation.ReflTransGen t.StandsFor typing found ∧ t.Settled found := by
  -- A name that stands for a type is in the table, so its depth is at most the size of the table.
  refine ht.unaliasUpTo_iff fun aliased h => ?_
  obtain ⟨i, s, rfl, hs, -⟩ := h.unit
  exact lt_size hs

/-! ### Every walk -/

/-- All walks through a table end. -/
structure WalksEnd (t : Table) : Prop where
  /-- No symbol is above itself. -/
  parents : WellFounded fun parent id => t.HasParent id parent
  /-- The way up goes through every symbol that is above. -/
  lineage : ∀ id, t.lineage id = match t.get? id with
    | none => [.dangling id]
    | some s => .symbol id s :: s.parent.elim [] t.lineage
  /-- Above every symbol of the unit is the root. -/
  rootOf_unit : ∀ i, i < t.symbols.size → t.rootOf (.unit i) = .ok root
  /-- Above a built-in type is nothing but itself. -/
  rootOf_builtin : ∀ i, i < builtinNames.length → t.rootOf (.builtin i) = .ok (.builtin i)
  /-- From every symbol a name is found or not declared. -/
  resolveName : ∀ id s, t.get? id = some s → ∀ name,
    Meets t.Has (fun cause => cause = .unresolvedSymbol name) (t.resolveName id name)
  /-- Every symbol has a full name. -/
  fullName : ∀ id s, t.get? id = some s → ∃ name, t.fullName id = .ok name
  /-- Every symbol is in a module or in none. -/
  enclosingModule : ∀ id s, t.get? id = some s → ∃ m, t.enclosingModule id = .ok m
  /-- No name for a type stands for itself. -/
  aliases : WellFounded fun aliased typing => t.StandsFor typing aliased
  /-- Every type of a symbol stands for one in the end. -/
  unalias : ∀ id s typing, t.get? id = some s → s.typing = some typing →
    ∃ found, t.unalias typing = .ok found
  /-- What a type stands for in the end is found by following names as long as they stand for
  another type, and no longer. -/
  unalias_iff : ∀ typing found, t.unalias typing = .ok found ↔
    Relation.ReflTransGen t.StandsFor typing found ∧ t.Settled found
  /-- What a type stands for in the end stands for itself. -/
  unalias_unalias : ∀ typing found, t.unalias typing = .ok found → t.unalias found = .ok found

theorem WellFormed.walksEnd (ht : t.WellFormed) : t.WalksEnd where
  parents := ht.hasParent_wellFounded
  lineage := ht.lineage_eq
  rootOf_unit _ hi := Table.rootOf_unit ht.toRooted hi
  rootOf_builtin i hi := by
    rw [rootOf, lineage_builtin (List.getElem?_eq_getElem hi)]
    rfl
  resolveName id s hs name := by
    cases id with
    | unit i => exact resolveName_meets ht.toRooted (lt_size hs) name
    | builtin i =>
      obtain ⟨builtin, hb, -⟩ := Option.map_eq_some_iff.mp hs
      exact resolveName_builtin_meets (List.getElem?_eq_some_iff.mp hb).1 name
  fullName id s hs := by
    obtain ⟨way, hway⟩ := ht.exists_way hs
    exact ⟨_, by rw [Table.fullName, hway]; rfl⟩
  enclosingModule id s hs := by
    obtain ⟨way, hway⟩ := ht.exists_way hs
    obtain ⟨rest, hrest⟩ := symbolsAlong_tail hway
    obtain ⟨m, hm⟩ := moduleAlong_ok hrest
    exact ⟨m, by simp [Table.enclosingModule, Table.get, hs, hm, bind, Except.bind]⟩
  aliases := ht.standsFor_wellFounded
  unalias id s typing hs htyping := by
    cases id with
    | unit i => exact unaliasUpTo_ok ht (ht.typing hs htyping)
    | builtin i =>
      obtain ⟨builtin, -, rfl⟩ := Option.map_eq_some_iff.mp hs
      cases htyping
  unalias_iff _ _ := ht.unalias_iff
  unalias_unalias typing found h :=
    ht.unalias_iff.mpr ⟨.refl, (ht.unalias_iff.mp h).2⟩

end Table

/-! ### Contexts of any calls -/

namespace Context

/-- A context that binding some trees leads to, each as a statement, an expression or a type, one
after the other and whether they succeed or fail. -/
inductive Served : Context → Prop
  | start : Served .initial
  | stmt {ctx : Context} (h : Served ctx) (source : ByteArray) (tree : Node) :
      Served (ctx.after (Binder.stmt (Surface.stmtOf source tree)))
  | expr {ctx : Context} (h : Served ctx) (source : ByteArray) (tree : Node) :
      Served (ctx.after (Binder.expr (Surface.exprOf source tree)))
  | type {ctx : Context} (h : Served ctx) (source : ByteArray) (tree : Node) :
      Served (ctx.after (Binder.known (Surface.typeOf source tree)))

theorem after_of_still {α : Type} {m : Binder α} (h : Binder.Still m) (ctx : Context) :
    ctx.after m = ctx :=
  (h ctx).after

theorem Served.wellFormed {ctx : Context} (h : Served ctx) :
    ctx.WellFormed Surface.anything.name := by
  induction h with
  | start => exact wellFormed_initial
  | stmt _ source tree ih => exact wellFormed_after_stmt ih _
  | expr _ source tree ih => rwa [after_of_still (Binder.still_expr _)]
  | type _ source tree ih => rwa [after_of_still (Binder.still_known _)]

end Context

open Context (Served)

/-- **Tables stay in order.**  After any calls, whether they succeed or fail, the table is in order,
so that all walks through it end. -/
theorem tables_stay_in_order {ctx : Context} (h : Served ctx) :
    ctx.table.WellFormed ∧ ctx.table.WalksEnd :=
  ⟨h.wellFormed.table, h.wellFormed.table.walksEnd⟩

/-- A loop that fails behind a name for a name for a function type: what it has declared so far
stays, and further calls go on from there. -/
theorem broken_loop_stays_in_order :
    ∃ ctx, Served ctx ∧ ctx.table.symbols.size = 5 ∧ ctx.scopes = [.unit 2, .unit 0] ∧
      (∃ found, ctx.table.unalias (.ref (.unit 3) []) = .ok found ∧ found.isSignature = true) ∧
      ctx.table.WellFormed ∧ ctx.table.WalksEnd := by
  obtain ⟨ctx, hctx, hserved⟩ : ∃ ctx, ctx = ((Context.initial.after (Binder.stmt
      (Surface.stmtOf "type f = fn(i32) -> i32".toUTF8
        ((Grammar.parse "type f = fn(i32) -> i32").children.headD default)))).after (Binder.stmt
      (Surface.stmtOf "while true do type g = f let h: g let x: g = y end".toUTF8
        ((Grammar.parse "while true do type g = f let h: g let x: g = y end").children.headD
          default)))).after (Binder.expr (Surface.exprOf "h(1)".toUTF8
        (((Grammar.parse "h(1)").children.headD default).children.headD default))) ∧ Served ctx :=
    ⟨_, rfl, .expr (.stmt (.stmt .start _ _) _ _) _ _⟩
  have hfacts : ctx.table.symbols.size = 5 ∧ ctx.scopes = [.unit 2, .unit 0] ∧
      (ctx.table.unalias (.ref (.unit 3) [])).toOption.map (·.isSignature) = some true := by
    rw [hctx]
    decide +kernel
  obtain ⟨hsize, hscopes, hunalias⟩ := hfacts
  exact ⟨ctx, hserved, hsize, hscopes, exists_ok_of_map hunalias, tables_stay_in_order hserved⟩

/-- Above a built-in type is not the root, in every table. -/
theorem builtin_has_no_root :
    ¬∀ ctx, Served ctx → ∀ id s, ctx.table.get? id = some s →
      ctx.table.rootOf id = .ok Table.root := by
  intro h
  have hroot := h .initial .start (.builtin 0) _ rfl
  cases hroot

end BlockC

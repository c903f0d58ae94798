import BlockC.Grammar.SourceFile
import BlockC.Proofs.BinderSteps

/-! # Blocks keep their names to themselves

What is declared in a block can be looked up from inside the block only.  A name without dots finds
what a scope on the way to the root has published, and everything is published under its own parent,
so the way passes the block (`resolveName_inside`).  A dotted name starts at the root and goes down
along published symbols, and a block is never published (`resolveFullName_inside`).
-/
namespace BlockC

namespace Table

/-! ### Symbols inside others -/

/-- One symbol is the parent of the other, or of a symbol around it. -/
inductive Inside (t : Table) (outer : SymbolId) : SymbolId → Prop
  | parent {id : SymbolId} {s : Symbol} (hs : t.get? id = some s) (hp : s.parent = some outer) :
      Inside t outer id
  | above {id parent : SymbolId} {s : Symbol} (hs : t.get? id = some s)
      (hp : s.parent = some parent) (h : Inside t outer parent) : Inside t outer id

theorem Inside.trans {t : Table} {a b c : SymbolId} (h : t.Inside a b) (h' : t.Inside b c) :
    t.Inside a c := by
  induction h' with
  | parent hs hp => exact .above hs hp h
  | above hs hp _ ih => exact .above hs hp ih

/-- What is around a symbol is its parent or around it. -/
theorem Inside.of_parent {t : Table} {outer id parent : SymbolId} {s : Symbol}
    (h : t.Inside outer id) (hs : t.get? id = some s) (hp : s.parent = some parent) :
    outer = parent ∨ t.Inside outer parent := by
  cases h with
  | parent hs' hp' =>
    obtain rfl := Option.some.inj (hs.symm.trans hs')
    exact Or.inl (Option.some.inj (hp'.symm.trans hp))
  | above hs' hp' h =>
    obtain rfl := Option.some.inj (hs.symm.trans hs')
    obtain rfl := Option.some.inj (hp.symm.trans hp')
    exact Or.inr h

/-- A symbol that others are around has a parent. -/
theorem Inside.exists_parent {t : Table} {outer id : SymbolId} (h : t.Inside outer id) :
    ∃ s parent, t.get? id = some s ∧ s.parent = some parent := by
  cases h with
  | parent hs hp => exact ⟨_, _, hs, hp⟩
  | above hs hp => exact ⟨_, _, hs, hp⟩

/-- Nothing is around a symbol without a parent. -/
theorem Inside.not_top {t : Table} {outer id : SymbolId} (h : t.Inside outer id)
    (htop : ∀ s, t.get? id = some s → s.parent = none) : False := by
  obtain ⟨s, parent, hs, hp⟩ := h.exists_parent
  rw [htop s hs] at hp
  cases hp

/-! ### What a lookup finds -/

/-- What is found along the way from a symbol was published by it or by one around it. -/
theorem searchAlong_found {t : Table} {name : String} {n : Nat} {scope id : SymbolId}
    (h : searchAlong name (t.lineageUpTo n scope) = .ok (some id)) :
    ∃ owner s, (owner = scope ∨ t.Inside owner scope) ∧ t.get? owner = some s ∧
      s.child? name = some id := by
  induction n generalizing scope with
  | zero => cases h
  | succ n ih =>
    unfold lineageUpTo at h
    split at h
    · cases h
    · rename_i s hs
      unfold searchAlong at h
      split at h
      · rename_i child hchild
        obtain rfl : child = id := by simpa using h
        exact ⟨scope, s, Or.inl rfl, hs, hchild⟩
      · split at h
        · cases h
        · rename_i parent hp
          obtain ⟨owner, os, howner, hos, hchild⟩ := ih h
          refine ⟨owner, os, Or.inr ?_, hos, hchild⟩
          rcases howner with rfl | howner
          · exact .parent hs hp
          · exact .above hs hp howner

/-- A built-in type publishes nothing, and has no parent. -/
theorem get?_builtin {t : Table} {i : Nat} {s : Symbol} (h : t.get? (.builtin i) = some s) :
    s.children = [] ∧ s.parent = none ∧ s.kind = .typeName := by
  obtain ⟨name, -, rfl⟩ := Option.map_eq_some_iff.mp h
  exact ⟨rfl, rfl, rfl⟩

/-- What a symbol has published has it as its parent, and can be named. -/
theorem Rooted.published {t : Table} (ht : t.Rooted) {owner id : SymbolId} {s : Symbol}
    {name : String} (hs : t.get? owner = some s) (hc : s.child? name = some id) :
    ∃ c, t.get? id = some c ∧ c.parent = some owner ∧ c.kind.IsNamed := by
  cases owner with
  | builtin i =>
    rw [Symbol.child?, (get?_builtin hs).1] at hc
    cases hc
  | unit i =>
    obtain ⟨k, c, rfl, hck, -, hp, hk⟩ := ht.isChild hs hc
    exact ⟨c, hck, hp, hk⟩

/-- What a name without dots means is a built-in type, or published by a symbol around the scope. -/
theorem resolveName_found {t : Table} {scope id : SymbolId} {name : String}
    (h : t.resolveName scope name = .ok id) :
    (∃ i, id = .builtin i) ∨ ∃ owner s, (owner = scope ∨ t.Inside owner scope) ∧
      t.get? owner = some s ∧ s.child? name = some id := by
  unfold resolveName at h
  cases hfound : searchAlong name (t.lineage scope) with
  | error cause => simp [hfound, bind, Except.bind] at h
  | ok found =>
    rw [hfound] at h
    cases found with
    | some child =>
      obtain rfl : child = id := by simpa [bind, Except.bind, pure, Except.pure] using h
      exact Or.inr (searchAlong_found hfound)
    | none =>
      cases hb : builtin? name with
      | none => simp [hb, bind, Except.bind] at h
      | some b =>
        obtain rfl : b = id := by simpa [hb, bind, Except.bind, pure, Except.pure] using h
        obtain ⟨k, rfl, -⟩ := builtin?_spec hb
        exact Or.inl ⟨k, rfl⟩

/-- **What a name without dots means is around the scope wherever it is itself.** -/
theorem resolveName_inside {t : Table} (ht : t.Rooted) {scope id outer : SymbolId} {name : String}
    (h : t.resolveName scope name = .ok id) (hin : t.Inside outer id) :
    scope = outer ∨ t.Inside outer scope := by
  rcases resolveName_found h with ⟨i, rfl⟩ | ⟨owner, s, howner, hs, hc⟩
  · exact (hin.not_top fun s hs => (get?_builtin hs).2.1).elim
  · obtain ⟨c, hget, hp, -⟩ := ht.published hs hc
    rcases hin.of_parent hget hp with rfl | hin
    · rcases howner with rfl | howner
      · exact Or.inl rfl
      · exact Or.inr howner
    · rcases howner with rfl | howner
      · exact Or.inr hin
      · exact Or.inr (hin.trans howner)

/-! ### Symbols in no block -/

/-- The symbol is no block and in none. -/
def InNoBlock (t : Table) (id : SymbolId) : Prop :=
  ∀ (outer : SymbolId) (s : Symbol), (outer = id ∨ t.Inside outer id) → t.get? outer = some s →
    s.kind ≠ .block

/-- What is published by a symbol in no block is in none. -/
theorem InNoBlock.published {t : Table} (ht : t.Rooted) {owner id : SymbolId} {s : Symbol}
    {name : String} (h : t.InNoBlock owner) (hs : t.get? owner = some s)
    (hc : s.child? name = some id) : t.InNoBlock id := by
  obtain ⟨c, hget, hp, hk⟩ := ht.published hs hc
  rintro outer x (rfl | hin) hx
  · obtain rfl := Option.some.inj (hget.symm.trans hx)
    exact hk.2
  · exact h outer x (hin.of_parent hget hp) hx

theorem inNoBlock_of_top {t : Table} {id : SymbolId}
    (h : ∀ s, t.get? id = some s → s.parent = none ∧ s.kind ≠ .block) : t.InNoBlock id := by
  rintro outer x (rfl | hin) hx
  · exact (h x hx).2
  · exact (hin.not_top fun s hs => (h s hs).1).elim

theorem inNoBlock_builtin (t : Table) (i : Nat) : t.InNoBlock (.builtin i) := by
  refine inNoBlock_of_top fun s hs => ?_
  obtain ⟨-, hp, hk⟩ := get?_builtin hs
  exact ⟨hp, by simp [hk]⟩

theorem inNoBlock_root {t : Table} (ht : t.Rooted) : t.InNoBlock root := by
  obtain ⟨r, hr, -, hk, hp⟩ := ht.root
  refine inNoBlock_of_top fun s hs => ?_
  obtain rfl : r = s := Option.some.inj (hr.symm.trans hs)
  exact ⟨hp, by simp [hk]⟩

/-- The way up from a scope ends in no block. -/
theorem inNoBlock_rootOf {t : Table} (ht : t.Rooted) {scope top : SymbolId}
    (h : t.rootOf scope = .ok top) : t.InNoBlock top := by
  cases scope with
  | unit i =>
    by_cases hi : i < t.symbols.size
    · rw [rootOf_unit ht hi] at h
      obtain rfl := Except.ok.inj h
      exact inNoBlock_root ht
    · have hnone : t.get? (.unit i) = none := by simpa [get?] using hi
      simp [rootOf, lineage, lineageUpTo, hnone, symbolsAlong, bind, Except.bind] at h
  | builtin i =>
    cases hb : builtinNames[i]? with
    | none =>
      have hnone : t.get? (.builtin i) = none := by simp [get?, hb]
      simp [rootOf, lineage, lineageUpTo, hnone, symbolsAlong, bind, Except.bind] at h
    | some name =>
      rw [rootOf, lineage_builtin hb] at h
      obtain rfl : .builtin i = top := by
        simpa [symbolsAlong, bind, Except.bind, pure, Except.pure] using h
      exact inNoBlock_builtin t i

theorem InNoBlock.resolveName {t : Table} (ht : t.Rooted) {scope id : SymbolId} {name : String}
    (hscope : t.InNoBlock scope) (h : t.resolveName scope name = .ok id) : t.InNoBlock id := by
  rcases resolveName_found h with ⟨i, rfl⟩ | ⟨owner, s, howner, hs, hc⟩
  · exact inNoBlock_builtin t i
  · refine InNoBlock.published ht (fun outer x houter hx => ?_) hs hc
    refine hscope outer x ?_ hx
    rcases houter with rfl | houter
    · exact howner
    · rcases howner with rfl | howner
      · exact Or.inr houter
      · exact Or.inr (houter.trans howner)

/-- Going down starts with a child. -/
theorem descend_cons_ok {t : Table} {name part : String} {id found : SymbolId}
    {rest : List String} (h : t.descend name id (part :: rest) = .ok found) :
    ∃ s child, t.get? id = some s ∧ s.child? part = some child ∧
      t.descend name child rest = .ok found := by
  unfold Table.descend at h
  cases hget : t.get? id with
  | none => simp [get, hget, bind, Except.bind] at h
  | some s =>
    simp only [get, hget, bind, Except.bind] at h
    split at h
    · rename_i child hc
      exact ⟨s, child, rfl, hc, h⟩
    · cases h

/-- Going down along published symbols never enters a block. -/
theorem InNoBlock.descend {t : Table} (ht : t.Rooted) {name : String} {id found : SymbolId}
    {path : List String} (hid : t.InNoBlock id) (h : t.descend name id path = .ok found) :
    t.InNoBlock found := by
  induction path generalizing id with
  | nil =>
    obtain rfl := Except.ok.inj h
    exact hid
  | cons part rest ih =>
    obtain ⟨s, child, hget, hc, h⟩ := descend_cons_ok h
    exact ih (hid.published ht hget hc) h

/-- **What a name means is inside a block only if the scope is.** -/
theorem resolveFullName_inside {t : Table} (ht : t.Rooted) {scope id block : SymbolId}
    {name : String} {s : Symbol} (h : t.resolveFullName scope name = .ok id)
    (hs : t.get? block = some s) (hblock : s.kind = .block) (hin : t.Inside block id) :
    scope = block ∨ t.Inside block scope := by
  unfold resolveFullName at h
  split at h
  · rename_i first second rest _
    exfalso
    cases htop : t.rootOf scope with
    | error cause => simp [htop, bind, Except.bind] at h
    | ok top =>
      simp only [htop, bind, Except.bind] at h
      cases hstart : t.resolveName top first with
      | error cause =>
        rw [hstart] at h
        cases h
      | ok start =>
        rw [hstart] at h
        have hfree := ((inNoBlock_rootOf ht htop).resolveName ht hstart).descend ht h
        exact hfree block s (Or.inr hin) hs hblock
  · exact resolveName_inside ht h hin

end Table

namespace Context

/-! ### Every moment of a session -/

/-- The symbols are a tree, and the open scopes are symbols of the unit. -/
structure Rooted (ctx : Context) : Prop where
  table : ctx.table.Rooted
  scopes : ∀ id ∈ ctx.scopes, ∃ i, id = .unit i ∧ i < ctx.table.symbols.size

theorem rooted_initial : initial.Rooted := by
  refine ⟨Table.wellFormed_empty.toRooted, fun id hid => ?_⟩
  obtain rfl := List.mem_singleton.mp hid
  exact ⟨0, rfl, by decide⟩

theorem Rooted.current {ctx : Context} (h : ctx.Rooted) :
    ∃ i, ctx.current = .unit i ∧ i < ctx.table.symbols.size := by
  unfold Context.current
  cases hscopes : ctx.scopes with
  | nil =>
    obtain ⟨r, hr, -⟩ := h.table.root
    exact ⟨0, rfl, Table.lt_size hr⟩
  | cons id rest => exact h.scopes id (by simp [hscopes])

/-- A single change keeps the symbols a tree. -/
theorem Step.rooted {ctx ctx' : Context} (hstep : Step ctx ctx') (h : ctx.Rooted) :
    ctx'.Rooted := by
  have hsize := hstep.keeps.size_le
  have hscopes : ∀ id ∈ ctx.scopes, ∃ i, id = .unit i ∧ i < ctx'.table.symbols.size := by
    intro id hid
    obtain ⟨i, rfl, hi⟩ := h.scopes id hid
    exact ⟨i, rfl, Nat.lt_of_lt_of_le hi hsize⟩
  cases hstep with
  | create name kind =>
    obtain ⟨i, hi, hlt⟩ := h.current
    exact ⟨h.table.extend (by rw [hi]; rfl) hlt rfl, hscopes⟩
  | typed ht =>
    obtain ⟨i, s, s', -, hs, hf, rfl⟩ := Table.update_ok ht
    cases hf
    exact ⟨h.table.replace hs rfl rfl rfl fun _ _ hmem => h.table.child hs hmem, hscopes⟩
  | external ht =>
    obtain ⟨i, s, s', -, hs, hf, rfl⟩ := Table.update_ok ht
    cases hf
    exact ⟨h.table.replace hs rfl rfl rfl fun _ _ hmem => h.table.child hs hmem, hscopes⟩
  | @publish _ parent k owned ht =>
    obtain ⟨s, hs, hparent, hkind⟩ := owned
    obtain ⟨p, ps, rfl, hps, -, rfl⟩ := Table.addChild_ok hs ht
    refine ⟨h.table.replace hps rfl rfl rfl fun name id hmem => ?_, hscopes⟩
    rcases List.mem_append.mp hmem with hmem | hmem
    · exact h.table.child hps hmem
    · obtain ⟨rfl, rfl⟩ : name = s.name ∧ id = .unit k := by simpa using hmem
      exact ⟨k, s, rfl, hs, rfl, hparent, hkind⟩
  | @enter i hi => exact ⟨h.table, List.forall_mem_cons.mpr ⟨⟨i, rfl, hi⟩, hscopes⟩⟩
  | leave scope =>
    refine ⟨h.table, fun id hid => hscopes id ?_⟩
    exact (List.dropWhile_sublist _).subset (List.mem_of_mem_tail hid)

theorem Steps.rooted {ctx ctx' : Context} (hsteps : Steps ctx ctx') (h : ctx.Rooted) :
    ctx'.Rooted := by
  induction hsteps with
  | refl => exact h
  | tail _ hstep ih => exact hstep.rooted ih

/-- The context that a step of binding leaves behind, whether it succeeds or fails. -/
def after {α : Type} (ctx : Context) (m : Binder α) : Context :=
  match m.run ctx with
  | .ok _ c => c
  | .error _ c => c

theorem steps_after {α : Type} {ctx : Context} {m : Binder α} (h : Binder.Moves m ctx) :
    Steps ctx (ctx.after m) := by
  unfold Binder.Moves Binder.Leads at h
  unfold after
  cases hm : m.run ctx with
  | ok a c =>
    rw [hm] at h
    exact h
  | error d c =>
    rw [hm] at h
    exact h

/-- A context that binding some trees as statements leads to, one after the other and whether they
succeed or fail. -/
inductive Session : Context → Prop
  | start : Session .initial
  | call {ctx : Context} (h : Session ctx) (source : ByteArray) (tree : Node) :
      Session (ctx.after (Binder.stmt (Surface.stmtOf source tree)))

theorem Session.rooted {ctx : Context} (h : Session ctx) : ctx.Rooted := by
  induction h with
  | start => exact rooted_initial
  | call _ source tree ih => exact (steps_after (Binder.moves_stmt _ _)).rooted ih

end Context

open Context (Session Steps)

/-- **Blocks keep their names to themselves.**  In every session, binding a further tree is a run of
single changes; and at every moment of such a run, what a name means in a scope is inside a block
only if the scope is that block or inside it. -/
theorem block_names_stay_inside {ctx : Context} (h : Session ctx) :
    (∀ source tree, Steps ctx (ctx.after (Binder.stmt (Surface.stmtOf source tree)))) ∧
    ∀ moment, Steps ctx moment → ∀ (scope id block : SymbolId) (name : String) (s : Symbol),
      moment.table.resolveName scope name = .ok id ∨
        moment.table.resolveFullName scope name = .ok id →
      moment.table.get? block = some s → s.kind = .block → moment.table.Inside block id →
      scope = block ∨ moment.table.Inside block scope := by
  refine ⟨fun source tree => Context.steps_after (Binder.moves_stmt _ _), ?_⟩
  intro moment hsteps scope id block name s hname hs hblock hin
  have hrooted := (hsteps.rooted h.rooted).table
  rcases hname with hname | hname
  · exact Table.resolveName_inside hrooted hname hin
  · exact Table.resolveFullName_inside hrooted hname hs hblock hin

/-- A loop whose second statement fails stays open, and its name is still found in it. -/
theorem open_loop_knows_its_name :
    ∃ ctx, Session ctx ∧ ctx.table.resolveName ctx.current "x" = .ok (.unit 2) ∧
      (∃ s, ctx.table.get? (.unit 1) = some s ∧ s.kind = .block) ∧
      ctx.table.Inside (.unit 1) (.unit 2) ∧
      (ctx.current = .unit 1 ∨ ctx.table.Inside (.unit 1) ctx.current) := by
  obtain ⟨ctx, hctx, hsession⟩ : ∃ ctx, ctx = Context.initial.after (Binder.stmt
      (Surface.stmtOf "while true do let x: i32 = 1 y end".toUTF8
        ((Grammar.parse "while true do let x: i32 = 1 y end").children.headD default))) ∧
      Session ctx := ⟨_, rfl, .call .start _ _⟩
  have hfacts : (ctx.table.resolveName ctx.current "x").toOption = some (.unit 2) ∧
      (ctx.table.get? (.unit 1)).map (·.kind) = some .block ∧
      (ctx.table.get? (.unit 2)).bind (·.parent) = some (.unit 1) := by
    rw [hctx]
    decide +kernel
  obtain ⟨hname, hblock, hparent⟩ := hfacts
  obtain ⟨id, hid, rfl⟩ := exists_ok_of_map (f := fun id => id) (by simpa using hname)
  obtain ⟨s, hs, hkind⟩ := Option.map_eq_some_iff.mp hblock
  obtain ⟨x, hx, hp⟩ := Option.bind_eq_some_iff.mp hparent
  have hin : ctx.table.Inside (.unit 1) (.unit 2) := .parent hx hp
  exact ⟨ctx, hsession, hid, ⟨s, hs, hkind⟩, hin,
    (block_names_stay_inside hsession).2 ctx .refl _ _ _ _ s (Or.inl hid) hs hkind hin⟩

end BlockC

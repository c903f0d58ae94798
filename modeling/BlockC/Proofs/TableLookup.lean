import BlockC.Proofs.Outcome
import BlockC.Proofs.TableInvariant

/-! # Looking up in tables in order

In a table in order the way from a symbol to the root meets symbols only, and ends at the root.  So
looking up a name, a type or whether a symbol can be called gives an answer that the table has, or
fails for want of a declaration, never for the table's sake.
-/
namespace BlockC

/-- The causes that binding names and types can have by itself. -/
def Cause.IsBinding : Cause → Prop
  | .unresolvedSymbol _ | .redefinition _ | .notAType _ | .notCallable _ | .typingMisuse _
  | .variadicDefinition _ => True
  | _ => False

namespace Table

/-- A handle that refers to a symbol that can be named. -/
def Has (t : Table) (id : SymbolId) : Prop :=
  ∃ s, t.get? id = some s ∧ s.kind.IsNamed

/-- The next handle to be given out refers to nothing. -/
theorem not_has_size {t : Table} : ¬t.Has (.unit t.symbols.size) := by
  rintro ⟨s, hs, -⟩
  have hget : t.symbols[t.symbols.size]? = some s := hs
  simp at hget

theorem has_unit {t : Table} {i : Nat} {s : Symbol} (h : t.symbols[i]? = some s)
    (hk : s.kind.IsNamed) : t.Has (.unit i) :=
  ⟨s, h, hk⟩

theorem Has.mono {t t' : Table} (ht : t.Keeps t') {id : SymbolId} (h : t.Has id) : t'.Has id := by
  obtain ⟨s, hs, hk⟩ := h
  cases id with
  | builtin i => exact ⟨s, hs, hk⟩
  | unit i =>
    obtain ⟨s', hs', -, hkind, -⟩ := ht i s hs
    exact ⟨s', hs', by rwa [hkind]⟩

theorem Has.get {t : Table} {id : SymbolId} (h : t.Has id) :
    ∃ s, t.get id = .ok s ∧ t.get? id = some s := by
  obtain ⟨s, hs, -⟩ := h
  exact ⟨s, by simp [Table.get, hs], hs⟩

theorem IsChild.has {t : Table} {i : Nat} {name : String} {id : SymbolId}
    (h : t.IsChild i name id) : t.Has id := by
  obtain ⟨k, c, rfl, hc, -, -, hk⟩ := h
  exact has_unit hc hk

theorem HasType.has {t : Table} {bound : Nat} {id : SymbolId} (h : t.HasType bound id) :
    t.Has id := by
  cases id with
  | builtin i =>
    have hi : builtinNames[i]? = some builtinNames[i] := List.getElem?_eq_getElem h
    exact ⟨.fresh builtinNames[i] .typeName none, by simp [get?, hi],
      SymbolKind.isNamed_typeName⟩
  | unit i =>
    obtain ⟨-, s, hs, hk⟩ := h
    exact has_unit hs (by rw [hk]; decide)

theorem builtin?_spec {name : String} {id : SymbolId} (h : builtin? name = some id) :
    ∃ i, id = .builtin i ∧ builtinNames[i]? = some name := by
  obtain ⟨i, hi, rfl⟩ := Option.map_eq_some_iff.mp h
  refine ⟨i, rfl, ?_⟩
  obtain ⟨hlt, heq, -⟩ := List.findIdx?_eq_some_iff_getElem.mp hi
  rw [List.getElem?_eq_getElem hlt]
  simpa using heq

/-- What a symbol has published is in the table. -/
theorem Rooted.isChild {t : Table} (h : t.Rooted) {i : Nat} {s : Symbol} {name : String}
    {id : SymbolId} (hs : t.symbols[i]? = some s) (hc : s.child? name = some id) :
    t.IsChild i name id := by
  obtain ⟨before, behind, hmem, -⟩ := List.lookup_eq_some_iff.mp hc
  exact h.child hs (by simp [hmem])

/-! ### The way to the root -/

theorem lineageUpTo_succ {t : Table} {n i : Nat} {s : Symbol} (h : t.symbols[i]? = some s) :
    t.lineageUpTo (n + 1) (.unit i) =
      .symbol (.unit i) s :: s.parent.elim [] (t.lineageUpTo n) := by
  have hget : t.get? (.unit i) = some s := h
  simp only [lineageUpTo, hget]
  cases s.parent <;> rfl

/-- The way is no longer than the number of symbols before its start. -/
theorem lineageUpTo_eq {t : Table} (ht : t.Rooted) {n m i : Nat} {s : Symbol}
    (h : t.symbols[i]? = some s) (hn : i < n) (hm : i < m) :
    t.lineageUpTo n (.unit i) = t.lineageUpTo m (.unit i) := by
  induction i using Nat.strongRecOn generalizing n m s with
  | ind i ih =>
    obtain ⟨n, rfl⟩ := Nat.exists_eq_succ_of_ne_zero (Nat.ne_of_gt (Nat.zero_lt_of_lt hn))
    obtain ⟨m, rfl⟩ := Nat.exists_eq_succ_of_ne_zero (Nat.ne_of_gt (Nat.zero_lt_of_lt hm))
    rw [lineageUpTo_succ h, lineageUpTo_succ h]
    by_cases hi : i = 0
    · subst hi
      obtain ⟨r, hr, -, -, hnone⟩ := ht.root
      obtain rfl : s = r := Option.some.inj (h.symm.trans hr)
      rw [hnone, Option.elim_none, Option.elim_none]
    · obtain ⟨j, hj, hp⟩ := ht.parent h hi
      have hlt := lt_size h
      obtain ⟨p, hpar⟩ := exists_symbol (t := t) (i := j) (by omega)
      have heq : t.lineageUpTo n (.unit j) = t.lineageUpTo m (.unit j) :=
        ih j hj hpar (by omega) (by omega)
      rw [hp, Option.elim_some, Option.elim_some, heq]

theorem lineage_unit {t : Table} (ht : t.Rooted) {i : Nat} {s : Symbol}
    (h : t.symbols[i]? = some s) (hi : i ≠ 0) :
    ∃ j, j < i ∧ s.parent = some (.unit j) ∧
      t.lineage (.unit i) = .symbol (.unit i) s :: t.lineage (.unit j) := by
  obtain ⟨j, hj, hp⟩ := ht.parent h hi
  have hlt := lt_size h
  obtain ⟨p, hpar⟩ := exists_symbol (t := t) (i := j) (by omega)
  refine ⟨j, hj, hp, ?_⟩
  rw [lineage, lineageUpTo_succ h, hp, Option.elim_some,
    lineageUpTo_eq ht hpar (n := t.symbols.size) (m := t.symbols.size + 1) (by omega) (by omega),
    lineage]

theorem lineage_root {t : Table} (ht : t.Rooted) {r : Symbol}
    (h : t.symbols[0]? = some r) : t.lineage root = [.symbol root r] := by
  obtain ⟨r', hr', -, -, hnone⟩ := ht.root
  obtain rfl : r = r' := Option.some.inj (h.symm.trans hr')
  have hup := lineageUpTo_succ (n := t.symbols.size) h
  rw [hnone] at hup
  exact hup

/-- The parent of a symbol comes before it, and the way to the root goes through it. -/
theorem Rooted.through_parent {t : Table} (ht : t.Rooted) {i : Nat} {s : Symbol} {scope : SymbolId}
    (hs : t.symbols[i]? = some s) (hp : s.parent = some scope) :
    ∃ j, scope = .unit j ∧ j < i ∧
      t.lineage (.unit i) = .symbol (.unit i) s :: t.lineage (.unit j) := by
  have hi : i ≠ 0 := by
    rintro rfl
    obtain ⟨r, hr, -, -, hnone⟩ := ht.root
    obtain rfl : s = r := Option.some.inj (hs.symm.trans hr)
    rw [hnone] at hp
    cases hp
  obtain ⟨j, hj, hparent, hway⟩ := lineage_unit ht hs hi
  exact ⟨j, Option.some.inj (hp.symm.trans hparent), hj, hway⟩

/-- A way that meets symbols of the table only, and ends at the root. -/
inductive Climbs (t : Table) : List Link → Prop
  | root {r : Symbol} (h : t.symbols[0]? = some r) : Climbs t [.symbol root r]
  | step {i : Nat} {s : Symbol} {rest : List Link} (h : t.symbols[i]? = some s)
      (hrest : Climbs t rest) : Climbs t (.symbol (.unit i) s :: rest)

theorem climbs_lineage {t : Table} (ht : t.Rooted) {i : Nat} (hi : i < t.symbols.size) :
    t.Climbs (t.lineage (.unit i)) := by
  induction i using Nat.strongRecOn with
  | ind i ih =>
    obtain ⟨s, hs⟩ := exists_symbol hi
    by_cases h0 : i = 0
    · subst h0
      have hroot := lineage_root ht hs
      rw [root] at hroot
      rw [hroot]
      exact .root hs
    · obtain ⟨j, hj, -, hway⟩ := lineage_unit ht hs h0
      rw [hway]
      exact .step hs (ih j hj (by omega))

theorem lineage_builtin {t : Table} {i : Nat} {name : String}
    (h : builtinNames[i]? = some name) :
    t.lineage (.builtin i) = [.symbol (.builtin i) (.fresh name .typeName none)] := by
  simp [lineage, lineageUpTo, get?, h, Symbol.fresh]

/-! ### Names -/

theorem searchAlong_meets {t : Table} (ht : t.Rooted) {name : String} {way : List Link}
    (hw : t.Climbs way) :
    Meets (fun found => ∀ id ∈ found, ∃ i, t.IsChild i name id) (fun _ => False)
      (searchAlong name way) := by
  induction hw with
  | @root r h =>
    unfold searchAlong
    split
    · rename_i child hc
      intro id hid
      obtain rfl : child = id := by simpa using hid
      exact ⟨0, ht.isChild h hc⟩
    · intro id hid
      cases hid
  | @step i s rest h _ ih =>
    unfold searchAlong
    split
    · rename_i child hc
      intro id hid
      obtain rfl : child = id := by simpa using hid
      exact ⟨i, ht.isChild h hc⟩
    · exact ih

/-- A name without dots means a symbol of the table, or is not declared. -/
theorem resolveName_meets {t : Table} (ht : t.Rooted) {i : Nat} (hi : i < t.symbols.size)
    (name : String) :
    Meets t.Has (fun cause => cause = .unresolvedSymbol name) (t.resolveName (.unit i) name) := by
  obtain ⟨found, hfound, hchild⟩ :=
    Meets.exists_ok (searchAlong_meets ht (climbs_lineage ht hi))
  unfold resolveName
  rw [hfound]
  cases found with
  | some id =>
    obtain ⟨j, hc⟩ := hchild id (by simp)
    exact hc.has
  | none =>
    cases hb : builtin? name with
    | none => rfl
    | some id =>
      obtain ⟨k, rfl, hk⟩ := builtin?_spec hb
      exact ⟨.fresh name .typeName none, by simp [get?, hk],
        SymbolKind.isNamed_typeName⟩

/-- The symbols on the way are those of the table, from the start of the way to the root. -/
theorem symbolsAlong_climbs {t : Table} {way : List Link} (hw : t.Climbs way) :
    ∃ found, symbolsAlong way = .ok found ∧ (found.getLast?).map (·.1) = some root ∧
      found ≠ [] ∧ ∀ link ∈ found, t.get? link.1 = some link.2 := by
  induction hw with
  | @root r h =>
    have hget : t.get? root = some r := h
    exact ⟨[(root, r)], rfl, rfl, by simp, by simpa using hget⟩
  | @step i s rest h _ ih =>
    obtain ⟨found, hfound, hlast, hne, hall⟩ := ih
    refine ⟨(.unit i, s) :: found, ?_, ?_, by simp, ?_⟩
    · simp [symbolsAlong, hfound, bind, Except.bind, pure, Except.pure]
    · rw [List.getLast?_cons_of_ne_nil hne, hlast]
    · intro link hlink
      rcases List.mem_cons.mp hlink with rfl | hlink
      · exact h
      · exact hall link hlink

theorem rootOf_unit {t : Table} (ht : t.Rooted) {i : Nat} (hi : i < t.symbols.size) :
    t.rootOf (.unit i) = .ok root := by
  obtain ⟨found, hfound, hlast, -, -⟩ := symbolsAlong_climbs (climbs_lineage ht hi)
  simp [rootOf, hfound, hlast, bind, Except.bind, pure, Except.pure]

theorem descend_meets {t : Table} (ht : t.Rooted) (name : String) {id : SymbolId}
    (hid : t.Has id) (path : List String) :
    Meets t.Has (fun cause => cause = .unresolvedSymbol name) (t.descend name id path) := by
  induction path generalizing id with
  | nil => exact hid
  | cons part rest ih =>
    obtain ⟨s, hget, hs⟩ := hid.get
    unfold descend
    rw [hget]
    simp only [bind, Except.bind]
    split
    · rename_i child hc
      cases id with
      | unit i => exact ih (ht.isChild hs hc).has
      | builtin i =>
        obtain ⟨builtin, -, rfl⟩ := Option.map_eq_some_iff.mp hs
        simp [Symbol.fresh, Symbol.child?] at hc
    · rfl

/-- A name, possibly dotted, means a symbol of the table, or is not declared. -/
theorem resolveFullName_meets {t : Table} (ht : t.Rooted) {i : Nat}
    (hi : i < t.symbols.size) (name : String) :
    Meets t.Has (fun cause => cause = .unresolvedSymbol name)
      (t.resolveFullName (.unit i) name) := by
  unfold resolveFullName
  split
  · rename_i first second rest _
    rw [rootOf_unit ht hi]
    have hsize : 0 < t.symbols.size := by omega
    have hstart : Meets t.Has (fun cause => cause = .unresolvedSymbol name)
        ((t.resolveName root first).mapError (underName name)) :=
      (resolveName_meets ht hsize first).mapError fun cause hc => by rw [hc]; rfl
    exact hstart.bind fun start hs => descend_meets ht name hs _
  · exact resolveName_meets ht hi name

/-! ### Types -/

theorem typeNamed_meets {t : Table} (ht : t.WellFormed) {i : Nat} (hi : i < t.symbols.size)
    (name : String) :
    Meets (·.Within t t.symbols.size) Cause.IsBinding (t.typeNamed (.unit i) name) := by
  unfold typeNamed
  have hname := (resolveFullName_meets ht.toRooted hi name).mono (fun _ h => h)
    (F := Cause.IsBinding) fun cause hc => by subst hc; trivial
  refine hname.bind fun id hid => ?_
  obtain ⟨s, hget, hs⟩ := hid.get
  rw [hget]
  simp only [bind, Except.bind]
  split
  · rename_i hk
    cases id with
    | builtin k =>
      obtain ⟨builtin, hb, -⟩ := Option.map_eq_some_iff.mp hs
      exact (List.getElem?_eq_some_iff.mp hb).1
    | unit k => exact ⟨lt_size hs, s, hs, hk⟩
  · trivial

theorem qualified_meets {t : Table} {bound : Nat} {typing : Typing} (h : typing.Within t bound)
    (q : Qualifier) : Meets (·.Within t bound) Cause.IsBinding (typing.qualified q) := by
  cases typing with
  | ref symbol qualifiers => exact h
  | signature params returns variadic => trivial

mutual

/-- A type as written means one whose names the table has, or its names are at fault. -/
theorem typingOf_meets {t : Table} (ht : t.WellFormed) {i : Nat} (hi : i < t.symbols.size) :
    (type : TypeExpr) →
      Meets (·.Within t t.symbols.size) Cause.IsBinding (t.typingOf (.unit i) type)
  | .name _ _ => typeNamed_meets ht hi _
  | .pointer pointee _ => (typingOf_meets ht hi pointee).bind fun _ h => qualified_meets h _
  | .array _ element _ => (typingOf_meets ht hi element).bind fun _ h => qualified_meets h _
  | .slice element _ => (typingOf_meets ht hi element).bind fun _ h => qualified_meets h _
  | .func params returns _ =>
    (typingsOf_meets ht hi params).bind fun _ hp =>
      (typingOf_meets ht hi returns).bind fun _ hr => ⟨hp, hr⟩

theorem typingsOf_meets {t : Table} (ht : t.WellFormed) {i : Nat} (hi : i < t.symbols.size) :
    (types : List TypeExpr) →
      Meets (Typing.AllWithin t t.symbols.size) Cause.IsBinding (t.typingsOf (.unit i) types)
  | [] => trivial
  | type :: rest =>
    (typingOf_meets ht hi type).bind fun _ h =>
      (typingsOf_meets ht hi rest).bind fun _ hr => ⟨h, hr⟩

end

theorem unaliasUpTo_ok {t : Table} (ht : t.WellFormed) {n bound : Nat} {typing : Typing}
    (h : typing.Within t bound) : ∃ found, t.unaliasUpTo n typing = .ok found := by
  induction n generalizing typing bound with
  | zero => exact ⟨typing, by cases typing <;> simp [unaliasUpTo]⟩
  | succ n ih =>
    cases typing with
    | signature params returns variadic => exact ⟨_, rfl⟩
    | ref symbol qualifiers =>
      cases qualifiers with
      | cons q qs => exact ⟨_, rfl⟩
      | nil =>
        obtain ⟨s, hget, hs⟩ := (HasType.has h).get
        unfold unaliasUpTo
        rw [hget]
        simp only [bind, Except.bind]
        split
        · rename_i aliased hk hty
          cases symbol with
          | unit k => exact ih (ht.typing hs hty)
          | builtin k =>
            obtain ⟨builtin, -, rfl⟩ := Option.map_eq_some_iff.mp hs
            cases hty
        · exact ⟨_, rfl⟩

/-- Whether a symbol can be called is always known. -/
theorem isCallable_ok {t : Table} (ht : t.WellFormed) {id : SymbolId} (h : t.Has id) :
    ∃ callable, t.isCallable id = .ok callable := by
  obtain ⟨s, hget, hs⟩ := h.get
  unfold isCallable
  rw [hget]
  simp only [bind, Except.bind]
  cases hty : s.typing with
  | none => exact ⟨_, rfl⟩
  | some typing =>
    cases id with
    | builtin k =>
      obtain ⟨builtin, -, rfl⟩ := Option.map_eq_some_iff.mp hs
      cases hty
    | unit k =>
      obtain ⟨found, hfound⟩ := unaliasUpTo_ok ht (n := t.symbols.size + 1) (ht.typing hs hty)
      simp only [unalias, hfound]
      exact ⟨_, rfl⟩

end Table
end BlockC

import BlockC.Bound.Context
import BlockC.Proofs.TableLookup

/-! # Frames of names

A plain view of the scopes that are open: a stack of frames, each with the names that a scope has
published.  A name means what the innermost frame that has it says, and a built-in type if none has
it (`Frames.resolve`).  That is what the search from the innermost scope to the root finds
(`resolveName_eq_resolve`).
-/
namespace BlockC

/-- The names of the open scopes with what they mean, the innermost scope first. -/
abbrev Frames := List (List (String × SymbolId))

namespace Frames

/-- What the innermost frame that has the name says. -/
def find (frames : Frames) (name : String) : Option SymbolId :=
  frames.findSome? (·.lookup name)

/-- What a name means: a built-in type only if no frame has it. -/
def resolve (frames : Frames) (name : String) : Option SymbolId :=
  (frames.find name).or (builtin? name)

/-- A further name in the innermost frame. -/
def add (frames : Frames) (name : String) (symbol : SymbolId) : Frames :=
  match frames with
  | [] => []
  | frame :: rest => (frame ++ [(name, symbol)]) :: rest

/-- Whether the innermost frame has the name. -/
def declares (frames : Frames) (name : String) : Bool :=
  frames.head?.any fun frame => (frame.lookup name).isSome

end Frames

namespace Table

/-- What a scope has published. -/
def published (t : Table) (scope : SymbolId) : List (String × SymbolId) :=
  (t.get? scope).elim [] (·.children)

/-- The frames of the given scopes. -/
def frames (t : Table) (scopes : List SymbolId) : Frames :=
  scopes.map t.published

theorem published_unit {t : Table} {i : Nat} {s : Symbol} (h : t.symbols[i]? = some s) :
    t.published (.unit i) = s.children := by
  have hget : t.get? (.unit i) = some s := h
  rw [published, hget]
  rfl

/-- A scope other than the one that grows publishes nothing. -/
theorem Grows.published {scope : SymbolId} {t t' : Table} (h : Grows scope t t') {i : Nat}
    (hi : i < t.symbols.size) (hne : scope ≠ .unit i) :
    t'.published (.unit i) = t.published (.unit i) := by
  obtain ⟨s, hs⟩ := exists_symbol hi
  rw [published_unit hs, published_unit (h.symbol hs hne)]

end Table

/-- Scopes that each have the next one as their parent, the last of which is the root. -/
inductive Nested (t : Table) : List SymbolId → Prop
  | root : Nested t [Table.root]
  | step {i : Nat} {s : Symbol} {parent : SymbolId} {rest : List SymbolId}
      (hs : t.symbols[i]? = some s) (hp : s.parent = some parent)
      (hrest : Nested t (parent :: rest)) : Nested t (.unit i :: parent :: rest)

theorem Nested.mono {t t' : Table} (ht : t.Keeps t') {scopes : List SymbolId}
    (h : Nested t scopes) : Nested t' scopes := by
  induction h with
  | root => exact .root
  | step hs hp _ ih =>
    obtain ⟨s', hs', -, -, hp'⟩ := ht _ _ hs
    exact .step hs' (hp'.trans hp) ih

/-- A scope comes after those around it in the table. -/
theorem Nested.indices {t : Table} (ht : t.Rooted) {scopes : List SymbolId} (h : Nested t scopes) :
    ∃ c rest, scopes = .unit c :: rest ∧ c < t.symbols.size ∧
      ∀ id ∈ rest, ∃ i, id = .unit i ∧ i < c := by
  induction h with
  | root =>
    obtain ⟨r, hr, -⟩ := ht.root
    exact ⟨0, [], rfl, Table.lt_size hr, by simp⟩
  | @step i s parent rest hs hp _ ih =>
    obtain ⟨j, rest', heq, -, hbelow⟩ := ih
    obtain ⟨rfl, rfl⟩ := List.cons.inj heq
    obtain ⟨k, hk, hj, -⟩ := ht.through_parent hs hp
    cases hk
    refine ⟨i, _, rfl, Table.lt_size hs, fun id hid => ?_⟩
    rcases List.mem_cons.mp hid with rfl | hid
    · exact ⟨j, rfl, hj⟩
    · obtain ⟨l, rfl, hl⟩ := hbelow id hid
      exact ⟨l, rfl, by omega⟩

theorem Nested.mem_lt {t : Table} (ht : t.Rooted) {scopes : List SymbolId} (h : Nested t scopes)
    {id : SymbolId} (hid : id ∈ scopes) : ∃ i, id = .unit i ∧ i < t.symbols.size := by
  obtain ⟨c, rest, rfl, hc, hbelow⟩ := h.indices ht
  rcases List.mem_cons.mp hid with rfl | hid
  · exact ⟨c, rfl, hc⟩
  · obtain ⟨i, rfl, hi⟩ := hbelow id hid
    exact ⟨i, rfl, by omega⟩

/-- A symbol that is not there yet is no open scope. -/
theorem Nested.not_mem {t : Table} (ht : t.Rooted) {scopes : List SymbolId} (h : Nested t scopes)
    {i : Nat} (hi : t.symbols.size ≤ i) : .unit i ∉ scopes := by
  intro hmem
  obtain ⟨j, hj, hlt⟩ := h.mem_lt ht hmem
  cases hj
  omega

namespace Table

/-- The search to the root goes through the frames of the scopes on the way. -/
theorem searchAlong_eq_find {t : Table} (ht : t.Rooted) {name : String} {scope : SymbolId}
    {rest : List SymbolId} (h : Nested t (scope :: rest)) :
    searchAlong name (t.lineage scope) = .ok ((t.frames (scope :: rest)).find name) := by
  generalize hscopes : scope :: rest = scopes at h
  induction h generalizing scope rest with
  | root =>
    obtain ⟨rfl, rfl⟩ := List.cons.inj hscopes
    obtain ⟨r, hr, -⟩ := ht.root
    rw [lineage_root ht hr, searchAlong]
    have hframes : (t.frames [root]).find name = r.child? name := by
      rw [frames, List.map_singleton, root, published_unit hr]
      unfold Frames.find Symbol.child?
      rw [List.findSome?_cons]
      cases r.children.lookup name <;> rfl
    rw [hframes]
    cases r.child? name <;> rfl
  | @step i s parent rest' hs hp hrest ih =>
    obtain ⟨rfl, rfl⟩ := List.cons.inj hscopes
    obtain ⟨j, rfl, -, hway⟩ := ht.through_parent hs hp
    have hframes : (t.frames (.unit i :: .unit j :: rest')).find name =
        (s.child? name).or ((t.frames (.unit j :: rest')).find name) := by
      rw [frames, List.map_cons, published_unit hs]
      unfold Frames.find Symbol.child?
      rw [List.findSome?_cons]
      cases s.children.lookup name <;> rfl
    rw [hway, searchAlong, hframes, ih rfl]
    cases s.child? name <;> rfl

/-- **Looking a name up from a scope to the root is looking it up in the frames.** -/
theorem resolveName_eq_resolve {t : Table} (ht : t.Rooted) {scope : SymbolId}
    {rest : List SymbolId} (h : Nested t (scope :: rest)) (name : String) :
    t.resolveName scope name = ((t.frames (scope :: rest)).resolve name).elim
      (.error (.unresolvedSymbol name)) .ok := by
  unfold resolveName
  rw [searchAlong_eq_find ht h]
  simp only [bind, Except.bind, Frames.resolve]
  cases (t.frames (scope :: rest)).find name with
  | some id => rfl
  | none => cases builtin? name <;> rfl

/-! ### How frames change -/

/-- Open scopes keep their frames if it is none of them that grows. -/
theorem frames_of_grows {t t' : Table} (ht : t.Rooted) {scopes : List SymbolId}
    (h : Nested t scopes) {scope : SymbolId} (hg : Grows scope t t') (hscope : scope ∉ scopes) :
    t'.frames scopes = t.frames scopes := by
  refine List.map_congr_left fun id hid => ?_
  obtain ⟨i, rfl, hi⟩ := h.mem_lt ht hid
  refine hg.published hi ?_
  rintro rfl
  exact hscope hid

/-- What the innermost scope publishes is added to its frame. -/
theorem frames_add {t t' : Table} (ht : t.Rooted) {c : Nat} {rest : List SymbolId} {cs : Symbol}
    (h : Nested t (.unit c :: rest)) (hg : Grows (.unit c) t t') (hcs : t.symbols[c]? = some cs)
    {name : String} {id : SymbolId} {cs' : Symbol} (hcs' : t'.symbols[c]? = some cs')
    (hadd : cs'.children = cs.children ++ [(name, id)]) :
    t'.frames (.unit c :: rest) = (t.frames (.unit c :: rest)).add name id := by
  obtain ⟨c', rest', heq, hc, hbelow⟩ := h.indices ht
  obtain ⟨hcc, rfl⟩ := List.cons.inj heq
  cases hcc
  have hrest : rest.map t'.published = rest.map t.published := by
    refine List.map_congr_left fun x hx => ?_
    obtain ⟨i, rfl, hi⟩ := hbelow x hx
    refine hg.published (by omega) fun heq => ?_
    cases heq
    omega
  unfold frames Frames.add
  rw [List.map_cons, List.map_cons, published_unit hcs, published_unit hcs', hadd, hrest]

/-- Frames do not depend on anything about a symbol but its children. -/
theorem frames_replace {t : Table} {i : Nat} {s new : Symbol} (hs : t.symbols[i]? = some s)
    (hc : new.children = s.children) (scopes : List SymbolId) :
    (t.replace i new).frames scopes = t.frames scopes := by
  refine List.map_congr_left fun id _ => ?_
  cases id with
  | builtin k => rfl
  | unit k =>
    have hget : (t.replace i new).get? (.unit k) = if k = i then some new else t.get? (.unit k) :=
      symbols_replace hs new k
    unfold published
    rw [hget]
    by_cases hk : k = i
    · subst hk
      have hold : t.get? (.unit k) = some s := hs
      rw [if_pos rfl, hold]
      exact hc
    · rw [if_neg hk]

end Table

/-- The frames of the open scopes. -/
def Context.frames (ctx : Context) : Frames :=
  ctx.table.frames ctx.scopes

end BlockC

import BlockC.Symbol.TypeLookup

/-! # Tables in order

A table is in order (`Table.WellFormed`) if parents come before their children, what a symbol has
published is its own, and the types of a symbol were known before it.  Tables only ever grow: a
later table has every symbol of an earlier one (`Table.Keeps`), and at most one scope of it has
published more (`Table.Grows`).
-/
namespace BlockC

/-- The kinds of symbol that a program can name: all but the root and blocks. -/
def SymbolKind.IsNamed (kind : SymbolKind) : Prop :=
  kind ≠ .root ∧ kind ≠ .block

instance (kind : SymbolKind) : Decidable kind.IsNamed :=
  inferInstanceAs (Decidable (_ ∧ _))

theorem SymbolKind.isNamed_typeName : SymbolKind.typeName.IsNamed := by
  decide

theorem SymbolKind.isNamed_func : SymbolKind.func.IsNamed := by
  decide

/-- Every symbol stays, with its name, kind and parent. -/
def Table.Keeps (t t' : Table) : Prop :=
  ∀ (i : Nat) (s : Symbol), t.symbols[i]? = some s → ∃ s' : Symbol, t'.symbols[i]? = some s' ∧
    s'.name = s.name ∧ s'.kind = s.kind ∧ s'.parent = s.parent

/-! ### Typings of a table -/

/-- A handle that refers to a type, one of the first `bound` symbols if it is of the unit. -/
def Table.HasType (t : Table) (bound : Nat) : SymbolId → Prop
  | .builtin i => i < builtinNames.length
  | .unit i => i < bound ∧ ∃ s, t.symbols[i]? = some s ∧ s.kind = .typeName

mutual

/-- A typing whose names are types among the first `bound` symbols. -/
def Typing.Within (t : Table) (bound : Nat) : Typing → Prop
  | .ref symbol _ => t.HasType bound symbol
  | .signature params returns _ => Typing.AllWithin t bound params ∧ returns.Within t bound

/-- Typings whose names are types among the first `bound` symbols. -/
def Typing.AllWithin (t : Table) (bound : Nat) : List Typing → Prop
  | [] => True
  | typing :: rest => typing.Within t bound ∧ Typing.AllWithin t bound rest

end

theorem Table.HasType.mono {t t' : Table} {b b' : Nat} {id : SymbolId} (ht : t.Keeps t')
    (hb : b ≤ b') (h : t.HasType b id) : t'.HasType b' id := by
  cases id with
  | builtin i => exact h
  | unit i =>
    obtain ⟨hi, s, hs, hk⟩ := h
    obtain ⟨s', hs', -, hk', -⟩ := ht i s hs
    exact ⟨Nat.lt_of_lt_of_le hi hb, s', hs', hk'.trans hk⟩

mutual

theorem Typing.Within.mono {t t' : Table} {b b' : Nat} (ht : t.Keeps t') (hb : b ≤ b') :
    {typing : Typing} → typing.Within t b → typing.Within t' b'
  | .ref _ _, h => Table.HasType.mono ht hb h
  | .signature _ _ _, h => ⟨Typing.AllWithin.mono ht hb h.1, Typing.Within.mono ht hb h.2⟩

theorem Typing.AllWithin.mono {t t' : Table} {b b' : Nat} (ht : t.Keeps t') (hb : b ≤ b') :
    {typings : List Typing} → Typing.AllWithin t b typings → Typing.AllWithin t' b' typings
  | [], _ => trivial
  | _ :: _, h => ⟨Typing.Within.mono ht hb h.1, Typing.AllWithin.mono ht hb h.2⟩

end

theorem Table.HasType.shrink {t : Table} {b k : Nat} {id : SymbolId}
    (hk : ∀ (i : Nat) (s : Symbol), k ≤ i → t.symbols[i]? = some s → s.kind ≠ .typeName)
    (h : t.HasType b id) : t.HasType k id := by
  cases id with
  | builtin i => exact h
  | unit i =>
    obtain ⟨-, s, hs, hkind⟩ := h
    refine ⟨Nat.lt_of_not_le fun hi => hk i s hi hs hkind, s, hs, hkind⟩

mutual

/-- Where no type was declared since, a typing is one of before. -/
theorem Typing.Within.shrink {t : Table} {b k : Nat}
    (hk : ∀ (i : Nat) (s : Symbol), k ≤ i → t.symbols[i]? = some s → s.kind ≠ .typeName) :
    {typing : Typing} → typing.Within t b → typing.Within t k
  | .ref _ _, h => Table.HasType.shrink hk h
  | .signature _ _ _, h => ⟨Typing.AllWithin.shrink hk h.1, Typing.Within.shrink hk h.2⟩

theorem Typing.AllWithin.shrink {t : Table} {b k : Nat}
    (hk : ∀ (i : Nat) (s : Symbol), k ≤ i → t.symbols[i]? = some s → s.kind ≠ .typeName) :
    {typings : List Typing} → Typing.AllWithin t b typings → Typing.AllWithin t k typings
  | [], _ => trivial
  | _ :: _, h => ⟨Typing.Within.shrink hk h.1, Typing.AllWithin.shrink hk h.2⟩

end

theorem Typing.allWithin_of_forall {t : Table} {b : Nat} {typings : List Typing}
    (h : ∀ typing ∈ typings, typing.Within t b) : Typing.AllWithin t b typings := by
  induction typings with
  | nil => trivial
  | cons typing rest ih => exact ⟨h typing (by simp), ih fun x hx => h x (by simp [hx])⟩

namespace Table

theorem Keeps.refl (t : Table) : t.Keeps t :=
  fun _ s h => ⟨s, h, rfl, rfl, rfl⟩

theorem Keeps.trans {t t' t'' : Table} (h : t.Keeps t') (h' : t'.Keeps t'') : t.Keeps t'' := by
  intro i s hs
  obtain ⟨s', hs', hn, hk, hp⟩ := h i s hs
  obtain ⟨s'', hs'', hn', hk', hp'⟩ := h' i s' hs'
  exact ⟨s'', hs'', hn'.trans hn, hk'.trans hk, hp'.trans hp⟩

theorem lt_size {t : Table} {i : Nat} {s : Symbol} (h : t.symbols[i]? = some s) :
    i < t.symbols.size :=
  (Array.getElem?_eq_some_iff.mp h).1

theorem exists_symbol {t : Table} {i : Nat} (h : i < t.symbols.size) :
    ∃ s, t.symbols[i]? = some s :=
  ⟨t.symbols[i], Array.getElem?_eq_getElem h⟩

theorem Keeps.size_le {t t' : Table} (h : t.Keeps t') : t.symbols.size ≤ t'.symbols.size := by
  refine Nat.le_of_not_lt fun hlt => ?_
  obtain ⟨s, hs⟩ := exists_symbol (t := t) (i := t'.symbols.size) hlt
  obtain ⟨s', hs', -⟩ := h _ s hs
  exact Nat.lt_irrefl _ (lt_size hs')

/-! ### Well-formed tables -/

/-- A handle of a symbol of the given name whose parent is the `i`-th symbol. -/
def IsChild (t : Table) (i : Nat) (name : String) (id : SymbolId) : Prop :=
  ∃ (k : Nat) (c : Symbol), id = .unit k ∧ t.symbols[k]? = some c ∧ c.name = name ∧
    c.parent = some (.unit i) ∧ c.kind.IsNamed

theorem IsChild.mono {t t' : Table} (ht : t.Keeps t') {i : Nat} {name : String} {id : SymbolId}
    (h : t.IsChild i name id) : t'.IsChild i name id := by
  obtain ⟨k, c, rfl, hc, hname, hparent, hkind⟩ := h
  obtain ⟨c', hc', hname', hkind', hparent'⟩ := ht k c hc
  exact ⟨k, c', rfl, hc', hname'.trans hname, hparent'.trans hparent, by rwa [hkind']⟩

/-- The symbols of a table are a tree, and what is published follows it. -/
structure Rooted (t : Table) : Prop where
  /-- The first symbol is the root, which has no parent. -/
  root : ∃ s : Symbol, t.symbols[0]? = some s ∧ s.name = rootName ∧ s.kind = .root ∧
    s.parent = none
  /-- Every other symbol has a parent that was there before it. -/
  parent : ∀ {i : Nat} {s : Symbol}, t.symbols[i]? = some s → i ≠ 0 →
    ∃ j, j < i ∧ s.parent = some (.unit j)
  /-- What a symbol has published is a symbol of that name whose parent it is, and that can be
  named. -/
  child : ∀ {i : Nat} {s : Symbol} {name : String} {id : SymbolId}, t.symbols[i]? = some s →
    (name, id) ∈ s.children → t.IsChild i name id

/-- What holds of every table that is built by binding a program. -/
structure WellFormed (t : Table) : Prop extends Rooted t where
  /-- No symbol has published two of a name. -/
  distinct : ∀ {i : Nat} {s : Symbol}, t.symbols[i]? = some s → (s.children.map (·.1)).Nodup
  /-- The types of a symbol were known before it. -/
  typing : ∀ {i : Nat} {s : Symbol} {typing : Typing}, t.symbols[i]? = some s →
    s.typing = some typing → typing.Within t i

theorem wellFormed_empty : empty.WellFormed := by
  have hsymbol {i : Nat} {s : Symbol} (h : empty.symbols[i]? = some s) :
      i = 0 ∧ s = .fresh rootName .root none := by
    cases i with
    | zero => exact ⟨rfl, by simpa [empty] using h.symm⟩
    | succ i => simp [empty] at h
  refine ⟨⟨⟨_, rfl, rfl, rfl, rfl⟩, ?_, ?_⟩, ?_, ?_⟩
  · intro i s h hi
    exact absurd (hsymbol h).1 hi
  · intro i s name id h hmem
    rw [(hsymbol h).2] at hmem
    simp [Symbol.fresh] at hmem
  · intro i s h
    rw [(hsymbol h).2]
    simp [Symbol.fresh]
  · intro i s typing h hty
    rw [(hsymbol h).2] at hty
    simp [Symbol.fresh] at hty

/-! ### A further symbol -/

/-- The table with a further symbol. -/
def extend (t : Table) (s : Symbol) : Table :=
  ⟨t.symbols.push s⟩

@[simp] theorem size_extend (t : Table) (s : Symbol) :
    (t.extend s).symbols.size = t.symbols.size + 1 := by
  simp [extend]

theorem size_lt_create (t : Table) (name : String) (kind : SymbolKind) (parent : SymbolId) :
    t.symbols.size < (t.create name kind parent).2.symbols.size := by
  rw [create]
  simp

theorem symbols_extend (t : Table) (s : Symbol) (i : Nat) :
    (t.extend s).symbols[i]? = if i = t.symbols.size then some s else t.symbols[i]? := by
  simp [extend, Array.getElem?_push]

@[simp] theorem symbols_extend_last (t : Table) (s : Symbol) :
    (t.extend s).symbols[t.symbols.size]? = some s := by
  rw [symbols_extend, if_pos rfl]

theorem symbols_extend_of_some {t : Table} {i : Nat} {s : Symbol} (h : t.symbols[i]? = some s)
    (new : Symbol) : (t.extend new).symbols[i]? = some s := by
  have hi := lt_size h
  rw [symbols_extend, if_neg (by omega), h]

theorem keeps_extend (t : Table) (s : Symbol) : t.Keeps (t.extend s) :=
  fun _ old h => ⟨old, symbols_extend_of_some h s, rfl, rfl, rfl⟩

theorem symbols_extend_cases {t : Table} {s x : Symbol} {i : Nat}
    (h : (t.extend s).symbols[i]? = some x) :
    (i = t.symbols.size ∧ x = s) ∨ t.symbols[i]? = some x := by
  rw [symbols_extend] at h
  split at h
  · exact Or.inl ⟨by assumption, (Option.some.inj h).symm⟩
  · exact Or.inr h

/-- A further symbol without children keeps the tree. -/
theorem Rooted.extend {t : Table} (h : t.Rooted) {s : Symbol} {p : Nat}
    (hparent : s.parent = some (.unit p)) (hp : p < t.symbols.size) (hc : s.children = []) :
    (t.extend s).Rooted := by
  refine ⟨?_, ?_, ?_⟩
  · obtain ⟨r, hr, hrest⟩ := h.root
    exact ⟨r, symbols_extend_of_some hr s, hrest⟩
  · intro i x hx hi
    rcases symbols_extend_cases hx with ⟨rfl, rfl⟩ | hx
    · exact ⟨p, hp, hparent⟩
    · exact h.parent hx hi
  · intro i x name id hx hmem
    rcases symbols_extend_cases hx with ⟨rfl, rfl⟩ | hx
    · rw [hc] at hmem
      cases hmem
    · exact (h.child hx hmem).mono (keeps_extend t s)

/-- A further symbol without children keeps a table in order. -/
theorem WellFormed.extend {t : Table} (h : t.WellFormed) {s : Symbol} {p : Nat}
    (hparent : s.parent = some (.unit p)) (hp : p < t.symbols.size) (hc : s.children = [])
    (htyping : ∀ typing, s.typing = some typing → typing.Within t t.symbols.size) :
    (t.extend s).WellFormed := by
  have hkeep := keeps_extend t s
  refine ⟨h.toRooted.extend hparent hp hc, ?_, ?_⟩
  · intro i x hx
    rcases symbols_extend_cases hx with ⟨rfl, rfl⟩ | hx
    · simp [hc]
    · exact h.distinct hx
  · intro i x typing hx hty
    rcases symbols_extend_cases hx with ⟨rfl, rfl⟩ | hx
    · exact (htyping typing hty).mono hkeep (Nat.le_refl _)
    · exact (h.typing hx hty).mono hkeep (Nat.le_refl _)

/-! ### Another symbol in place of one -/

/-- The table with another symbol in place of the `i`-th one. -/
def replace (t : Table) (i : Nat) (s : Symbol) : Table :=
  ⟨t.symbols.setIfInBounds i s⟩

@[simp] theorem size_replace (t : Table) (i : Nat) (s : Symbol) :
    (t.replace i s).symbols.size = t.symbols.size := by
  simp [replace]

theorem symbols_replace {t : Table} {i : Nat} {s : Symbol} (h : t.symbols[i]? = some s)
    (new : Symbol) (j : Nat) :
    (t.replace i new).symbols[j]? = if j = i then some new else t.symbols[j]? := by
  have hi := lt_size h
  by_cases hj : j = i
  · subst hj
    simp [replace, hi]
  · rw [if_neg hj]
    simp [replace, Ne.symm hj]

theorem keeps_replace {t : Table} {i : Nat} {s new : Symbol} (h : t.symbols[i]? = some s)
    (hname : new.name = s.name) (hkind : new.kind = s.kind) (hparent : new.parent = s.parent) :
    t.Keeps (t.replace i new) := by
  intro j old hold
  rw [symbols_replace h]
  by_cases hj : j = i
  · subst hj
    obtain rfl : s = old := Option.some.inj (h.symm.trans hold)
    exact ⟨new, by simp, hname, hkind, hparent⟩
  · exact ⟨old, by simp [hj, hold], rfl, rfl, rfl⟩

theorem symbols_replace_cases {t : Table} {i j : Nat} {s new x : Symbol}
    (hs : t.symbols[i]? = some s) (h : (t.replace i new).symbols[j]? = some x) :
    (j = i ∧ x = new) ∨ t.symbols[j]? = some x := by
  rw [symbols_replace hs] at h
  split at h
  · exact Or.inl ⟨by assumption, (Option.some.inj h).symm⟩
  · exact Or.inr h

/-- Another symbol of the same name, kind and parent keeps the tree, if it publishes symbols of its
own. -/
theorem Rooted.replace {t : Table} (h : t.Rooted) {i : Nat} {s new : Symbol}
    (hs : t.symbols[i]? = some s) (hname : new.name = s.name) (hkind : new.kind = s.kind)
    (hparent : new.parent = s.parent)
    (hchild : ∀ name id, (name, id) ∈ new.children → t.IsChild i name id) :
    (t.replace i new).Rooted := by
  have hkeep := keeps_replace hs hname hkind hparent
  refine ⟨?_, ?_, ?_⟩
  · obtain ⟨r, hr, hn, hk, hp⟩ := h.root
    obtain ⟨r', hr', hname', hkind', hparent'⟩ := hkeep 0 r hr
    exact ⟨r', hr', hname'.trans hn, hkind'.trans hk, hparent'.trans hp⟩
  · intro j x hx hj
    rcases symbols_replace_cases hs hx with ⟨rfl, rfl⟩ | hx
    · rw [hparent]
      exact h.parent hs hj
    · exact h.parent hx hj
  · intro j x name id hx hmem
    rcases symbols_replace_cases hs hx with ⟨rfl, rfl⟩ | hx
    · exact (hchild name id hmem).mono hkeep
    · exact (h.child hx hmem).mono hkeep

/-- Another symbol of the same name, kind and parent keeps a table in order, if what it publishes
and its type are in order. -/
theorem WellFormed.replace {t : Table} (h : t.WellFormed) {i : Nat} {s new : Symbol}
    (hs : t.symbols[i]? = some s) (hname : new.name = s.name) (hkind : new.kind = s.kind)
    (hparent : new.parent = s.parent)
    (hchild : ∀ name id, (name, id) ∈ new.children → t.IsChild i name id)
    (hdistinct : (new.children.map (·.1)).Nodup)
    (htyping : ∀ typing, new.typing = some typing → typing.Within t i) :
    (t.replace i new).WellFormed := by
  have hkeep := keeps_replace hs hname hkind hparent
  refine ⟨h.toRooted.replace hs hname hkind hparent hchild, ?_, ?_⟩
  · intro j x hx
    rcases symbols_replace_cases hs hx with ⟨rfl, rfl⟩ | hx
    · exact hdistinct
    · exact h.distinct hx
  · intro j x typing hx hty
    rcases symbols_replace_cases hs hx with ⟨rfl, rfl⟩ | hx
    · exact (htyping typing hty).mono hkeep (Nat.le_refl _)
    · exact (h.typing hx hty).mono hkeep (Nat.le_refl _)

theorem update_unit {t : Table} {i : Nat} {s : Symbol} (h : t.symbols[i]? = some s)
    (f : Symbol → Except Cause Symbol) : t.update (.unit i) f = (f s).map (t.replace i) := by
  simp only [update, h]
  rfl

/-! ### Growing tables -/

/-- Every symbol stays as it is, but for further children in the given scope. -/
def Grows (scope : SymbolId) (t t' : Table) : Prop :=
  ∀ (i : Nat) (s : Symbol), t.symbols[i]? = some s → ∃ new,
    t'.symbols[i]? = some { s with children := s.children ++ new } ∧ (scope ≠ .unit i → new = [])

theorem Grows.refl (scope : SymbolId) (t : Table) : t.Grows scope t :=
  fun _ _ h => ⟨[], by simpa using h, fun _ => rfl⟩

theorem Grows.keeps {scope : SymbolId} {t t' : Table} (h : Grows scope t t') : t.Keeps t' := by
  intro i s hs
  obtain ⟨new, hs', -⟩ := h i s hs
  exact ⟨_, hs', rfl, rfl, rfl⟩

theorem Grows.symbol {scope : SymbolId} {t t' : Table} (h : Grows scope t t') {i : Nat}
    {s : Symbol} (hs : t.symbols[i]? = some s) (hi : scope ≠ .unit i) :
    t'.symbols[i]? = some s := by
  obtain ⟨new, hs', hnew⟩ := h i s hs
  simpa [hnew hi] using hs'

/-- The scope may change in between to one that was not there at first. -/
theorem Grows.trans {scope scope' : SymbolId} {t t' t'' : Table} (h : Grows scope t t')
    (h' : Grows scope' t' t'')
    (hscope : scope' = scope ∨ ∃ i, scope' = .unit i ∧ t.symbols.size ≤ i) :
    Grows scope t t'' := by
  intro i s hs
  obtain ⟨new, hs', hnew⟩ := h i s hs
  obtain ⟨new', hs'', hnew'⟩ := h' i _ hs'
  refine ⟨new ++ new', by simpa using hs'', fun hi => ?_⟩
  have hi' : scope' ≠ .unit i := by
    rcases hscope with rfl | ⟨j, rfl, hj⟩
    · exact hi
    · intro heq
      have hlt := lt_size hs
      cases heq
      omega
  rw [hnew hi, hnew' hi', List.nil_append]

theorem Grows.extend {scope : SymbolId} {t t' : Table} (h : Grows scope t t') (s : Symbol) :
    Grows scope t (t'.extend s) := by
  intro i old hold
  obtain ⟨new, hnew, hscope⟩ := h i old hold
  exact ⟨new, symbols_extend_of_some hnew s, hscope⟩

/-- A symbol that was not there at first may be replaced. -/
theorem Grows.replace {scope : SymbolId} {t t' : Table} (h : Grows scope t t') {i : Nat}
    {s : Symbol} (hs : t'.symbols[i]? = some s) (hi : t.symbols.size ≤ i) (new : Symbol) :
    Grows scope t (t'.replace i new) := by
  intro j old hold
  obtain ⟨more, hmore, hscope⟩ := h j old hold
  refine ⟨more, ?_, hscope⟩
  have hj := lt_size hold
  rw [symbols_replace hs, if_neg (by omega), hmore]

/-- The scope may publish more. -/
theorem Grows.publish {t t' : Table} {i : Nat} {s : Symbol} (h : Grows (.unit i) t t')
    (hs : t'.symbols[i]? = some s) (entries : List (String × SymbolId)) :
    Grows (.unit i) t (t'.replace i { s with children := s.children ++ entries }) := by
  intro j old hold
  obtain ⟨more, hmore, hscope⟩ := h j old hold
  rw [symbols_replace hs]
  by_cases hj : j = i
  · subst hj
    obtain rfl : s = _ := Option.some.inj (hs.symm.trans hmore)
    exact ⟨more ++ entries, by simp, fun hne => absurd rfl hne⟩
  · exact ⟨more, by simpa [hj] using hmore, hscope⟩

end Table
end BlockC

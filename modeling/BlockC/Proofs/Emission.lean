import BlockC.Code.Emit
import BlockC.Proofs.BoundProgram

/-! # Known programs can be written

A program that is known to a table in order can be written as C: every step that could fail for want
of a symbol or of its type finds what it needs (`stmts_written`).
-/
namespace BlockC
namespace Code

open BlockC.Bound

variable {t : Table}

/-- A computation that gives a result. -/
abbrev Written {ε α : Type} (r : Except ε α) : Prop :=
  Meets (fun _ => True) (fun _ => False) r

/-- Names of modules of the table. -/
def ModuleNames (t : Table) (modules : List String) : Prop :=
  ∀ name ∈ modules, ∃ id s, t.get? id = some s ∧ s.kind = .mod ∧ s.name = name

theorem mangledSymbol_eq (ht : t.WellFormed) {i : Nat} {s : Symbol}
    (hs : t.symbols[i]? = some s) :
    ∃ modules, mangledSymbol t (.unit i) = .ok (mangled modules s.name) ∧
      ModuleNames t modules := by
  obtain ⟨found, hfound, -, -, hall⟩ :=
    Table.symbolsAlong_climbs (Table.climbs_lineage ht.toRooted (Table.lt_size hs))
  have hway : ∃ rest, t.lineage (.unit i) = .symbol (.unit i) s :: rest :=
    ⟨_, Table.lineageUpTo_succ hs⟩
  obtain ⟨rest, hrest⟩ := hway
  obtain ⟨above, rfl⟩ : ∃ above, found = (.unit i, s) :: above := by
    rw [hrest, Table.symbolsAlong] at hfound
    cases habove : Table.symbolsAlong rest with
    | error cause => rw [habove] at hfound; cases hfound
    | ok above =>
      rw [habove] at hfound
      exact ⟨above, (Except.ok.inj hfound).symm⟩
  refine ⟨((above.filter fun link => link.2.kind = .mod).map (·.2.name)).reverse, ?_, ?_⟩
  · unfold mangledSymbol
    rw [hfound]
    rfl
  · intro name hname
    obtain ⟨link, hlink, rfl⟩ := List.mem_map.mp (List.mem_reverse.mp hname)
    obtain ⟨hmem, hmod⟩ := List.mem_filter.mp hlink
    exact ⟨link.1, link.2, hall link (by simp [hmem]), by simpa using hmod, rfl⟩

/-- A dotted name is spelled as its symbol, inside modules if that is a function. -/
theorem spelled_dotted (ht : t.WellFormed) {id : Ident} (hd : id.isDotted = true)
    (h : t.Has id.symbol) :
    ∃ modules s, spelled t id = .ok (mangled modules s.name) ∧ t.get? id.symbol = some s ∧
      s.kind.IsNamed ∧ ModuleNames t modules ∧ (s.kind ≠ .func → modules = []) := by
  obtain ⟨s, hs, hnamed⟩ := h
  have hget : t.get id.symbol = .ok s := by simp [Table.get, hs]
  unfold spelled
  rw [if_pos hd, hget]
  by_cases hfunc : s.kind = .func ∧ s.isExternal = false
  · cases hid : id.symbol with
    | builtin k =>
      -- The built-in types are no functions.
      rw [hid] at hs
      obtain ⟨name, -, rfl⟩ := Option.map_eq_some_iff.mp hs
      cases hfunc.1
    | unit k =>
      rw [hid] at hs
      obtain ⟨modules, hmangled, hmodules⟩ := mangledSymbol_eq ht hs
      refine ⟨modules, s, ?_, hs, hnamed, hmodules, fun hne => absurd hfunc.1 hne⟩
      simp only [bind, Except.bind, if_pos hfunc, hmangled]
  · refine ⟨[], s, ?_, hs, hnamed, by simp [ModuleNames], fun _ => rfl⟩
    simp only [bind, Except.bind, if_neg hfunc]
    rfl

theorem spelled_plain {id : Ident} (hd : id.isDotted = false) : spelled t id = .ok id.dotted := by
  simp [spelled, hd]

theorem spelled_written (ht : t.WellFormed) {id : Ident} (h : t.Has id.symbol) :
    Written (spelled t id) := by
  cases hd : id.isDotted with
  | false =>
    rw [spelled_plain hd]
    trivial
  | true =>
    obtain ⟨modules, s, hspelled, -⟩ := spelled_dotted ht hd h
    rw [hspelled]
    trivial

mutual

theorem expr_written (ht : t.WellFormed) : {e : Expr} → e.Known t → Written (expr t e)
  | .ident _, h => by
    unfold expr
    exact spelled_written ht h
  | .binary _ _ _ _, h => by
    unfold expr
    exact (expr_written ht h.1).bind fun _ _ => (expr_written ht h.2).bind fun _ _ => trivial
  | .unary _ argument _, h => by
    unfold expr
    exact (expr_written ht (e := argument) h).bind fun _ _ => trivial
  | .condition _ _ _ _, h => by
    unfold expr
    exact (expr_written ht h.1).bind fun _ _ => (expr_written ht h.2.1).bind fun _ _ =>
      (expr_written ht h.2.2).bind fun _ _ => trivial
  | .call _ _ _, h => by
    unfold expr
    exact (exprs_written ht h.2).bind fun _ _ => (spelled_written ht h.1).bind fun _ _ => trivial
  | .assignment _ _ _ _, h => by
    unfold expr
    exact (expr_written ht h.1).bind fun _ _ => (expr_written ht h.2).bind fun _ _ => trivial
  | .parenthesized inner _, h => by
    unfold expr
    exact (expr_written ht (e := inner) h).bind fun _ _ => trivial
  | .number _ _, _ | .string _ _, _ | .boolean _ _, _ | .null _, _ => by
    unfold expr
    trivial

theorem exprs_written (ht : t.WellFormed) :
    {es : List Expr} → Expr.AllKnown t es → Written (exprs t es)
  | [], _ => by
    unfold exprs
    trivial
  | _ :: _, h => by
    unfold exprs
    exact (expr_written ht h.1).bind fun _ _ => (exprs_written ht h.2).bind fun _ _ => trivial

end

mutual

theorem declarator_written {bound : Nat} :
    {typing : Typing} → typing.Within t bound → (name : String) →
      Written (declarator t typing name)
  | .ref symbol qualifiers, h, name => by
    obtain ⟨s, hget, -⟩ := (Table.HasType.has h).get
    unfold declarator
    rw [hget]
    trivial
  | .signature params returns variadic, h, name => by
    unfold declarator
    exact (abstractDeclarators_written h.1).bind fun _ _ => declarator_written h.2 _

theorem abstractDeclarators_written {bound : Nat} :
    {typings : List Typing} → Typing.AllWithin t bound typings →
      Written (abstractDeclarators t typings)
  | [], _ => by
    unfold abstractDeclarators
    trivial
  | _ :: _, h => by
    unfold abstractDeclarators
    exact (declarator_written h.1 "").bind fun _ _ =>
      (abstractDeclarators_written h.2).bind fun _ _ => trivial

end

theorem binding_written {kind : SymbolKind} {external : Bool} {b : Binding}
    (h : b.Known t kind external) : Written (binding t b) :=
  declarator_written h.1 b.name

theorem bindings_written {kind : SymbolKind} {external : Bool} {bs : List Binding}
    (h : ∀ b ∈ bs, b.Known t kind external) : Written (bindings t bs) := by
  induction bs with
  | nil => trivial
  | cons b bs ih =>
    unfold bindings
    exact (binding_written (h b (by simp))).bind fun _ _ =>
      (ih fun x hx => h x (by simp [hx])).bind fun _ _ => trivial

/-- What a known function returns is found by its symbol. -/
theorem returnType_meets {external : Bool} {f : Header} (h : f.Known t external) :
    Meets (fun returns => returns.Within t t.symbols.size) (fun _ => False) (returnType t f) := by
  obtain ⟨-, returns, hreturns, i, s, hi, hs, -, -, hty, -⟩ := h
  have hget : t.get f.symbol = .ok s := by simp [Table.get, Table.get?, hi, hs]
  unfold returnType
  rw [hget]
  simp only [bind, Except.bind, hty]
  exact hreturns

theorem aliasedType_meets {name : String} {symbol : SymbolId} {typing : Typing}
    (h : typing.Within t t.symbols.size)
    (hd : t.Declares symbol name .typeName (some typing) false) :
    Meets (fun found => found.Within t t.symbols.size) (fun _ => False)
      (aliasedType t name symbol) := by
  obtain ⟨i, s, rfl, hs, -, -, hty, -⟩ := hd
  have hget : t.get (.unit i) = .ok s := by simp [Table.get, Table.get?, hs]
  unfold aliasedType
  rw [hget]
  simp only [bind, Except.bind, hty]
  exact h

theorem externalHead_written {f : Header} (h : f.Known t true) : Written (externalHead t f) := by
  unfold externalHead
  exact (bindings_written h.1).bind fun _ _ =>
    (returnType_meets h).bind fun _ hr => declarator_written hr _

theorem definitionHead_written {f : Header} (h : f.Known t false) (modules : List String) :
    Written (definitionHead t modules f) := by
  unfold definitionHead
  exact (returnType_meets h).bind fun _ hr =>
    (bindings_written h.1).bind fun _ _ => declarator_written hr _

theorem initialValue_written (ht : t.WellFormed) {initial : Option Expr}
    (h : ∀ e ∈ initial, e.Known t) : Written (initialValue t initial) := by
  cases initial with
  | none => trivial
  | some e => exact (expr_written ht (h e (by simp))).bind fun _ _ => trivial

theorem located_written {α : Type} {r : Except Cause α} {P : α → Prop} (pos : Position)
    (h : Meets P (fun _ => False) r) : Meets P (fun _ => False) (located pos r) :=
  h.mapError fun _ hfalse => hfalse

mutual

theorem stmt_written (ht : t.WellFormed) (modules : List String) :
    {s : Stmt} → s.Known t → Written (stmt t modules s)
  | .empty _, _ | .mod _ _ _, _ => by
    unfold stmt
    trivial
  | .declare _ _ span, h => by
    unfold stmt
    exact (located_written span.start (binding_written h.1)).bind fun _ _ =>
      (located_written span.start (initialValue_written ht h.2)).bind fun _ _ => trivial
  | .externalVariable _ span, h => by
    unfold stmt
    exact (located_written span.start (binding_written h)).bind fun _ _ => trivial
  | .externalFunction _ _ span, h => by
    unfold stmt
    exact (located_written span.start (externalHead_written h)).bind fun _ _ => trivial
  | .whileLoop _ _ span, h => by
    unfold stmt
    exact (located_written span.start (expr_written ht h.1)).bind fun _ _ =>
      (block_written ht modules h.2).bind fun _ _ => trivial
  | .ifThen _ _ span, h => by
    unfold stmt
    exact (located_written span.start (expr_written ht h.1)).bind fun _ _ =>
      (block_written ht modules h.2).bind fun _ _ => trivial
  | .ifElse _ _ _ span, h => by
    unfold stmt
    exact (located_written span.start (expr_written ht h.1)).bind fun _ _ =>
      (block_written ht modules h.2.1).bind fun _ _ =>
      (block_written ht modules h.2.2).bind fun _ _ => trivial
  | .returned _ span, h => by
    unfold stmt
    exact (located_written span.start (expr_written ht h)).bind fun _ _ => trivial
  | .typeAlias name _ symbol span, h => by
    obtain ⟨typing, hty, hd⟩ := h
    unfold stmt
    exact (located_written span.start (aliasedType_meets hty hd)).bind fun _ hfound =>
      (located_written span.start (declarator_written hfound name)).bind fun _ _ => trivial
  | .func _ _ span, h => by
    unfold stmt
    exact (located_written span.start (definitionHead_written h.1 modules)).bind fun _ _ =>
      (block_written ht modules h.2.2).bind fun _ _ => trivial
  | .expr _ span, h => by
    unfold stmt
    exact (located_written span.start (expr_written ht h)).bind fun _ _ => trivial

theorem block_written (ht : t.WellFormed) (modules : List String) :
    {b : Block} → b.Known t → Written (block t modules b)
  | .mk _ _ _, h => by
    unfold block
    exact stmts_written ht modules h

/-- **Known statements can be written, whatever modules are open before them.** -/
theorem stmts_written (ht : t.WellFormed) (modules : List String) :
    {ss : List Stmt} → Stmt.AllKnown t ss → Written (stmts t modules ss)
  | [], _ => by
    unfold stmts
    trivial
  | _ :: _, h => by
    unfold stmts
    exact (stmt_written ht modules h.1).bind fun _ _ =>
      (stmts_written ht _ h.2).bind fun _ _ => trivial

end

theorem unit_written {u : CompilationUnit} (ht : u.table.WellFormed)
    (h : Stmt.AllKnown u.table u.sourceFile.stmts) (withPrelude : Bool) :
    Written (unit u withPrelude) := by
  unfold unit
  exact (stmts_written ht [] h).bind fun _ _ => trivial

end Code
end BlockC

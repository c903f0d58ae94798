import BlockC.Bound.Binder
import BlockC.Code.Emit
import BlockC.Proofs.SourceText

/-! # Programs with moved places

Binding a program and writing it look at the places in it only to say where a fault is.  If all
places of a program are moved, the places of what is bound and of what is reported are moved in the
same way, and nothing else changes (`relocates_stmts`, `stmts_moved`).
-/
namespace BlockC

section Moved
variable (g : Position → Position)

/-! ### Moving places -/

def Diagnostic.moved (d : Diagnostic) : Diagnostic :=
  ⟨d.cause, g d.pos⟩

mutual

def TypeExpr.moved : TypeExpr → TypeExpr
  | .name path span => .name path (span.moved g)
  | .pointer pointee span => .pointer pointee.moved (span.moved g)
  | .array size element span => .array size element.moved (span.moved g)
  | .slice element span => .slice element.moved (span.moved g)
  | .func params returns span => .func (TypeExpr.allMoved params) returns.moved (span.moved g)

def TypeExpr.allMoved : List TypeExpr → List TypeExpr
  | [] => []
  | t :: rest => t.moved :: TypeExpr.allMoved rest

end

namespace Surface

def Name.moved (n : Name) : Name :=
  ⟨n.text, g n.pos⟩

def Ident.moved (id : Ident) : Ident :=
  ⟨id.path, id.span.moved g⟩

mutual

def Expr.moved : Expr → Expr
  | .ident id => .ident (id.moved g)
  | .binary left op right span => .binary left.moved op right.moved (span.moved g)
  | .unary op argument span => .unary op argument.moved (span.moved g)
  | .condition test yes no span => .condition test.moved yes.moved no.moved (span.moved g)
  | .call callee args span => .call (callee.moved g) (Expr.allMoved args) (span.moved g)
  | .assignment left op right span => .assignment left.moved op right.moved (span.moved g)
  | .parenthesized inner span => .parenthesized inner.moved (span.moved g)
  | .number value span => .number value (span.moved g)
  | .string text span => .string text (span.moved g)
  | .boolean value span => .boolean value (span.moved g)
  | .null span => .null (span.moved g)
  | .bad d => .bad (d.moved g)
  | .stuck first d => .stuck first.moved (d.moved g)

def Expr.allMoved : List Expr → List Expr
  | [] => []
  | e :: rest => e.moved :: Expr.allMoved rest

end

def TypeUse.moved (a : TypeUse) : TypeUse :=
  ⟨a.type.moved g, g a.pos⟩

def Binding.moved (b : Binding) : Binding :=
  ⟨b.name.moved g, b.typeUse.moved g, b.span.moved g⟩

def Param.moved : Param → Param
  | .binding b => .binding (b.moved g)
  | .variadic => .variadic
  | .bad d => .bad (d.moved g)

end Surface

/-- What was read, with its places moved. -/
def Except.moved {α β : Type} (f : α → β) : Except Diagnostic α → Except Diagnostic β
  | .ok a => .ok (f a)
  | .error d => .error (d.moved g)

namespace Surface

def Header.moved (h : Header) : Header :=
  ⟨h.name.moved g, h.params.map (·.moved g), g h.paramsPos, Except.moved g (·.moved g) h.returns⟩

mutual

def Stmt.moved : Stmt → Stmt
  | .empty span => .empty (span.moved g)
  | .mod name span => .mod (name.moved g) (span.moved g)
  | .declare b initial span => .declare (b.moved g) (initial.map (·.moved g)) (span.moved g)
  | .externalVariable b pos span => .externalVariable (b.moved g) (g pos) (span.moved g)
  | .externalFunction h declared span =>
    .externalFunction (h.moved g) (declared.moved g) (span.moved g)
  | .whileLoop test body span => .whileLoop (test.moved g) body.moved (span.moved g)
  | .ifThen test yes span => .ifThen (test.moved g) yes.moved (span.moved g)
  | .ifElse test yes no span => .ifElse (test.moved g) yes.moved no.moved (span.moved g)
  | .returned value span => .returned (value.moved g) (span.moved g)
  | .typeAlias name a span => .typeAlias (name.moved g) (a.moved g) (span.moved g)
  | .func h body span => .func (h.moved g) body.moved (span.moved g)
  | .expr value span => .expr (value.moved g) (span.moved g)
  | .bad d => .bad (d.moved g)
  | .stuck first d => .stuck (first.moved g) (d.moved g)

def Block.moved : Block → Block
  | .mk stmts span => .mk (Stmt.allMoved stmts) (span.moved g)

def Stmt.allMoved : List Stmt → List Stmt
  | [] => []
  | s :: rest => s.moved :: Stmt.allMoved rest

end
end Surface

namespace Bound

def Ident.moved (id : Ident) : Ident :=
  { id with span := id.span.moved g }

mutual

def Expr.moved : Expr → Expr
  | .ident id => .ident (id.moved g)
  | .binary left op right span => .binary left.moved op right.moved (span.moved g)
  | .unary op argument span => .unary op argument.moved (span.moved g)
  | .condition test yes no span => .condition test.moved yes.moved no.moved (span.moved g)
  | .call callee args span => .call (callee.moved g) (Expr.allMoved args) (span.moved g)
  | .assignment left op right span => .assignment left.moved op right.moved (span.moved g)
  | .parenthesized inner span => .parenthesized inner.moved (span.moved g)
  | .number value span => .number value (span.moved g)
  | .string text span => .string text (span.moved g)
  | .boolean value span => .boolean value (span.moved g)
  | .null span => .null (span.moved g)

def Expr.allMoved : List Expr → List Expr
  | [] => []
  | e :: rest => e.moved :: Expr.allMoved rest

end

def Binding.moved (b : Binding) : Binding :=
  { b with type := b.type.moved g, span := b.span.moved g }

def Header.moved (h : Header) : Header :=
  { h with params := h.params.map (·.moved g), returns := h.returns.moved g }

mutual

def Stmt.moved : Stmt → Stmt
  | .empty span => .empty (span.moved g)
  | .mod name symbol span => .mod name symbol (span.moved g)
  | .declare b initial span => .declare (b.moved g) (initial.map (·.moved g)) (span.moved g)
  | .externalVariable b span => .externalVariable (b.moved g) (span.moved g)
  | .externalFunction h declared span =>
    .externalFunction (h.moved g) (declared.moved g) (span.moved g)
  | .whileLoop test body span => .whileLoop (test.moved g) body.moved (span.moved g)
  | .ifThen test yes span => .ifThen (test.moved g) yes.moved (span.moved g)
  | .ifElse test yes no span => .ifElse (test.moved g) yes.moved no.moved (span.moved g)
  | .returned value span => .returned (value.moved g) (span.moved g)
  | .typeAlias name type symbol span => .typeAlias name (type.moved g) symbol (span.moved g)
  | .func h body span => .func (h.moved g) body.moved (span.moved g)
  | .expr value span => .expr (value.moved g) (span.moved g)

def Block.moved : Block → Block
  | .mk stmts scope span => .mk (Stmt.allMoved stmts) scope (span.moved g)

def Stmt.allMoved : List Stmt → List Stmt
  | [] => []
  | s :: rest => s.moved :: Stmt.allMoved rest

end
end Bound

end Moved

variable {g : Position → Position}

/-! ### Types -/

mutual

theorem Table.typingOf_moved (t : Table) (scope : SymbolId) :
    ∀ x : TypeExpr, t.typingOf scope (x.moved g) = t.typingOf scope x
  | .name _ _ => rfl
  | .pointer pointee _ => by
    simp only [TypeExpr.moved, Table.typingOf, typingOf_moved t scope pointee]
  | .array _ element _ => by
    simp only [TypeExpr.moved, Table.typingOf, typingOf_moved t scope element]
  | .slice element _ => by
    simp only [TypeExpr.moved, Table.typingOf, typingOf_moved t scope element]
  | .func params returns _ => by
    simp only [TypeExpr.moved, Table.typingOf, typingsOf_moved t scope params,
      typingOf_moved t scope returns]

theorem Table.typingsOf_moved (t : Table) (scope : SymbolId) :
    ∀ xs : List TypeExpr, t.typingsOf scope (TypeExpr.allMoved g xs) = t.typingsOf scope xs
  | [] => rfl
  | x :: rest => by
    simp only [TypeExpr.allMoved, Table.typingsOf, typingOf_moved t scope x,
      typingsOf_moved t scope rest]

end

/-! ### Steps of binding -/

namespace Binder

section
variable {α β γ δ : Type}

/-- The second step does what the first does, with the places of what it gives and reports moved. -/
def Relocates (g : Position → Position) (f : α → β) (m : Binder α) (m' : Binder β) : Prop :=
  ∀ ctx, m'.run ctx = match m.run ctx with
    | .ok a ctx' => .ok (f a) ctx'
    | .error d ctx' => .error (d.moved g) ctx'

theorem relocates_pure {f : α → β} (a : α) : Relocates g f (pure a) (pure (f a)) :=
  fun _ => rfl

theorem relocates_throw {f : α → β} (d : Diagnostic) :
    Relocates g f (throw d) (throw (d.moved g)) :=
  fun _ => rfl

theorem relocates_get : Relocates g id get get :=
  fun _ => rfl

theorem relocates_modify (f : Context → Context) : Relocates g id (modify f) (modify f) :=
  fun _ => rfl

theorem Relocates.bind {f : α → β} {f' : γ → δ} {m : Binder α} {m' : Binder β} {k : α → Binder γ}
    {k' : β → Binder δ} (h : Relocates g f m m') (hk : ∀ a, Relocates g f' (k a) (k' (f a))) :
    Relocates g f' (m >>= k) (m' >>= k') := by
  intro ctx
  have hrun : m' ctx = match m ctx with
      | .ok a ctx' => .ok (f a) ctx'
      | .error d ctx' => .error (d.moved g) ctx' := h ctx
  change EStateM.bind m' k' ctx = match EStateM.bind m k ctx with
    | .ok a ctx' => .ok (f' a) ctx'
    | .error d ctx' => .error (d.moved g) ctx'
  unfold EStateM.bind
  rw [hrun]
  cases m ctx with
  | ok a ctx' => exact hk a ctx'
  | error d ctx' => rfl

/-- Two steps that are the same once their places are moved end in the same way. -/
theorem Relocates.agree {f : α → β} {m m' : Binder α} {n : Binder β} (h : Relocates g f m n)
    (h' : Relocates g f m' n) (ctx : Context) :
    (∃ a a' c, m.run ctx = .ok a c ∧ m'.run ctx = .ok a' c ∧ f a = f a') ∨
      ∃ d d' c, m.run ctx = .error d c ∧ m'.run ctx = .error d' c ∧ d.moved g = d'.moved g := by
  have hsame := (h ctx).symm.trans (h' ctx)
  cases hm : m.run ctx <;> cases hm' : m'.run ctx <;> rw [hm, hm'] at hsame <;>
    simp only [EStateM.Result.ok.injEq, EStateM.Result.error.injEq, reduceCtorEq] at hsame
  · obtain ⟨hf, rfl⟩ := hsame
    exact Or.inl ⟨_, _, _, rfl, rfl, hf⟩
  · obtain ⟨hd, rfl⟩ := hsame
    exact Or.inr ⟨_, _, _, rfl, rfl, hd⟩

theorem relocates_located (pos : Position) (r : Except Cause α) :
    Relocates g id (located pos r) (located (g pos) r) := by
  cases r with
  | ok a => exact relocates_pure a
  | error cause => exact relocates_throw ⟨cause, pos⟩

theorem relocates_known {f : α → β} (r : Except Diagnostic α) :
    Relocates g f (known r) (known (Except.moved g f r)) := by
  cases r with
  | ok a => exact relocates_pure a
  | error d => exact relocates_throw d

end

theorem relocates_changeTable (pos : Position) (f : Table → Except Cause Table) :
    Relocates g id (changeTable pos f) (changeTable (g pos) f) :=
  relocates_get.bind fun _ => (relocates_located pos _).bind fun _ => relocates_modify _

theorem relocates_create (name : String) (kind : SymbolKind) :
    Relocates g id (create name kind) (create name kind) :=
  fun _ => rfl

theorem relocates_openScope (name : String) (kind : SymbolKind) :
    Relocates g id (openScope name kind) (openScope name kind) :=
  fun _ => rfl

theorem relocates_closeScope (scope : SymbolId) :
    Relocates g id (closeScope scope) (closeScope scope) :=
  relocates_modify _

theorem relocates_declare (name : String) (kind : SymbolKind) (typing : Option Typing)
    (pos : Position) :
    Relocates g id (declare name kind typing pos) (declare name kind typing (g pos)) := by
  unfold declare
  refine relocates_get.bind fun ctx => (relocates_create name kind).bind fun symbol => ?_
  cases typing with
  | none => exact (relocates_changeTable pos _).bind fun _ => relocates_pure symbol
  | some typing =>
    exact (relocates_changeTable pos _).bind fun _ =>
      (relocates_changeTable pos _).bind fun _ => relocates_pure symbol

/-! ### Binding expressions -/

theorem relocates_ident (id : Surface.Ident) :
    Relocates g (·.moved g) (ident id) (ident (id.moved g)) := by
  unfold ident
  exact relocates_get.bind fun _ => (relocates_located _ _).bind fun symbol =>
    relocates_pure (⟨id.path, symbol, id.span⟩ : Bound.Ident)

theorem relocates_callee (id : Surface.Ident) :
    Relocates g (·.moved g) (callee id) (callee (id.moved g)) := by
  unfold callee
  refine (relocates_ident id).bind fun found => relocates_get.bind fun _ =>
    (relocates_located _ _).bind fun callable => ?_
  cases callable with
  | true => exact relocates_pure found
  | false => exact relocates_throw ⟨.notCallable found.dotted, found.span.start⟩

mutual

theorem relocates_expr : ∀ e : Surface.Expr,
    Relocates g (·.moved g) (expr e) (expr (e.moved g))
  | .ident id => by
    unfold Surface.Expr.moved expr
    exact (relocates_ident id).bind fun found => relocates_pure _
  | .binary left op right span => by
    unfold Surface.Expr.moved expr
    exact (relocates_expr left).bind fun l => (relocates_expr right).bind fun r =>
      relocates_pure _
  | .unary op argument span => by
    unfold Surface.Expr.moved expr
    exact (relocates_expr argument).bind fun a => relocates_pure _
  | .condition test yes no span => by
    unfold Surface.Expr.moved expr
    exact (relocates_expr test).bind fun t => (relocates_expr yes).bind fun y =>
      (relocates_expr no).bind fun n => relocates_pure _
  | .call id args span => by
    unfold Surface.Expr.moved expr
    exact (relocates_callee id).bind fun found => (relocates_exprs args).bind fun as =>
      relocates_pure _
  | .assignment left op right span => by
    unfold Surface.Expr.moved expr
    exact (relocates_expr left).bind fun l => (relocates_expr right).bind fun r =>
      relocates_pure _
  | .parenthesized inner span => by
    unfold Surface.Expr.moved expr
    exact (relocates_expr inner).bind fun i => relocates_pure _
  | .number value span => by
    unfold Surface.Expr.moved expr
    exact relocates_pure _
  | .string text span => by
    unfold Surface.Expr.moved expr
    exact relocates_pure _
  | .boolean value span => by
    unfold Surface.Expr.moved expr
    exact relocates_pure _
  | .null span => by
    unfold Surface.Expr.moved expr
    exact relocates_pure _
  | .bad d => by
    unfold Surface.Expr.moved expr
    exact relocates_throw d
  | .stuck first d => by
    unfold Surface.Expr.moved expr
    exact (relocates_expr first).bind fun _ => relocates_throw d

theorem relocates_exprs : ∀ es : List Surface.Expr,
    Relocates g (Bound.Expr.allMoved g) (exprs es) (exprs (Surface.Expr.allMoved g es))
  | [] => by
    unfold Surface.Expr.allMoved exprs
    exact relocates_pure []
  | e :: rest => by
    unfold Surface.Expr.allMoved exprs
    exact (relocates_expr e).bind fun first => (relocates_exprs rest).bind fun more =>
      relocates_pure _

end

/-! ### Binding declarations -/

theorem relocates_typeUse (a : Surface.TypeUse) :
    Relocates g id (typeUse a) (typeUse (a.moved g)) := by
  unfold typeUse
  refine relocates_get.bind fun ctx => ?_
  have hsame : ctx.table.typingOf ctx.current (a.moved g).type =
      ctx.table.typingOf ctx.current a.type := Table.typingOf_moved _ _ _
  simp only [id, hsame]
  exact relocates_located a.pos _

theorem relocates_binding (kind : SymbolKind) (b : Surface.Binding) :
    Relocates g (·.moved g) (binding kind b) (binding kind (b.moved g)) := by
  unfold binding
  exact (relocates_typeUse b.typeUse).bind fun typing =>
    (relocates_declare b.name.text kind (some typing) b.name.pos).bind fun symbol =>
      relocates_pure _

theorem relocates_params : ∀ ps : List Surface.Param,
    Relocates g (fun r => (r.1.map (·.moved g), r.2)) (params ps) (params (ps.map (·.moved g)))
  | [] => by
    unfold params
    exact relocates_pure _
  | .binding b :: rest => by
    unfold params
    exact (relocates_binding .param b).bind fun first => (relocates_params rest).bind fun r =>
      relocates_pure _
  | .variadic :: rest => by
    unfold params
    exact (relocates_params rest).bind fun r => relocates_pure _
  | .bad d :: rest => by
    unfold params
    exact relocates_throw d

theorem relocates_publish (symbol parent : SymbolId) (typing : Typing) (pos : Position) :
    Relocates g id (publish symbol parent typing pos) (publish symbol parent typing (g pos)) :=
  (relocates_changeTable pos _).bind fun _ => relocates_changeTable pos _

theorem signature_moved (ps : List Bound.Binding) (returns : Typing) (variadic : Bool) :
    signature (ps.map (·.moved g)) returns variadic = signature ps returns variadic := by
  simp [signature, Function.comp_def, Bound.Binding.moved]

theorem relocates_externalFunction (h : Surface.Header) :
    Relocates g (·.moved g) (externalFunction h) (externalFunction (h.moved g)) := by
  unfold externalFunction
  refine relocates_get.bind fun ctx => (relocates_openScope h.name.text .func).bind fun symbol =>
    (relocates_params h.params).bind fun r => (relocates_known h.returns).bind fun returns =>
    (relocates_typeUse returns).bind fun typing => (relocates_closeScope symbol).bind fun _ => ?_
  simp only [signature_moved]
  exact (relocates_publish symbol _ _ h.name.pos).bind fun _ =>
    (relocates_changeTable h.name.pos _).bind fun _ =>
      relocates_pure _

theorem relocates_funcHeader (h : Surface.Header) :
    Relocates g (·.moved g) (funcHeader h) (funcHeader (h.moved g)) := by
  unfold funcHeader
  refine relocates_get.bind fun ctx => (relocates_openScope h.name.text .func).bind fun symbol =>
    (relocates_params h.params).bind fun r => ?_
  obtain ⟨ps, variadic⟩ := r
  cases variadic with
  | true => exact fun _ => rfl
  | false =>
    change Relocates g _ (known h.returns >>= _) (known (h.moved g).returns >>= _)
    refine (relocates_known h.returns).bind fun returns =>
      (relocates_typeUse returns).bind fun typing => ?_
    simp only [signature_moved]
    exact (relocates_publish symbol _ _ h.name.pos).bind fun _ =>
      relocates_pure _

theorem relocates_initialValue (initial : Option Surface.Expr) :
    Relocates g (Option.map (·.moved g)) (initialValue initial)
      (initialValue (initial.map (·.moved g))) := by
  cases initial with
  | none => exact relocates_pure none
  | some e => exact (relocates_expr e).bind fun found => relocates_pure _

/-! ### Binding statements -/

mutual

theorem relocates_stmt : ∀ s : Surface.Stmt,
    Relocates g (·.moved g) (stmt s) (stmt (s.moved g))
  | .empty span => by
    unfold Surface.Stmt.moved stmt
    exact relocates_pure _
  | .mod name span => by
    unfold Surface.Stmt.moved stmt
    exact (relocates_declare name.text .mod none name.pos).bind fun symbol =>
      (relocates_modify _).bind fun _ => relocates_pure _
  | .declare b initial span => by
    unfold Surface.Stmt.moved stmt
    exact (relocates_initialValue initial).bind fun value => (relocates_binding .var b).bind
      fun found => relocates_pure _
  | .externalVariable b pos span => by
    unfold Surface.Stmt.moved stmt
    exact (relocates_binding .var b).bind fun found => (relocates_changeTable pos _).bind
      fun _ => relocates_pure _
  | .externalFunction h declared span => by
    unfold Surface.Stmt.moved stmt
    exact (relocates_externalFunction h).bind fun found =>
      relocates_pure _
  | .whileLoop test body span => by
    unfold Surface.Stmt.moved stmt
    exact (relocates_expr test).bind fun t => (relocates_block body).bind fun b =>
      relocates_pure _
  | .ifThen test yes span => by
    unfold Surface.Stmt.moved stmt
    exact (relocates_expr test).bind fun t => (relocates_block yes).bind fun y =>
      relocates_pure _
  | .ifElse test yes no span => by
    unfold Surface.Stmt.moved stmt
    exact (relocates_expr test).bind fun t => (relocates_block yes).bind fun y =>
      (relocates_block no).bind fun n => relocates_pure _
  | .returned value span => by
    unfold Surface.Stmt.moved stmt
    exact (relocates_expr value).bind fun v => relocates_pure _
  | .typeAlias name a span => by
    unfold Surface.Stmt.moved stmt
    exact (relocates_typeUse a).bind fun typing =>
      (relocates_declare name.text .typeName (some typing) name.pos).bind fun symbol =>
        relocates_pure _
  | .func h (.mk body bodySpan) span => by
    unfold Surface.Stmt.moved Surface.Block.moved stmt
    exact (relocates_funcHeader h).bind fun found => (relocates_stmts body).bind fun b =>
      (relocates_closeScope found.symbol).bind fun _ =>
        relocates_pure _
  | .expr value span => by
    unfold Surface.Stmt.moved stmt
    exact (relocates_expr value).bind fun v => relocates_pure _
  | .bad d => by
    unfold Surface.Stmt.moved stmt
    exact relocates_throw d
  | .stuck first d => by
    unfold Surface.Stmt.moved stmt
    exact (relocates_expr first).bind fun _ => relocates_throw d

theorem relocates_block : ∀ b : Surface.Block,
    Relocates g (·.moved g) (block b) (block (b.moved g))
  | .mk body span => by
    unfold Surface.Block.moved block
    exact (relocates_openScope blockName .block).bind fun scope => (relocates_stmts body).bind
      fun b => (relocates_closeScope scope).bind fun _ => relocates_pure _

/-- **Binding statements whose places are moved moves the places of what comes out.** -/
theorem relocates_stmts : ∀ ss : List Surface.Stmt,
    Relocates g (Bound.Stmt.allMoved g) (stmts ss) (stmts (Surface.Stmt.allMoved g ss))
  | [] => by
    unfold Surface.Stmt.allMoved stmts
    exact relocates_pure []
  | s :: rest => by
    unfold Surface.Stmt.allMoved stmts
    exact (relocates_stmt s).bind fun first => (relocates_stmts rest).bind fun more =>
      relocates_pure _

end

end Binder

/-! ### Writing -/

namespace Code

open BlockC.Bound

variable (t : Table)

mutual

theorem expr_moved : ∀ e : Expr, expr t (e.moved g) = expr t e
  | .ident _ | .number _ _ | .string _ _ | .boolean _ _ | .null _ => rfl
  | .binary left _ right _ => by
    simp only [Expr.moved, expr, expr_moved left, expr_moved right]
  | .unary _ argument _ => by simp only [Expr.moved, expr, expr_moved argument]
  | .condition test yes no _ => by
    simp only [Expr.moved, expr, expr_moved test, expr_moved yes, expr_moved no]
  | .call _ args _ => by
    simp only [Expr.moved, expr, exprs_moved args]
    rfl
  | .assignment left _ right _ => by
    simp only [Expr.moved, expr, expr_moved left, expr_moved right]
  | .parenthesized inner _ => by simp only [Expr.moved, expr, expr_moved inner]

theorem exprs_moved : ∀ es : List Expr, exprs t (Expr.allMoved g es) = exprs t es
  | [] => rfl
  | e :: rest => by simp only [Expr.allMoved, exprs, expr_moved e, exprs_moved rest]

end

theorem bindings_moved (bs : List Binding) :
    bindings t (bs.map (·.moved g)) = bindings t bs := by
  induction bs with
  | nil => rfl
  | cons b bs ih =>
    have hfirst : binding t (b.moved g) = binding t b := rfl
    simp only [List.map_cons, bindings, hfirst, ih]

theorem initialValue_moved (initial : Option Expr) :
    initialValue t (initial.map (·.moved g)) = initialValue t initial := by
  cases initial with
  | none => rfl
  | some e => simp only [Option.map_some, initialValue, expr_moved]

theorem externalHead_moved (h : Header) : externalHead t (h.moved g) = externalHead t h := by
  simp only [externalHead, Header.moved, bindings_moved]
  rfl

theorem definitionHead_moved (modules : List String) (h : Header) :
    definitionHead t modules (h.moved g) = definitionHead t modules h := by
  simp only [definitionHead, Header.moved, bindings_moved]
  rfl

mutual

theorem stmt_moved (modules : List String) : ∀ s : Stmt,
    stmt t modules (s.moved g) = Except.moved g id (stmt t modules s)
  | .empty _ | .mod _ _ _ => rfl
  | .declare b initial _ => by
    have hb : binding t (b.moved g) = binding t b := rfl
    simp only [Stmt.moved, stmt, hb, initialValue_moved]
    cases binding t b <;> cases initialValue t initial <;> rfl
  | .externalVariable b _ => by
    have hb : binding t (b.moved g) = binding t b := rfl
    simp only [Stmt.moved, stmt, hb]
    cases binding t b <;> rfl
  | .externalFunction h _ _ => by
    simp only [Stmt.moved, stmt, externalHead_moved]
    cases externalHead t h <;> rfl
  | .whileLoop test body _ => by
    simp only [Stmt.moved, stmt, expr_moved, block_moved modules body]
    cases expr t test <;> cases block t modules body <;> rfl
  | .ifThen test yes _ => by
    simp only [Stmt.moved, stmt, expr_moved, block_moved modules yes]
    cases expr t test <;> cases block t modules yes <;> rfl
  | .ifElse test yes no _ => by
    simp only [Stmt.moved, stmt, expr_moved, block_moved modules yes, block_moved modules no]
    cases expr t test <;> cases block t modules yes <;> cases block t modules no <;> rfl
  | .returned value _ => by
    simp only [Stmt.moved, stmt, expr_moved]
    cases expr t value <;> rfl
  | .typeAlias name _ symbol _ => by
    simp only [Stmt.moved, stmt]
    cases aliasedType t name symbol with
    | error cause => rfl
    | ok typing =>
      change (located _ (declarator t typing name) >>= _) =
        Except.moved g id (located _ (declarator t typing name) >>= _)
      cases declarator t typing name <;> rfl
  | .func h body _ => by
    simp only [Stmt.moved, stmt, definitionHead_moved, block_moved modules body]
    cases definitionHead t modules h <;> cases block t modules body <;> rfl
  | .expr value _ => by
    simp only [Stmt.moved, stmt, expr_moved]
    cases expr t value <;> rfl

theorem block_moved (modules : List String) : ∀ b : Block,
    block t modules (b.moved g) = Except.moved g id (block t modules b)
  | .mk body _ _ => by
    simp only [Block.moved, block, stmts_moved modules body]

/-- **What is written does not depend on the places in a program.** -/
theorem stmts_moved (modules : List String) : ∀ ss : List Stmt,
    stmts t modules (Stmt.allMoved g ss) = Except.moved g id (stmts t modules ss)
  | [] => rfl
  | s :: rest => by
    simp only [Stmt.allMoved, stmts, stmt_moved modules s]
    cases stmt t modules s with
    | error d => rfl
    | ok r =>
      change (stmts t r.2 (Stmt.allMoved g rest) >>= _) = Except.moved g id (stmts t r.2 rest >>= _)
      rw [stmts_moved r.2 rest]
      cases stmts t r.2 rest <;> rfl

end

theorem unit_agree {ss ss' : List Stmt} (h : Stmt.allMoved g ss = Stmt.allMoved g ss')
    (span span' : Span) (withPrelude : Bool) :
    Except.moved g id (unit ⟨⟨ss, span⟩, t⟩ withPrelude) =
      Except.moved g id (unit ⟨⟨ss', span'⟩, t⟩ withPrelude) := by
  have hstmts : Except.moved g id (stmts t [] ss) = Except.moved g id (stmts t [] ss') := by
    rw [← stmts_moved, ← stmts_moved, h]
  unfold unit
  dsimp only
  generalize stmts t [] ss = r, stmts t [] ss' = r' at hstmts
  cases r with
  | error d =>
    cases r' with
    | error d' => exact hstmts
    | ok code' => cases hstmts
  | ok code =>
    cases r' with
    | error d' => cases hstmts
    | ok code' =>
      obtain rfl : code = code' := Except.ok.inj hstmts
      rfl

end Code
end BlockC

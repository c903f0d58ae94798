import BlockC.Proofs.BinderInvariant
import BlockC.Proofs.BlockIsolation
import Mathlib.Data.List.Chain

/-! # The stack of open scopes

The open scopes are a chain of parents down to the root.  A statement that is bound leaves the stack
as it was, up to the one scope that a module opens for what follows it; a statement that fails may
leave more scopes open, but closes none that were open before (`scopes_are_stacked`).
-/
namespace BlockC

/-- The second symbol is the parent of the first. -/
def Table.HasParent (t : Table) (id parent : SymbolId) : Prop :=
  ∃ s, t.get? id = some s ∧ s.parent = some parent

namespace Nested

variable {t : Table} {scopes : List SymbolId}

theorem getLast?_eq (h : Nested t scopes) : scopes.getLast? = some Table.root := by
  induction h with
  | root => rfl
  | step _ _ _ ih => rw [List.getLast?_cons_cons, ih]

theorem isChain (h : Nested t scopes) : scopes.IsChain t.HasParent := by
  induction h with
  | root => exact .singleton _
  | step hs hp _ ih => exact .cons_cons ⟨_, hs, hp⟩ ih

end Nested

/-! ### Modules among statements -/

/-- Whether the statement in a tree is a module, by the kind of the first named node below. -/
def Node.holdsModule (tree : Node) : Bool :=
  tree.namedChildren.head?.any (·.kind == "mod")

namespace Surface

/-- Whether a statement opens a module. -/
def Stmt.isModule : Stmt → Bool
  | .mod _ _ => true
  | _ => false

section
variable (source : ByteArray) (n : Node) (block : String → Option Block)
    (alternative : Unit → Option Block)

theorem isModule_declareForm : (declareForm source n).isModule = false := by
  unfold declareForm
  dsimp only
  split <;> rfl

theorem isModule_externalForm : (externalForm source n).isModule = false := by
  unfold externalForm
  split
  · rfl
  · rename_i declaration _ _
    split
    · cases childIn declaration "typed_ident" with
      | error d => rfl
      | ok child => cases hb : bindingOf source child <;> simp only [bind, Except.bind, hb] <;> rfl
    · cases headerOf source declaration <;> rfl
    · rfl

theorem isModule_ifForm : (ifForm source n block alternative).isModule = false := by
  unfold ifForm withBlock
  dsimp only
  split
  · split <;> rfl
  · rfl

/-- What is read as a module comes from a node of that kind. -/
theorem kind_of_isModule (h : (stmtForm source n block alternative).isModule = true) :
    n.kind = "mod" := by
  unfold stmtForm at h
  dsimp only at h
  split at h
  case h_2 hkind => exact hkind
  case h_3 => cases (isModule_declareForm source n).symm.trans h
  case h_4 => cases (isModule_externalForm source n).symm.trans h
  case h_5 => cases hb : block "body" <;> simp [withBlock, hb, Stmt.isModule] at h
  case h_6 => cases (isModule_ifForm source n block alternative).symm.trans h
  case h_8 =>
    cases hname : nameIn source n "ident" with
    | error d => simp [hname, bind, Except.bind, orBadStmt, Stmt.isModule] at h
    | ok name =>
      cases htype : typeUseIn source n "typing" <;>
        simp [hname, htype, bind, Except.bind, pure, Except.pure, orBadStmt, Stmt.isModule] at h
  case h_9 =>
    cases hheader : headerOf source n <;>
      simp [hheader, bind, Except.bind, pure, Except.pure, orBadStmt, Stmt.isModule] at h
  all_goals cases h

/-- A node of the kind of modules is read as a module, or cannot be read. -/
theorem stmtForm_of_kind (h : n.kind = "mod") :
    (stmtForm source n block alternative).isModule = true ∨
      ∃ d, stmtForm source n block alternative = .bad d := by
  unfold stmtForm
  simp only [h]
  cases nameIn source n "name" with
  | ok name => exact .inl rfl
  | error d => exact .inr ⟨d, rfl⟩

end

theorem stmtInside_eq (source : ByteArray) (children : List Node) :
    stmtInside source children = (children.filter (·.named)).head?.map fun n =>
      stmtForm source n (fun field => blockIn source field n.children)
        (fun _ => alternativeIn source n.children) := by
  induction children with
  | nil => simp [stmtInside]
  | cons n rest ih =>
    obtain ⟨head, children⟩ := n
    cases hn : head.named <;> simp [stmtInside, Node.named, hn, ih]

/-- The statement that is read from a tree is a module just if the tree holds one, unless it cannot
be read. -/
theorem isModule_stmtOf (source : ByteArray) (tree : Node) :
    (stmtOf source tree).isModule = tree.holdsModule ∨ ∃ d, stmtOf source tree = .bad d := by
  obtain ⟨head, children⟩ := tree
  unfold stmtOf
  split
  · rw [stmtInside_eq, Node.holdsModule, Node.namedChildren, Node.children_mk]
    cases (children.filter (·.named)).head? with
    | none => exact .inr ⟨_, rfl⟩
    | some n =>
      simp only [Option.map_some, Option.getD_some, Option.any_some]
      by_cases hkind : n.kind = "mod"
      · exact (stmtForm_of_kind source n _ _ hkind).imp_left fun h => h.trans (by simp [hkind])
      · left
        rw [beq_false_of_ne hkind, Bool.eq_false_iff]
        exact fun h => hkind (kind_of_isModule source n _ _ h)
  · exact .inr ⟨_, rfl⟩

end Surface

namespace Binder

open BlockC.Bound

variable {α β : Type} {ctx : Context}

/-- What a step leads to in any case holds of the context that it leaves behind. -/
theorem Leads.after {m : Binder α} {P : Context → Prop}
    (h : Leads m ctx (fun _ c => P c) fun _ c => P c) : P (ctx.after m) := by
  unfold Leads at h
  unfold Context.after
  cases hm : m.run ctx with
  | ok a c =>
    rw [hm] at h
    exact h
  | error d c =>
    rw [hm] at h
    exact h

/-- Whatever comes first, what a step ends with is up to what comes behind it. -/
theorem Leads.skip {m : Binder α} {f : α → Binder β} {R : β → Context → Prop}
    (h : ∀ a c, Leads (f a) c R fun _ _ => True) : Leads (m >>= f) ctx R fun _ _ => True := by
  refine Leads.bind ?_
  unfold Leads
  cases m.run ctx with
  | ok a c => exact h a c
  | error d c => trivial

/-- Just the statements that open a module are bound to ones that leave a scope open. -/
theorem stmt_opens (s : Surface.Stmt) :
    Leads (stmt s) ctx (fun b _ => s.isModule = !b.opens.isEmpty) fun _ _ => True := by
  cases s with
  | func h body span =>
    obtain ⟨body, bodySpan⟩ := body
    unfold stmt
    exact .skip fun _ _ => .skip fun _ _ => .skip fun _ _ => leads_pure rfl
  | empty span => exact leads_pure rfl
  | ifElse test yes no span =>
    unfold stmt
    exact .skip fun _ _ => .skip fun _ _ => .skip fun _ _ => leads_pure rfl
  | mod name span | declare b initial span | externalVariable b pos span | whileLoop test body span
  | ifThen test yes span | typeAlias name a span =>
    unfold stmt
    exact .skip fun _ _ => .skip fun _ _ => leads_pure rfl
  | externalFunction h declared span | returned value span | expr value span =>
    unfold stmt
    exact .skip fun _ _ => leads_pure rfl
  | bad d => exact leads_throw trivial
  | stuck first d =>
    unfold stmt
    exact .skip fun _ _ => leads_throw trivial

/-- What binding a statement does to the open scopes: nothing, or it opens a module that was not
there before. -/
theorem Binds.scopes_cases {S : Surface.Standard} {s : Stmt} {ctx' : Context}
    (h : Binds S ctx s ctx') :
    if !s.opens.isEmpty then
      ∃ m symbol, ctx'.scopes = m :: ctx.scopes ∧ ctx'.table.get? m = some symbol ∧
        symbol.kind = .mod ∧ ctx.table.get? m = none
    else ctx'.scopes = ctx.scopes := by
  have hscopes := h.scopes
  cases s with
  | mod name m span =>
    obtain ⟨i, symbol, rfl, hsymbol, -, hkind, -⟩ := h.known
    have hlast : [SymbolId.unit i] = [.unit ctx.table.symbols.size] := h.created.1
    obtain rfl : i = ctx.table.symbols.size := by simpa using hlast
    exact ⟨_, symbol, hscopes, hsymbol, hkind, Array.getElem?_size⟩
  | _ => exact hscopes

end Binder

namespace Context

/-- Binding a statement keeps a context in order, whether it succeeds or fails. -/
theorem wellFormed_after_stmt {ctx : Context} (h : ctx.WellFormed Surface.anything.name)
    (s : Surface.Stmt) : (ctx.after (Binder.stmt s)).WellFormed Surface.anything.name :=
  ((Binder.stmt_leads (fun e _ => e.faults_anything) h s s.over_anything).mono
    (fun _ _ hbinds => hbinds.reaches.wellFormed) fun _ _ hfails => hfails.1.wellFormed).after

theorem Session.wellFormed {ctx : Context} (h : Session ctx) :
    ctx.WellFormed Surface.anything.name := by
  induction h with
  | start => exact wellFormed_initial
  | call _ source tree ih => exact wellFormed_after_stmt ih _

end Context

open Context (Session)

/-- **The open scopes are a stack.**  In every session the outermost open scope is the root, and
each other one is right inside the next.  A tree that is bound as a statement leaves the scopes that
were open, with just a new module inside them if it holds a module; and one that fails leaves at
least the scopes that were open. -/
theorem scopes_are_stacked {ctx : Context} (h : Session ctx) :
    ctx.scopes.getLast? = some Table.root ∧ ctx.scopes.IsChain ctx.table.HasParent ∧
    ∀ source tree, match (Binder.stmt (Surface.stmtOf source tree)).run ctx with
      | .ok _ ctx' =>
        if tree.holdsModule then
          ∃ m s, ctx'.scopes = m :: ctx.scopes ∧ ctx'.table.get? m = some s ∧ s.kind = .mod ∧
            ctx.table.get? m = none
        else ctx'.scopes = ctx.scopes
      | .error _ ctx' => ctx.scopes <:+ ctx'.scopes := by
  have hctx := h.wellFormed
  refine ⟨hctx.nested.getLast?_eq, hctx.nested.isChain, fun source tree => ?_⟩
  have hleads := (Binder.stmt_leads (fun e _ => e.faults_anything) hctx _
    (Surface.stmtOf source tree).over_anything).and (Binder.stmt_opens _)
  unfold Binder.Leads at hleads
  cases hrun : (Binder.stmt (Surface.stmtOf source tree)).run ctx with
  | error d ctx' =>
    rw [hrun] at hleads
    obtain ⟨new, hnew, -⟩ := hleads.1.1.scopes
    exact ⟨new, hnew.symm⟩
  | ok b ctx' =>
    rw [hrun] at hleads
    obtain ⟨hbinds, hopens⟩ := hleads
    rcases Surface.isModule_stmtOf source tree with hmodule | ⟨d, hbad⟩
    · rw [← hmodule, hopens]
      exact hbinds.scopes_cases
    · -- What cannot be read is not bound.
      rw [hbad] at hrun
      cases hrun

/-- A loop that fails behind a module leaves both open, and a function that opens modules of its own
leaves them so. -/
theorem function_closes_its_modules :
    ∃ ctx tree f ctx', Session ctx ∧ ctx.scopes = [.unit 2, .unit 1, .unit 0] ∧
      tree = (Grammar.parse "fn f() -> i32 do mod b; mod c; return 1; end").children.headD default ∧
      (Binder.stmt (Surface.stmtOf "fn f() -> i32 do mod b; mod c; return 1; end".toUTF8 tree)).run
        ctx = .ok f ctx' ∧ ctx'.scopes = ctx.scopes := by
  obtain ⟨ctx, hctx, hsession⟩ : ∃ ctx, ctx = Context.initial.after (Binder.stmt
      (Surface.stmtOf "while true do mod a; let x: i32 = y; end".toUTF8
        ((Grammar.parse "while true do mod a; let x: i32 = y; end").children.headD default))) ∧
      Session ctx := ⟨_, rfl, .call .start _ _⟩
  obtain ⟨source, hsource⟩ : ∃ source, source =
      "fn f() -> i32 do mod b; mod c; return 1; end".toUTF8 := ⟨_, rfl⟩
  obtain ⟨tree, htree⟩ : ∃ tree, tree =
      (Grammar.parse "fn f() -> i32 do mod b; mod c; return 1; end").children.headD default :=
    ⟨_, rfl⟩
  have hfacts : ctx.scopes = [.unit 2, .unit 1, .unit 0] ∧ tree.holdsModule = false ∧
      (match (Binder.stmt (Surface.stmtOf source tree)).run ctx with
        | .ok _ _ => true
        | .error _ _ => false) = true := by
    rw [hctx, hsource, htree]
    decide +kernel
  obtain ⟨hscopes, hmodule, hok⟩ := hfacts
  have hstack := (scopes_are_stacked hsession).2.2 source tree
  split at hok
  · rename_i f ctx' hrun
    rw [hrun, hmodule] at hstack
    exact ⟨ctx, tree, f, ctx', hsession, hscopes, htree, hsource ▸ hrun, hstack⟩
  · cases hok

end BlockC

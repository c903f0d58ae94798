import BlockC.Proofs.CompileOutcome
import BlockC.Proofs.LayoutIndependence
import BlockC.Proofs.Spelling
import BlockC.Proofs.StatementSeam

/-! # Code that is appended

What is written for a program that a table knows is written for it over every table that has grown
from that one (`stmts_later`): symbols keep their names, types and modules.  Binding more statements
behind others changes nothing of what the others are bound to (`stmts_run_append`).  So text that
goes on behind a line with a semicolon adds to the code of the text before it, and never repairs its
fault (`appending_keeps_code`).
-/
namespace BlockC

/-- A table in order, and one in order that has grown from it. -/
structure Later (t t' : Table) : Prop where
  before : t.WellFormed
  after : t'.WellFormed
  grows : ∃ scope, t.Grows scope t'

variable {t t' : Table}

/-- A symbol is still there later on, at most with more children. -/
theorem Later.get? (h : Later t t') {id : SymbolId} {s : Symbol} (hs : t.get? id = some s) :
    ∃ children, t'.get? id = some { s with children } := by
  cases id with
  | builtin i => exact ⟨s.children, hs⟩
  | unit i =>
    obtain ⟨scope, hgrows⟩ := h.grows
    obtain ⟨new, hs', -⟩ := hgrows i s hs
    exact ⟨s.children ++ new, hs'⟩

theorem Later.get (h : Later t t') {id : SymbolId} (hid : t.Has id) :
    ∃ s children, t.get? id = some s ∧ t.get id = .ok s ∧ t'.get id = .ok { s with children } := by
  obtain ⟨s, hget, hs⟩ := hid.get
  obtain ⟨children, hs'⟩ := h.get? hs
  exact ⟨s, children, hs, hget, by simp [Table.get, hs']⟩

theorem Table.Declares.has {id : SymbolId} {name : String} {kind : SymbolKind}
    {typing : Option Typing} {external : Bool} (h : t.Declares id name kind typing external)
    (hk : kind.IsNamed) : t.Has id := by
  obtain ⟨i, s, rfl, hs, -, rfl, -⟩ := h
  exact Table.has_unit hs hk

namespace Code

open BlockC.Bound

/-! ### Names -/

/-- The modules around a symbol stay. -/
theorem enclosing_later (h : Later t t') {i : Nat} (hi : i < t.symbols.size) :
    enclosing t' (.unit i) = enclosing t (.unit i) := by
  have hrooted := h.before.toRooted
  have hrooted' := h.after.toRooted
  obtain ⟨scope, hgrows⟩ := h.grows
  induction i using Nat.strongRecOn with
  | ind i ih =>
    obtain ⟨s, hs⟩ := Table.exists_symbol hi
    obtain ⟨new, hs', -⟩ := hgrows i s hs
    by_cases h0 : i = 0
    · subst h0
      exact (enclosing_root hrooted').trans (enclosing_root hrooted).symm
    · obtain ⟨j, hj, hp⟩ := hrooted.parent hs h0
      rw [enclosing_parent hrooted' hs' hp, enclosing_parent hrooted hs hp, ih j hj (by omega)]

theorem mangledSymbol_later (h : Later t t') {i : Nat} {s : Symbol}
    (hs : t.symbols[i]? = some s) (hk : s.kind ≠ .root) :
    mangledSymbol t' (.unit i) = mangledSymbol t (.unit i) := by
  have hrooted := h.before.toRooted
  have h0 : i ≠ 0 := by
    rintro rfl
    obtain ⟨r, hr, -, hroot, -⟩ := hrooted.root
    obtain rfl : s = r := Option.some.inj (hs.symm.trans hr)
    exact hk hroot
  obtain ⟨j, hj, hp⟩ := hrooted.parent hs h0
  obtain ⟨scope, hgrows⟩ := h.grows
  obtain ⟨new, hs', -⟩ := hgrows i s hs
  have hlt := Table.lt_size hs
  rw [mangledSymbol_parent h.after.toRooted hs' hp, mangledSymbol_parent hrooted hs hp,
    enclosing_later h (by omega)]

theorem spelled_later (h : Later t t') {id : Ident} (hid : t.Has id.symbol) :
    spelled t' id = spelled t id := by
  cases hd : id.isDotted with
  | false => rw [spelled_plain hd, spelled_plain hd]
  | true =>
    obtain ⟨s, children, hs, hget, hget'⟩ := h.get hid
    simp only [spelled, hd, if_true, hget, hget', bind, Except.bind]
    by_cases hfunc : s.kind = .func ∧ s.isExternal = false
    · rw [if_pos hfunc, if_pos hfunc]
      generalize id.symbol = symbol at hs
      cases symbol with
      | unit i => exact mangledSymbol_later h hs (by simp [hfunc.1])
      | builtin i =>
        obtain ⟨name, -, rfl⟩ := Option.map_eq_some_iff.mp hs
        cases hfunc.1
    · rw [if_neg hfunc, if_neg hfunc]

/-! ### Expressions and types -/

mutual

theorem expr_later (h : Later t t') : {e : Expr} → e.Known t → expr t' e = expr t e
  | .ident _, he => by
    unfold expr
    exact spelled_later h he
  | .binary _ _ _ _, he | .assignment _ _ _ _, he => by
    unfold expr
    rw [expr_later h he.1, expr_later h he.2]
  | .unary _ argument _, he => by
    unfold expr
    rw [expr_later h (e := argument) he]
  | .condition _ _ _ _, he => by
    unfold expr
    rw [expr_later h he.1, expr_later h he.2.1, expr_later h he.2.2]
  | .call _ _ _, he => by
    unfold expr
    rw [exprs_later h he.2, spelled_later h he.1]
  | .parenthesized inner _, he => by
    unfold expr
    rw [expr_later h (e := inner) he]
  | .number _ _, _ | .string _ _, _ | .boolean _ _, _ | .null _, _ => by
    unfold expr
    rfl

theorem exprs_later (h : Later t t') :
    {es : List Expr} → Expr.AllKnown t es → exprs t' es = exprs t es
  | [], _ => by
    unfold exprs
    rfl
  | _ :: _, hes => by
    unfold exprs
    rw [expr_later h hes.1, exprs_later h hes.2]

end

mutual

theorem declarator_later (h : Later t t') {bound : Nat} : {typing : Typing} →
    typing.Within t bound → (name : String) → declarator t' typing name = declarator t typing name
  | .ref _ _, hty, name => by
    obtain ⟨s, children, -, hget, hget'⟩ := h.get (Table.HasType.has hty)
    unfold declarator
    rw [hget, hget']
    rfl
  | .signature _ _ _, hty, name => by
    obtain ⟨params, hparams, -⟩ := (abstractDeclarators_written hty.1).exists_ok
    unfold declarator
    rw [abstractDeclarators_later h hty.1, hparams]
    exact declarator_later h hty.2 _

theorem abstractDeclarators_later (h : Later t t') {bound : Nat} : {typings : List Typing} →
    Typing.AllWithin t bound typings →
      abstractDeclarators t' typings = abstractDeclarators t typings
  | [], _ => by
    unfold abstractDeclarators
    rfl
  | _ :: _, hty => by
    unfold abstractDeclarators
    rw [declarator_later h hty.1, abstractDeclarators_later h hty.2]

end

theorem binding_later (h : Later t t') {kind : SymbolKind} {external : Bool} {b : Binding}
    (hb : b.Known t kind external) : binding t' b = binding t b :=
  declarator_later h hb.1 b.name

theorem bindings_later (h : Later t t') {kind : SymbolKind} {external : Bool} {bs : List Binding}
    (hbs : ∀ b ∈ bs, b.Known t kind external) : bindings t' bs = bindings t bs := by
  induction bs with
  | nil => rfl
  | cons b bs ih =>
    unfold bindings
    rw [binding_later h (hbs b (by simp)), ih fun x hx => hbs x (by simp [hx])]

/-- What a function returns and what a type name stands for are found as before. -/
theorem returnType_later (h : Later t t') {external : Bool} {f : Header} (hf : f.Known t external) :
    returnType t' f = returnType t f := by
  obtain ⟨-, returns, -, hdeclares⟩ := hf
  obtain ⟨s, children, -, hget, hget'⟩ := h.get (hdeclares.has SymbolKind.isNamed_func)
  unfold returnType
  rw [hget, hget']
  rfl

theorem aliasedType_later (h : Later t t') {name : String} {symbol : SymbolId}
    {typing : Option Typing} (hd : t.Declares symbol name .typeName typing false) :
    aliasedType t' name symbol = aliasedType t name symbol := by
  obtain ⟨s, children, -, hget, hget'⟩ := h.get (hd.has SymbolKind.isNamed_typeName)
  unfold aliasedType
  rw [hget, hget']
  rfl

theorem externalHead_later (h : Later t t') {f : Header} (hf : f.Known t true) :
    externalHead t' f = externalHead t f := by
  obtain ⟨params, hparams, -⟩ := (bindings_written hf.1).exists_ok
  obtain ⟨returns, hreturns, hwithin⟩ := (returnType_meets hf).exists_ok
  unfold externalHead
  rw [bindings_later h hf.1, returnType_later h hf, hparams, hreturns]
  exact declarator_later h hwithin _

theorem definitionHead_later (h : Later t t') {f : Header} (hf : f.Known t false)
    (modules : List String) : definitionHead t' modules f = definitionHead t modules f := by
  obtain ⟨params, hparams, -⟩ := (bindings_written hf.1).exists_ok
  obtain ⟨returns, hreturns, hwithin⟩ := (returnType_meets hf).exists_ok
  unfold definitionHead
  rw [bindings_later h hf.1, returnType_later h hf, hparams, hreturns]
  exact declarator_later h hwithin _

theorem initialValue_later (h : Later t t') {initial : Option Expr}
    (hi : ∀ e ∈ initial, e.Known t) : initialValue t' initial = initialValue t initial := by
  cases initial with
  | none => rfl
  | some e => simp only [initialValue, expr_later h (hi e (by simp))]

/-! ### Statements -/

mutual

theorem stmt_later (h : Later t t') (modules : List String) :
    {s : Stmt} → s.Known t → stmt t' modules s = stmt t modules s
  | .empty _, _ | .mod _ _ _, _ => by
    unfold stmt
    rfl
  | .declare _ _ _, hs => by
    unfold stmt
    rw [binding_later h hs.1, initialValue_later h hs.2]
  | .externalVariable _ _, hs => by
    unfold stmt
    rw [binding_later h hs]
  | .externalFunction _ _ _, hs => by
    unfold stmt
    rw [externalHead_later h hs]
  | .whileLoop _ _ _, hs | .ifThen _ _ _, hs => by
    unfold stmt
    rw [expr_later h hs.1, block_later h modules hs.2]
  | .ifElse _ _ _ _, hs => by
    unfold stmt
    rw [expr_later h hs.1, block_later h modules hs.2.1, block_later h modules hs.2.2]
  | .returned _ _, hs | .expr _ _, hs => by
    unfold stmt
    rw [expr_later h hs]
  | .typeAlias name _ _ span, hs => by
    obtain ⟨typing, hwithin, hdeclares⟩ := hs
    obtain ⟨found, hfound, hin⟩ := (aliasedType_meets hwithin hdeclares).exists_ok
    unfold stmt
    rw [aliasedType_later h hdeclares, hfound]
    change (located span.start (declarator t' found name) >>= _) =
      (located span.start (declarator t found name) >>= _)
    rw [declarator_later h hin]
  | .func _ _ _, hs => by
    unfold stmt
    rw [definitionHead_later h hs.1, block_later h modules hs.2.2]

theorem block_later (h : Later t t') (modules : List String) :
    {b : Block} → b.Known t → block t' modules b = block t modules b
  | .mk _ _ _, hb => by
    unfold block
    exact stmts_later h modules hb

/-- **What is known to a table is written as before once the table has grown.** -/
theorem stmts_later (h : Later t t') (modules : List String) :
    {ss : List Stmt} → Stmt.AllKnown t ss → stmts t' modules ss = stmts t modules ss
  | [], _ => by
    unfold stmts
    rfl
  | s :: rest, hss => by
    unfold stmts
    rw [stmt_later h modules hss.1]
    cases stmt t modules s with
    | error d => rfl
    | ok r =>
      change (stmts t' r.2 rest >>= _) = (stmts t r.2 rest >>= _)
      rw [stmts_later h r.2 hss.2]

end

/-- More statements add to what is written. -/
theorem stmts_prefix {modules : List String} {ss more : List Stmt} {code front : String}
    (h : stmts t modules (ss ++ more) = .ok code) (hfront : stmts t modules ss = .ok front) :
    ∃ added, code = front ++ added := by
  induction ss generalizing modules code front with
  | nil =>
    obtain rfl : "" = front := Except.ok.inj hfront
    exact ⟨code, by simp⟩
  | cons s ss ih =>
    unfold stmts at hfront
    rw [List.cons_append] at h
    unfold stmts at h
    cases hs : stmt t modules s with
    | error d =>
      rw [hs] at h
      cases h
    | ok r =>
      rw [hs] at h hfront
      change (stmts t r.2 (ss ++ more) >>= fun c => pure (r.1 ++ c)) = _ at h
      change (stmts t r.2 ss >>= fun c => pure (r.1 ++ c)) = _ at hfront
      cases hall : stmts t r.2 (ss ++ more) with
      | error d =>
        rw [hall] at h
        cases h
      | ok all =>
        cases hpart : stmts t r.2 ss with
        | error d =>
          rw [hpart] at hfront
          cases hfront
        | ok part =>
          rw [hall] at h
          rw [hpart] at hfront
          obtain rfl := Except.ok.inj h
          obtain rfl := Except.ok.inj hfront
          obtain ⟨added, rfl⟩ := ih hall hpart
          exact ⟨added, String.append_assoc.symm⟩

theorem unit_eq_ok {ss : List Stmt} {span : Span} {withPrelude : Bool} {code : String}
    (h : unit ⟨⟨ss, span⟩, t⟩ withPrelude = .ok code) :
    ∃ body, stmts t [] ss = .ok body ∧ code = (if withPrelude then prelude else "") ++ body := by
  unfold unit at h
  dsimp only at h
  cases hbody : stmts t [] ss with
  | error d =>
    rw [hbody] at h
    cases h
  | ok body =>
    rw [hbody] at h
    exact ⟨body, rfl, (Except.ok.inj h).symm⟩

/-- More statements over a table that has grown add to what is written for the same statements, but
for their places. -/
theorem unit_later (h : Later t t') {g : Position → Position} {ss ss' more : List Stmt}
    (hknown : Stmt.AllKnown t ss') (hmoved : Stmt.allMoved g ss = Stmt.allMoved g ss')
    {span span' : Span} {withPrelude : Bool} {code all : String}
    (hcode : unit ⟨⟨ss, span⟩, t⟩ withPrelude = .ok code)
    (hall : unit ⟨⟨ss' ++ more, span'⟩, t'⟩ withPrelude = .ok all) :
    ∃ added, all = code ++ added := by
  obtain ⟨body, hbody, rfl⟩ := unit_eq_ok hcode
  obtain ⟨bodies, hbodies, rfl⟩ := unit_eq_ok hall
  have hsame : Except.moved g id (stmts t [] ss) = Except.moved g id (stmts t [] ss') := by
    rw [← stmts_moved, ← stmts_moved, hmoved]
  obtain ⟨body', hbody', -⟩ := (stmts_written h.before [] hknown).exists_ok
  rw [hbody, hbody'] at hsame
  obtain rfl : body = body' := Except.ok.inj hsame
  rw [← stmts_later h [] hknown] at hbody'
  obtain ⟨added, rfl⟩ := stmts_prefix hbodies hbody'
  exact ⟨added, String.append_assoc.symm⟩

end Code

namespace Binder

/-- Statements are bound one after the other. -/
theorem stmts_append (ss more : List Surface.Stmt) :
    stmts (ss ++ more) = do
      let bs ← stmts ss
      return bs ++ (← stmts more) := by
  induction ss with
  | nil => simp [stmts]
  | cons s ss ih => simp [stmts, ih]

variable {ss more : List Surface.Stmt} {ctx c : Context}

theorem stmts_run_error {d : Diagnostic} (h : (stmts ss).run ctx = .error d c) :
    (stmts (ss ++ more)).run ctx = .error d c := by
  have hrun : stmts ss ctx = .error d c := h
  rw [stmts_append]
  change EStateM.bind (stmts ss) _ ctx = _
  rw [EStateM.bind, hrun]

/-- Behind statements that could be bound, binding goes on from where they lead. -/
theorem stmts_run_ok {bs all : List Bound.Stmt} {c' : Context} (h : (stmts ss).run ctx = .ok bs c)
    (hall : (stmts (ss ++ more)).run ctx = .ok all c') :
    ∃ added, all = bs ++ added ∧ (stmts more).run c = .ok added c' := by
  have hrun : stmts ss ctx = .ok bs c := h
  rw [stmts_append] at hall
  change EStateM.bind (stmts ss) (fun bs => EStateM.bind (stmts more) _) ctx = _ at hall
  rw [EStateM.bind, hrun] at hall
  change EStateM.bind (stmts more) _ c = _ at hall
  unfold EStateM.bind at hall
  cases hmore : stmts more c with
  | error d c'' =>
    rw [hmore] at hall
    cases hall
  | ok added c'' =>
    rw [hmore] at hall
    obtain ⟨rfl, rfl⟩ := EStateM.Result.ok.inj hall
    exact ⟨added, rfl, hmore⟩

/-- What is bound is known to the table it ends with. -/
theorem bindsAll_of_run (hctx : ctx.WellFormed Surface.anything.name) {bs : List Bound.Stmt}
    (h : (stmts ss).run ctx = .ok bs c) : BindsAll Surface.anything ctx bs c := by
  have hleads := stmts_leads (S := Surface.anything) (fun e _ => e.faults_anything) hctx ss
    (Surface.Stmt.allOver_anything ss)
  unfold Leads at hleads
  rw [h] at hleads
  exact hleads

/-- Statements that can be bound with others behind them are bound as they are alone, and the table
then grows from theirs. -/
theorem later_of_run {bs all : List Bound.Stmt} {c' : Context}
    (h : (stmts ss).run .initial = .ok bs c)
    (hall : (stmts (ss ++ more)).run .initial = .ok all c') :
    ∃ added, all = bs ++ added ∧ Bound.Stmt.AllKnown c.table bs ∧ Later c.table c'.table := by
  obtain ⟨added, rfl, hmore⟩ := stmts_run_ok h hall
  have hbinds := bindsAll_of_run Context.wellFormed_initial h
  have hreaches := (bindsAll_of_run hbinds.reaches.wellFormed hmore).reaches
  exact ⟨added, rfl, hbinds.known, hbinds.reaches.wellFormed.table, hreaches.wellFormed.table,
    _, hreaches.grows⟩

end Binder

open Grammar

/-! ### Compiling a longer text -/

/-- The tree of a text is read in the same way over every text that has its tokens. -/
theorem twin_of_mem {front whole : String} (h : (parse front).Clean)
    (hmem : ∀ t ∈ tokens front, t ∈ tokens whole) :
    (parse front).Twin id front.toUTF8 whole.toUTF8 (parse front) := by
  have hok := result_of_clean h
  have hts : List.Forall₂ (Token.Alike id (SameText front.toUTF8 whole.toUTF8)) (tokens front)
      (tokens front) := by
    refine List.forall₂_same.mpr fun t ht => ⟨rfl, rfl, t.value, ?_, ?_⟩
    · exact (standsIn_of_mem_tokens ht).text
    · exact (standsIn_of_mem_tokens (hmem t ht)).text
  refine ⟨?_, legible_of_drive hok⟩
  have hstart : (Stream.ofString front).index = (Stream.ofString front).index := rfl
  rcases drive_alike hts alike_sourceFile hstart with ⟨n, n', hn, hn', halike⟩ | ⟨f, f', hf, -⟩
  · rw [hok] at hn hn'
    cases hn
    cases hn'
    exact halike
  · rw [hok] at hf
    cases hf

/-- The statements of a text come first among those of a text that goes on behind it, but for the
source that they are read from. -/
theorem stmtsOf_seam {front back : String} (h : (parse front).Clean)
    (hwhole : (parse (front ++ "\n;\n" ++ back)).Clean) :
    ∃ ss more, Surface.stmtsOf (front ++ "\n;\n" ++ back).toUTF8
        (parse (front ++ "\n;\n" ++ back)).children = ss ++ more ∧
      Surface.Stmt.allMoved id (Surface.stmtsOf front.toUTF8 (parse front).children) =
        Surface.Stmt.allMoved id ss := by
  obtain ⟨⟨semicolon, rest, htokens⟩, behind, hchildren⟩ := children_seam h hwhole
  have hmem : ∀ t ∈ tokens front, t ∈ tokens (front ++ "\n;\n" ++ back) := by
    intro t ht
    rw [htokens]
    exact List.mem_append_left _ ht
  have hsame : Surface.SameStmts id _ _ :=
    Surface.stmtsOf_twin _ _ (twin_of_mem h hmem).children
  refine ⟨_, Surface.stmtsOf (front ++ "\n;\n" ++ back).toUTF8 behind, ?_, hsame⟩
  rw [← hchildren, stmtsOf_append]

/-- Compiling a text in order is binding its statements and writing what they are bound to. -/
theorem compile_eq_run {source : String} (h : (parse source).Clean) (withPrelude : Bool) :
    compile source withPrelude =
      match (Binder.stmts (Surface.stmtsOf source.toUTF8 (parse source).children)).run .initial with
      | .ok bs c => Code.unit ⟨⟨bs, (parse source).span⟩, c.table⟩ withPrelude
      | .error d _ => .error d := by
  have hkind := (stmtsOf_allProper_of_check (Node.check_eq_ok_iff.mpr h)).1
  rw [compile_of_clean withPrelude h, bindTree, hkind, beq_self_eq_true, if_pos rfl]
  cases (Binder.stmts (Surface.stmtsOf source.toUTF8 (parse source).children)).run .initial <;> rfl

/-- **Appending code never changes code already emitted.** For a text in order that goes on behind a
line with a semicolon to a text in order: what the whole is compiled to, if it is, starts with what
the text alone is compiled to; and a fault of the text alone is that of the whole. -/
theorem appending_keeps_code (front back : String) (withPrelude : Bool)
    (hfront : (parse front).check front.toUTF8 = .ok ())
    (hwhole : (parse (front ++ "\n;\n" ++ back)).check (front ++ "\n;\n" ++ back).toUTF8 =
      .ok ()) :
    (∀ code, compile front withPrelude = .ok code →
      ∀ all, compile (front ++ "\n;\n" ++ back) withPrelude = .ok all →
        ∃ added, all = code ++ added) ∧
    ∀ d, compile front withPrelude = .error d →
      compile (front ++ "\n;\n" ++ back) withPrelude = .error d := by
  have hclean := Node.check_eq_ok_iff.mp hfront
  have hclean' := Node.check_eq_ok_iff.mp hwhole
  obtain ⟨ss, more, hstmts, hsame⟩ := stmtsOf_seam hclean hclean'
  have hrun := Binder.relocates_stmts (g := id)
    (Surface.stmtsOf front.toUTF8 (parse front).children)
  have hrun' := Binder.relocates_stmts (g := id) ss
  rw [← hsame] at hrun'
  rw [compile_eq_run hclean, compile_eq_run hclean', hstmts]
  rcases hrun.agree hrun' .initial with
    ⟨bs, bs', c, hbs, hbs', hmoved⟩ | ⟨d, d', c, hd, hd', hmoved⟩
  · rw [hbs]
    refine ⟨fun code hcode all hall => ?_, fun d hd => ?_⟩
    · cases hmore : (Binder.stmts (ss ++ more)).run .initial with
      | error d c' =>
        rw [hmore] at hall
        cases hall
      | ok bound c' =>
        rw [hmore] at hall
        obtain ⟨added, rfl, hknown, hlater⟩ := Binder.later_of_run hbs' hmore
        exact Code.unit_later hlater hknown hmoved hcode hall
    · -- What is bound can be written, so there is no fault.
      have hbinds := Binder.bindsAll_of_run Context.wellFormed_initial hbs
      obtain ⟨code, hcode, -⟩ := (Code.unit_written (u := ⟨⟨bs, _⟩, c.table⟩)
        hbinds.reaches.wellFormed.table hbinds.known withPrelude).exists_ok
      cases hd.symm.trans hcode
  · obtain rfl : d = d' := hmoved
    rw [hd, Binder.stmts_run_error hd']
    exact ⟨fun _ hcode => (nomatch hcode), fun _ hd => hd⟩

/-- A function that calls the one before it is appended to its code; a name that is declared behind
its use is missing as before. -/
theorem function_is_appended :
    (∃ all added, compile ("mod a\nfn f() -> i32 do return 1 end // one" ++ "\n;\n" ++
        "fn g() -> i32 do return a.f() end") false = .ok all ∧
      compile "mod a\nfn f() -> i32 do return 1 end // one" false =
        .ok "i32 a_f() \x7breturn 1;\x7d" ∧
      all = "i32 a_f() \x7breturn 1;\x7d" ++ added) ∧
    ∃ d, compile "let x: i32 = y" false = .error d ∧ d.cause = .unresolvedSymbol "y" ∧
      compile ("let x: i32 = y" ++ "\n;\n" ++ "let y: i32 = 1") false = .error d := by
  have hcheck : ∀ source : String, ((parse source).check source.toUTF8).toOption = some () →
      (parse source).check source.toUTF8 = .ok () := by
    intro source h
    obtain ⟨_, hok, -⟩ := exists_ok_of_map (f := id) (by simpa using h)
    exact hok
  refine ⟨?_, ?_⟩
  · have hfront : (compile "mod a\nfn f() -> i32 do return 1 end // one" false).toOption.map id =
        some "i32 a_f() \x7breturn 1;\x7d" := by decide +kernel
    have hwhole : (compile ("mod a\nfn f() -> i32 do return 1 end // one" ++ "\n;\n" ++
        "fn g() -> i32 do return a.f() end") false).toOption.map (fun _ => ()) = some () := by
      decide +kernel
    obtain ⟨code, hcode, rfl⟩ := exists_ok_of_map hfront
    obtain ⟨all, hall, -⟩ := exists_ok_of_map hwhole
    obtain ⟨added, hadded⟩ := (appending_keeps_code _ _ false (hcheck _ (by decide +kernel))
      (hcheck _ (by decide +kernel))).1 _ hcode _ hall
    exact ⟨all, added, hall, hcode, hadded⟩
  · have hcause : (match compile "let x: i32 = y" false with
        | .ok _ => none
        | .error d => some d.cause) = some (.unresolvedSymbol "y") := by decide +kernel
    cases hd : compile "let x: i32 = y" false with
    | ok code =>
      rw [hd] at hcause
      cases hcause
    | error d =>
      rw [hd] at hcause
      exact ⟨d, rfl, Option.some.inj hcause, (appending_keeps_code _ _ false
        (hcheck _ (by decide +kernel)) (hcheck _ (by decide +kernel))).2 d hd⟩

end BlockC

import BlockC.Proofs.ExprRoundTrip

/-! # C text in pieces

The C text of a program, cut into pieces that tell the names in it from the rest: which symbol a
name declares, which name of the program a name stands for, and where the reach of declarations
begins and ends.  The pieces one behind the other are the text that is written (`unit_eq_render`).
-/
namespace BlockC
namespace Code

open BlockC.Bound Lexical

/-- A stretch of C text. -/
inductive Piece where
  | plain (text : String)
  /-- The name that a symbol is declared under. -/
  | declared (symbol : SymbolId) (name : String)
  /-- A name in an expression, as it is written. -/
  | used (id : Ident) (name : String)
  /-- The start of what a parameter list and a block bound together. -/
  | opened
  /-- The end of it. -/
  | closed

/-- What a piece adds to the text. -/
def Piece.text : Piece → String
  | .plain text => text
  | .declared _ name | .used _ name => name
  | .opened | .closed => ""

/-- The text that pieces make up. -/
def render : List Piece → String
  | [] => ""
  | p :: rest => p.text ++ render rest

theorem render_append (ps qs : List Piece) : render (ps ++ qs) = render ps ++ render qs := by
  induction ps with
  | nil => simp [render]
  | cons p ps ih => simp [render, ih, String.append_assoc]

/-! ### Expressions -/

/-- Pieces in parentheses, with commas between them. -/
def listed : List (List Piece) → List Piece
  | [] => []
  | [ps] => ps
  | ps :: rest => ps ++ .plain "," :: listed rest

theorem listed_cons_cons (ps qs : List Piece) (rest : List (List Piece)) :
    listed (ps :: qs :: rest) = ps ++ .plain "," :: listed (qs :: rest) := rfl

theorem render_listed : (pss : List (List Piece)) →
    render (listed pss) = Text.joined "," (pss.map render)
  | [] => rfl
  | [ps] => rfl
  | ps :: qs :: rest => by
    have hrest := render_listed (qs :: rest)
    simp only [List.map_cons] at hrest
    simp only [listed_cons_cons, List.map_cons, Text.joined, render_append, render, Piece.text,
      hrest, String.append_assoc]

/-- Pieces as a parameter list. -/
def enlisted (pss : List (List Piece)) : List Piece :=
  .plain "(" :: (listed pss ++ [.plain ")"])

theorem render_enlisted (pss : List (List Piece)) :
    render (enlisted pss) = parameterList (pss.map render) := by
  simp [enlisted, render, render_append, Piece.text, render_listed, parameterList,
    String.append_assoc]

/-- A name as it is written. -/
def use (t : Table) (id : Ident) : Piece :=
  .used id ((spelled t id).toOption.getD "")

mutual

/-- The pieces of an expression. -/
def exprPieces (t : Table) : Expr → List Piece
  | .ident id => [use t id]
  | .binary left op right _ =>
    .plain "(" :: (exprPieces t left ++ .plain (") " ++ op.text ++ " (") ::
      (exprPieces t right ++ [.plain ")"]))
  | .unary op argument _ => .plain (op.text ++ "(") :: (exprPieces t argument ++ [.plain ")"])
  | .condition test yes no _ =>
    .plain "(" :: (exprPieces t test ++ .plain ") ? (" :: (exprPieces t yes ++
      .plain ") : (" :: (exprPieces t no ++ [.plain ")"])))
  | .call callee args _ => use t callee :: enlisted (exprsPieces t args)
  | .assignment left op right _ =>
    exprPieces t left ++ .plain (" " ++ op.text ++ " (") :: (exprPieces t right ++ [.plain ")"])
  | .parenthesized inner _ => .plain "(" :: (exprPieces t inner ++ [.plain ")"])
  | .number value _ => [.plain (Numeral.decimal value.toNat)]
  | .string text _ => [.plain text]
  | .boolean value _ => [.plain (if value then "true" else "false")]
  | .null _ => [.plain "NULL"]

/-- The pieces of each of the expressions. -/
def exprsPieces (t : Table) : List Expr → List (List Piece)
  | [] => []
  | e :: rest => exprPieces t e :: exprsPieces t rest

end

section
variable {t : Table}

theorem spelled_use (ht : t.WellFormed) {id : Ident} (h : t.Has id.symbol) :
    spelled t id = .ok (use t id).text := by
  obtain ⟨name, hname, -⟩ := (spelled_written ht h).exists_ok
  rw [use, hname]
  rfl

mutual

theorem expr_eq_render (ht : t.WellFormed) : {e : Expr} → e.Known t →
    expr t e = .ok (render (exprPieces t e))
  | .ident _, h => by
    simp [expr, exprPieces, render, spelled_use ht h]
  | .binary _ _ _ _, h => by
    simp only [expr, exprPieces, expr_eq_render ht h.1, expr_eq_render ht h.2, bind, Except.bind,
      pure, Except.pure, render, render_append, Piece.text, String.append_assoc,
      String.append_empty]
  | .unary _ argument _, h => by
    simp only [expr, exprPieces, expr_eq_render ht (e := argument) h, bind, Except.bind, pure,
      Except.pure, render, render_append, Piece.text, String.append_assoc, String.append_empty]
  | .condition _ _ _ _, h => by
    simp only [expr, exprPieces, expr_eq_render ht h.1, expr_eq_render ht h.2.1,
      expr_eq_render ht h.2.2, bind, Except.bind, pure, Except.pure, render, render_append,
      Piece.text, String.append_assoc, String.append_empty]
  | .call _ _ _, h => by
    simp only [expr, exprPieces, exprs_eq_render ht h.2, spelled_use ht h.1, bind, Except.bind,
      pure, Except.pure, render, render_enlisted]
  | .assignment _ _ _ _, h => by
    simp only [expr, exprPieces, expr_eq_render ht h.1, expr_eq_render ht h.2, bind, Except.bind,
      pure, Except.pure, render, render_append, Piece.text, String.append_assoc,
      String.append_empty]
  | .parenthesized inner _, h => by
    simp only [expr, exprPieces, expr_eq_render ht (e := inner) h, bind, Except.bind, pure,
      Except.pure, render, render_append, Piece.text, String.append_assoc, String.append_empty]
  | .number _ _, _ | .string _ _, _ | .boolean _ _, _ | .null _, _ => by
    simp [expr, exprPieces, render, Piece.text, pure, Except.pure]

theorem exprs_eq_render (ht : t.WellFormed) : {es : List Expr} → Expr.AllKnown t es →
    exprs t es = .ok ((exprsPieces t es).map render)
  | [], _ => rfl
  | _ :: _, h => by
    simp only [exprs, exprsPieces, expr_eq_render ht h.1, exprs_eq_render ht h.2, bind, Except.bind,
      pure, Except.pure, List.map_cons]

end
end

/-! ### Declarators -/

/-- A text that is not empty, does not start with a star and does not end with a blank. -/
structure Solid (cs : List Char) : Prop where
  head : ∃ c rest, cs = c :: rest ∧ c ≠ '*'
  last : ∃ front c, cs = front ++ [c] ∧ Text.isBlank c = false

theorem solid_of_isName {name : String} (h : IsName name) : Solid name.toList := by
  obtain ⟨c, cs, hname, hc, -⟩ := h.1
  refine ⟨⟨c, cs, hname, ?_⟩, ?_⟩
  · rintro rfl
    exact absurd hc (by decide)
  · rcases List.eq_nil_or_concat name.toList with hnil | ⟨front, d, hlast⟩
    · rw [hnil] at hname
      cases hname
    · rw [List.concat_eq_append] at hlast
      refine ⟨front, d, hlast, not_isBlank_of_isWordPart (h.1.parts d ?_)⟩
      rw [hlast]
      simp

/-- More text behind a solid one, up to a bracket. -/
theorem Solid.append {cs front : List Char} (h : Solid cs) {c : Char}
    (hc : Text.isBlank c = false) : Solid (cs ++ front ++ [c]) := by
  obtain ⟨d, rest, rfl, hd⟩ := h.head
  exact ⟨⟨d, rest ++ front ++ [c], by simp, hd⟩, _, c, rfl, hc⟩

theorem trimEnd_solid (front : List Char) {cs : List Char} (h : Solid cs) :
    Text.trimEnd (front ++ cs) = front ++ cs := by
  obtain ⟨init, c, rfl, hc⟩ := h.last
  simp [Text.trimEnd, hc]

/-- Lays a qualifier around a place for a name. -/
def surround : List Char × List Char → Qualifier → List Char × List Char
  | (before, behind), .pointer | (before, behind), .slice => ('*' :: before, behind)
  | (before, behind), .array size =>
    let bounds := "[".toList ++ (Numeral.decimal size.toNat).toList ++ "]".toList
    if before.head? = some '*' then ('(' :: before, behind ++ ')' :: bounds)
    else (before, behind ++ bounds)

theorem qualify_surround {core : List Char} (hcore : Solid core) (before behind : List Char)
    (q : Qualifier) :
    qualify (before ++ core ++ behind) q =
      (surround (before, behind) q).1 ++ core ++ (surround (before, behind) q).2 := by
  obtain ⟨c, rest, rfl, hc⟩ := hcore.head
  cases q with
  | pointer => rfl
  | slice => rfl
  | array size =>
    cases before with
    | nil =>
      simp only [qualify, surround, List.nil_append, List.cons_append, List.head?_nil,
        reduceCtorEq, if_false]
      split
      · rename_i heq
        exact absurd (List.cons.inj heq).1 hc
      · simp
    | cons b before =>
      by_cases hb : b = '*'
      · subst hb
        simp [qualify, surround]
      · simp only [qualify, surround, List.cons_append, List.head?_cons, Option.some.injEq, hb,
          if_false]
        split
        · rename_i heq
          exact absurd (List.cons.inj heq).1 hb
        · simp

theorem foldl_qualify {core : List Char} (hcore : Solid core) (qualifiers : List Qualifier)
    (before behind : List Char) :
    qualifiers.foldl qualify (before ++ core ++ behind) =
      (qualifiers.foldl surround (before, behind)).1 ++ core ++
        (qualifiers.foldl surround (before, behind)).2 := by
  induction qualifiers generalizing before behind with
  | nil => rfl
  | cons q qualifiers ih =>
    rw [List.foldl_cons, List.foldl_cons, qualify_surround hcore, ih]

/-- What stands behind the name after all qualifiers is empty or ends with a bracket. -/
theorem foldl_surround_behind (qualifiers : List Qualifier) (before : List Char)
    {behind : List Char}
    (h : behind = [] ∨ ∃ front, behind = front ++ [']']) :
    (qualifiers.foldl surround (before, behind)).2 = [] ∨
      ∃ front, (qualifiers.foldl surround (before, behind)).2 = front ++ [']'] := by
  induction qualifiers generalizing before behind with
  | nil => exact h
  | cons q qualifiers ih =>
    rw [List.foldl_cons]
    cases q with
    | pointer => exact ih _ h
    | slice => exact ih _ h
    | array size =>
      simp only [surround]
      split
      · exact ih _ (.inr ⟨behind ++ ')' :: '[' :: (Numeral.decimal size.toNat).toList, by simp⟩)
      · exact ih _ (.inr ⟨behind ++ '[' :: (Numeral.decimal size.toNat).toList, by simp⟩)

theorem stars_append {core : List Char} (hcore : Solid core) (before behind : List Char) :
    (before ++ core ++ behind).takeWhile (· == '*') = before.takeWhile (· == '*') ∧
      (before ++ core ++ behind).dropWhile (· == '*') =
        before.dropWhile (· == '*') ++ core ++ behind := by
  obtain ⟨c, rest, rfl, hc⟩ := hcore.head
  induction before with
  | nil => simp [hc]
  | cons b before ih =>
    by_cases hb : b = '*'
    · subst hb
      simpa using ih
    · simp [hb]

/-- What a type puts before and behind a name. -/
def frame (t : Table) : Typing → String × String
  | .ref symbol qualifiers =>
    let around := qualifiers.foldl surround ([], [])
    (((t.get? symbol).elim "" (·.name)) ++ String.ofList (around.1.takeWhile (· == '*') ++
      ' ' :: around.1.dropWhile (· == '*')), String.ofList around.2)
  | .signature params returns variadic =>
    let params := (abstractDeclarators t params).toOption.getD []
    let params := if variadic then params ++ ["..."] else params
    let around := frame t returns
    (around.1 ++ "(*", ")" ++ parameterList params ++ around.2)

theorem declarator_eq_frame {t : Table} {bound : Nat} :
    {typing : Typing} → typing.Within t bound → {name : String} → Solid name.toList →
      declarator t typing name = .ok ((frame t typing).1 ++ name ++ (frame t typing).2)
  | .ref symbol qualifiers, h, name, hname => by
    obtain ⟨s, hget, hget?⟩ := (Table.HasType.has h).get
    have hfold := foldl_qualify hname qualifiers [] []
    rw [List.nil_append, List.append_nil] at hfold
    obtain ⟨htake, hdrop⟩ := stars_append hname (qualifiers.foldl surround ([], [])).1
      (qualifiers.foldl surround ([], [])).2
    have hsolid : Solid (name.toList ++ (qualifiers.foldl surround ([], [])).2) := by
      rcases foldl_surround_behind qualifiers [] (.inl rfl) with hnil | ⟨front, hlast⟩
      · rwa [hnil, List.append_nil]
      · rw [hlast, ← List.append_assoc]
        exact hname.append (by decide)
    have hbase : (t.get? symbol).elim "" (·.name) = s.name := by
      rw [hget?]
      rfl
    unfold declarator frame
    rw [hget]
    simp only [bind, Except.bind, pure, Except.pure, afterBase, hfold, htake, hdrop, hbase]
    have htrim := trimEnd_solid (s.name.toList ++
      (qualifiers.foldl surround ([], [])).1.takeWhile (· == '*') ++
      ' ' :: (qualifiers.foldl surround ([], [])).1.dropWhile (· == '*')) hsolid
    rw [List.append_assoc _ name.toList, ← List.cons_append, ← List.append_assoc, htrim]
    simp [String.ofList_append, String.append_assoc]
  | .signature params returns variadic, h, name, hname => by
    obtain ⟨texts, htexts, -⟩ := (abstractDeclarators_written h.1).exists_ok
    have hsolid : ∀ list : List String,
        Solid ("(*" ++ name ++ ")" ++ parameterList list).toList := by
      intro list
      refine ⟨⟨'(', '*' :: (name.toList ++ ')' :: (parameterList list).toList), by simp, by decide⟩,
        ("(*" ++ name ++ ")(" ++ Text.joined "," list).toList, ')', ?_, by decide⟩
      simp [parameterList]
    unfold declarator frame
    rw [htexts]
    simp only [bind, Except.bind, Except.toOption, Option.getD_some]
    rw [declarator_eq_frame h.2 (hsolid _)]
    simp only [String.append_assoc]

/-! ### Declarations -/

/-- The pieces of a declarator. -/
def declaring (t : Table) (typing : Typing) (symbol : SymbolId) (name : String) : List Piece :=
  [.plain (frame t typing).1, .declared symbol name, .plain (frame t typing).2]

theorem declarator_eq_render {t : Table} {bound : Nat} {typing : Typing}
    (h : typing.Within t bound) {name : String} (hname : IsName name) (symbol : SymbolId) :
    declarator t typing name = .ok (render (declaring t typing symbol name)) := by
  rw [declarator_eq_frame h (solid_of_isName hname)]
  simp [declaring, render, Piece.text, String.append_assoc]

/-- The pieces of the parameters of a function. -/
def paramsPieces (t : Table) (h : Header) : List (List Piece) :=
  h.params.map (fun b => declaring t b.typing b.symbol b.name) ++
    if h.variadic then [[.plain "..."]] else []

/-- The type that the table has for a symbol. -/
def typingIn (t : Table) (symbol : SymbolId) : Typing :=
  ((t.get? symbol).bind (·.typing)).getD default

/-- What the table says a function returns. -/
def returnsIn (t : Table) (symbol : SymbolId) : Typing :=
  match typingIn t symbol with
  | .signature _ returns _ => returns
  | other => other

/-- The pieces of the head of a function, inside which the parameters are opened. -/
def headPieces (t : Table) (name : String) (h : Header) : List Piece :=
  .plain (frame t (returnsIn t h.symbol)).1 :: .declared h.symbol name :: .opened ::
    (enlisted (paramsPieces t h) ++ [.plain (frame t (returnsIn t h.symbol)).2])

section
variable {t : Table}

theorem isName_of_declares (hnames : NamesAreNames t) {symbol : SymbolId} {name : String}
    {kind : SymbolKind} {typing : Option Typing} {external : Bool} (hkind : kind.IsNamed)
    (h : t.Declares symbol name kind typing external) : IsName name := by
  obtain ⟨i, s, -, hs, rfl, hk, -⟩ := h
  exact hnames hs (hk ▸ hkind)

theorem binding_eq_render (hnames : NamesAreNames t) {kind : SymbolKind} (hkind : kind.IsNamed)
    {external : Bool} {b : Binding} (h : b.Known t kind external) :
    binding t b = .ok (render (declaring t b.typing b.symbol b.name)) :=
  declarator_eq_render h.1 (isName_of_declares hnames hkind h.2) b.symbol

theorem bindings_eq_render (hnames : NamesAreNames t) {bs : List Binding}
    (h : ∀ b ∈ bs, b.Known t .param false) :
    bindings t bs =
      .ok ((bs.map fun b => declaring t b.typing b.symbol b.name).map render) := by
  induction bs with
  | nil => rfl
  | cons b bs ih =>
    unfold bindings
    rw [binding_eq_render hnames (by decide) (h b (by simp)), ih fun x hx => h x (by simp [hx])]
    rfl

theorem returnType_eq {external : Bool} {f : Header} (h : f.Known t external) :
    returnType t f = .ok (returnsIn t f.symbol) ∧
      (returnsIn t f.symbol).Within t t.symbols.size := by
  obtain ⟨-, returns, hreturns, i, s, hi, hs, -, -, hty, -⟩ := h
  have hget? : t.get? f.symbol = some s := by rw [hi]; exact hs
  have hget : t.get f.symbol = .ok s := by simp [Table.get, hget?]
  have hin : returnsIn t f.symbol = returns := by
    simp [returnsIn, typingIn, hget?, hty]
  unfold returnType
  rw [hget, hin]
  simp only [bind, Except.bind, hty]
  exact ⟨rfl, hreturns⟩

theorem functionHead_eq_render {external : Bool} {f : Header} (h : f.Known t external)
    {name : String} (hname : IsName name) :
    functionHead t (returnsIn t f.symbol) name ((paramsPieces t f).map render) =
      .ok (render (headPieces t name f)) := by
  have hsolid : Solid (name ++ parameterList ((paramsPieces t f).map render)).toList := by
    have hcore : Solid (name.toList ++
        ("(" ++ Text.joined "," ((paramsPieces t f).map render)).toList ++ [')']) :=
      (solid_of_isName hname).append (c := ')') (by decide)
    simpa [parameterList] using hcore
  unfold functionHead
  rw [declarator_eq_frame (returnType_eq h).2 hsolid]
  simp [headPieces, render, render_append, render_enlisted, Piece.text, String.append_assoc]

theorem externalHead_eq_render (hnames : NamesAreNames t) {f : Header} (h : f.Known t true) :
    externalHead t f = .ok (render (headPieces t f.name f)) := by
  obtain ⟨returns, -, hd⟩ := h.2
  have hparams : (if f.variadic then
      (f.params.map fun b => declaring t b.typing b.symbol b.name).map render ++ ["..."]
      else (f.params.map fun b => declaring t b.typing b.symbol b.name).map render) =
        (paramsPieces t f).map render := by
    unfold paramsPieces
    cases f.variadic <;> simp [render, Piece.text]
  unfold externalHead
  rw [bindings_eq_render hnames h.1, (returnType_eq h).1]
  simp only [bind, Except.bind]
  rw [hparams, functionHead_eq_render h (isName_of_declares hnames (by decide) hd)]

theorem definitionHead_eq_render (hnames : NamesAreNames t) {f : Header} (h : f.Known t false)
    (hvariadic : f.variadic = false) {modules : List String} (hm : ∀ m ∈ modules, IsName m) :
    definitionHead t modules f = .ok (render (headPieces t (mangled modules f.name) f)) := by
  obtain ⟨returns, -, hd⟩ := h.2
  have hname : IsName (mangled modules f.name) := by
    refine isName_joined (by simp) fun name hname => ?_
    rcases List.mem_append.mp hname with hname | hname
    · exact hm name hname
    · rw [List.mem_singleton.mp hname]
      exact isName_of_declares hnames (by decide) hd
  have hparams : (f.params.map fun b => declaring t b.typing b.symbol b.name).map render =
      (paramsPieces t f).map render := by
    simp [paramsPieces, hvariadic]
  unfold definitionHead
  rw [bindings_eq_render hnames h.1, (returnType_eq h).1]
  simp only [bind, Except.bind]
  rw [hparams, functionHead_eq_render h hname]

end

/-! ### Statements -/

/-- The modules that are open behind a statement. -/
def modulesBehind (modules : List String) : Stmt → List String
  | .mod name _ _ => modules ++ [name]
  | _ => modules

/-- The pieces of an initial value. -/
def initialPieces (t : Table) (initial : Option Expr) : List Piece :=
  initial.elim [] fun e => .plain " = " :: exprPieces t e

/-- Pieces between braces, which bound what is declared there. -/
def bracedPieces (ps : List Piece) : List Piece :=
  .opened :: .plain "\x7b" :: (ps ++ [.plain "\x7d", .closed])

mutual

/-- The pieces of a statement. -/
def stmtPieces (t : Table) (modules : List String) : Stmt → List Piece
  | .empty _ | .mod _ _ _ => []
  | .declare b initial _ =>
    declaring t b.typing b.symbol b.name ++ initialPieces t initial ++ [.plain ";"]
  | .externalVariable b _ =>
    .plain "extern " :: (declaring t b.typing b.symbol b.name ++ [.plain ";"])
  | .externalFunction h _ _ =>
    .plain "extern " :: (headPieces t h.name h ++ [.closed, .plain ";"])
  | .whileLoop test body _ =>
    .plain "while(" :: (exprPieces t test ++ .plain ") " ::
      bracedPieces (blockPieces t modules body))
  | .ifThen test yes _ =>
    .plain "if(" :: (exprPieces t test ++ .plain ") " ::
      bracedPieces (blockPieces t modules yes))
  | .ifElse test yes no _ =>
    .plain "if(" :: (exprPieces t test ++ .plain ") " ::
      (bracedPieces (blockPieces t modules yes) ++ .plain " else " ::
        bracedPieces (blockPieces t modules no)))
  | .returned value _ => .plain "return " :: (exprPieces t value ++ [.plain ";"])
  | .typeAlias name _ symbol _ =>
    .plain "typedef " :: (declaring t (typingIn t symbol) symbol name ++ [.plain ";"])
  | .func h body _ =>
    headPieces t (mangled modules h.name) h ++ .plain " " :: .plain "\x7b" ::
      (blockPieces t modules body ++ [.plain "\x7d", .closed])
  | .expr value _ => exprPieces t value ++ [.plain ";"]

/-- The pieces of a block. -/
def blockPieces (t : Table) (modules : List String) : Block → List Piece
  | .mk stmts _ _ => stmtsPieces t modules stmts

/-- The pieces of statements. -/
def stmtsPieces (t : Table) (modules : List String) : List Stmt → List Piece
  | [] => []
  | s :: rest => stmtPieces t modules s ++ stmtsPieces t (modulesBehind modules s) rest

end

theorem render_braced (ps : List Piece) : render (bracedPieces ps) = braced (render ps) := by
  simp [bracedPieces, braced, render, render_append, Piece.text, String.append_assoc]

section
variable {t : Table}

theorem located_ok {α : Type} {pos : Position} {a : α} :
    located pos (.ok a : Except Cause α) = .ok a :=
  rfl

theorem isName_behind (hnames : NamesAreNames t) {modules : List String}
    (hm : ∀ m ∈ modules, IsName m) {s : Stmt} (h : s.Known t) :
    ∀ m ∈ modulesBehind modules s, IsName m := by
  cases s with
  | mod name symbol span =>
    intro m hmem
    rcases List.mem_append.mp hmem with hmem | hmem
    · exact hm m hmem
    · rw [List.mem_singleton.mp hmem]
      exact isName_of_declares hnames (by decide) h
  | _ => exact hm

mutual

theorem stmt_eq_render (ht : t.WellFormed) (hnames : NamesAreNames t) {modules : List String}
    (hm : ∀ m ∈ modules, IsName m) : {s : Stmt} → s.Known t →
    stmt t modules s = .ok (render (stmtPieces t modules s), modulesBehind modules s)
  | .empty _, _ | .mod _ _ _, _ => by
    simp [stmt, stmtPieces, render, modulesBehind, pure, Except.pure]
  | .declare b initial _, h => by
    have hinitial : initialValue t initial = .ok (render (initialPieces t initial)) := by
      cases initial with
      | none => rfl
      | some e =>
        simp only [initialValue, expr_eq_render ht (h.2 e rfl)]
        rfl
    simp only [stmt, stmtPieces, binding_eq_render hnames (by decide) h.1, hinitial, located_ok,
      bind, Except.bind, pure, Except.pure, render, render_append, Piece.text, String.append_assoc,
      String.append_empty, modulesBehind]
  | .externalVariable b _, h => by
    simp only [stmt, stmtPieces, binding_eq_render hnames (by decide) h, located_ok, bind,
      Except.bind, pure, Except.pure, render, render_append, Piece.text, String.append_assoc,
      String.append_empty, modulesBehind]
  | .externalFunction f _ _, h => by
    simp only [stmt, stmtPieces, externalHead_eq_render hnames h, located_ok, bind,
      Except.bind, pure, Except.pure, render, render_append, Piece.text, String.append_assoc,
      String.append_empty, String.empty_append, modulesBehind]
  | .whileLoop _ _ _, h => by
    simp only [stmt, stmtPieces, expr_eq_render ht h.1, block_eq_render ht hnames hm h.2,
      located_ok, bind, Except.bind, pure, Except.pure, render, render_append, render_braced,
      Piece.text, String.append_assoc, modulesBehind]
  | .ifThen _ _ _, h => by
    simp only [stmt, stmtPieces, expr_eq_render ht h.1, block_eq_render ht hnames hm h.2,
      located_ok, bind, Except.bind, pure, Except.pure, render, render_append, render_braced,
      Piece.text, String.append_assoc, modulesBehind]
  | .ifElse _ _ _ _, h => by
    simp only [stmt, stmtPieces, expr_eq_render ht h.1, block_eq_render ht hnames hm h.2.1,
      block_eq_render ht hnames hm h.2.2, located_ok, bind, Except.bind, pure, Except.pure, render,
      render_append, render_braced, Piece.text, String.append_assoc, modulesBehind]
  | .returned _ _, h => by
    simp only [stmt, stmtPieces, expr_eq_render ht h, located_ok, bind, Except.bind, pure,
      Except.pure, render, render_append, Piece.text, String.append_assoc, String.append_empty,
      modulesBehind]
  | .typeAlias name _ symbol _, h => by
    obtain ⟨typing, hty, hd⟩ := h
    have hname := isName_of_declares hnames (by decide) hd
    obtain ⟨i, s, rfl, hs, -, -, hsty, -⟩ := hd
    have halias : aliasedType t name (.unit i) = .ok typing := by
      simp [aliasedType, Table.get, Table.get?, hs, hsty, bind, Except.bind, pure, Except.pure]
    have hin : typingIn t (.unit i) = typing := by
      simp [typingIn, Table.get?, hs, hsty]
    simp only [stmt, stmtPieces, halias, hin, declarator_eq_render hty hname (.unit i), located_ok,
      bind, Except.bind, pure, Except.pure, render, render_append, Piece.text, String.append_assoc,
      String.append_empty, modulesBehind]
  | .func f _ _, h => by
    simp only [stmt, stmtPieces, definitionHead_eq_render hnames h.1 h.2.1 hm,
      block_eq_render ht hnames hm h.2.2, located_ok, bind, Except.bind, pure, Except.pure, render,
      render_append, braced, Piece.text, String.append_assoc, String.append_empty, modulesBehind]
  | .expr _ _, h => by
    simp only [stmt, stmtPieces, expr_eq_render ht h, located_ok, bind, Except.bind, pure,
      Except.pure, render, render_append, Piece.text, String.append_empty, modulesBehind]

theorem block_eq_render (ht : t.WellFormed) (hnames : NamesAreNames t) {modules : List String}
    (hm : ∀ m ∈ modules, IsName m) : {b : Block} → b.Known t →
    block t modules b = .ok (render (blockPieces t modules b))
  | .mk _ _ _, h => by
    unfold block blockPieces
    exact stmts_eq_render ht hnames hm h

theorem stmts_eq_render (ht : t.WellFormed) (hnames : NamesAreNames t) {modules : List String}
    (hm : ∀ m ∈ modules, IsName m) : {ss : List Stmt} → Stmt.AllKnown t ss →
    stmts t modules ss = .ok (render (stmtsPieces t modules ss))
  | [], _ => rfl
  | s :: rest, h => by
    simp only [stmts, stmtsPieces, stmt_eq_render ht hnames hm h.1,
      stmts_eq_render ht hnames (isName_behind hnames hm h.1) h.2, bind, Except.bind, pure,
      Except.pure, render_append]

end

/-- **The C text of a known program is made up of its pieces.** -/
theorem unit_eq_render {u : CompilationUnit} (ht : u.table.WellFormed)
    (hnames : NamesAreNames u.table) (h : Stmt.AllKnown u.table u.sourceFile.stmts)
    (withPrelude : Bool) :
    unit u withPrelude = .ok ((if withPrelude then prelude else "") ++
      render (stmtsPieces u.table [] u.sourceFile.stmts)) := by
  unfold unit
  rw [stmts_eq_render ht hnames (by simp) h]
  rfl

end

/-- A program that can be analyzed is known to its table. -/
theorem unit_eq_render_of_analyze {source : String} {u : CompilationUnit}
    (h : analyze source = .ok u) (withPrelude : Bool) :
    unit u withPrelude = .ok ((if withPrelude then prelude else "") ++
      render (stmtsPieces u.table [] u.sourceFile.stmts)) := by
  obtain ⟨ctx, htable, hbinds⟩ := analyze_binds h
  have ht := hbinds.reaches.wellFormed.table
  have hnames : NamesAreNames ctx.table := hbinds.reaches.wellFormed.named
  have hknown := hbinds.known
  rw [← htable] at ht hnames hknown
  exact unit_eq_render ht hnames hknown withPrelude

end Code
end BlockC

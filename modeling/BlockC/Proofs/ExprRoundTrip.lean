import BlockC.Proofs.CompileOutcome
import BlockC.Proofs.ExprReading

/-! # Written expressions can be read again

Whatever expression stands in a program that can be analyzed, its C text is an expression of the
source language too, and it is read as the same operators over the same operands
(`written_expr_reads_back`).  For this every name has to be spelled as a name, also one that is put
together from the names of modules.
-/
namespace BlockC

/-! ### Names that are put together -/

namespace Lexical

theorem IsWord.append {v w : List Char} (hv : IsWord v) (hw : ∀ c ∈ w, isWordPart c = true) :
    IsWord (v ++ w) := by
  obtain ⟨c, cs, rfl, hc, hcs⟩ := hv
  refine ⟨c, cs ++ w, rfl, hc, fun d hd => ?_⟩
  rcases List.mem_append.mp hd with hd | hd
  · exact hcs d hd
  · exact hw d hd

theorem IsWord.parts {w : List Char} (h : IsWord w) : ∀ c ∈ w, isWordPart c = true := by
  obtain ⟨c, cs, rfl, hc, hcs⟩ := h
  intro d hd
  rcases List.mem_cons.mp hd with rfl | hd
  · simp [isWordPart, hc]
  · exact hcs d hd

/-- No reserved word has an underscore in it. -/
theorem ofText?_underscore {s : String} (h : '_' ∈ s.toList) : Keyword.ofText? s = none := by
  have hall : ∀ k ∈ Keyword.all, '_' ∉ k.text.toList := by decide
  refine List.find?_eq_none.mpr fun k hk heq => hall k hk ?_
  rwa [beq_iff_eq.mp heq]

theorem isName_null : IsName "NULL" :=
  ⟨isWord_of_all rfl rfl, rfl⟩

theorem isName_builtin {name : String} (h : name ∈ builtinNames) : IsName name := by
  simp only [builtinNames, List.mem_cons, List.not_mem_nil, or_false] at h
  rcases h with rfl | rfl | rfl | rfl | rfl | rfl | rfl | rfl | rfl | rfl | rfl | rfl
  all_goals exact ⟨isWord_of_all rfl rfl, rfl⟩

/-- Names with underscores between them are a name. -/
theorem isName_joined : ∀ {names : List String}, names ≠ [] → (∀ s ∈ names, IsName s) →
    IsName (Text.joined "_" names)
  | [], hne, _ => absurd rfl hne
  | [s], _, h => h s (by simp)
  | s :: t :: rest, _, h => by
    have hs := h s (by simp)
    have hrest := isName_joined (List.cons_ne_nil t rest) fun u hu => h u (by simp [hu])
    have htext : (Text.joined "_" (s :: t :: rest)).toList =
        s.toList ++ '_' :: (Text.joined "_" (t :: rest)).toList := by simp [Text.joined]
    refine ⟨?_, ofText?_underscore (by rw [htext]; simp)⟩
    rw [htext]
    refine hs.1.append fun c hc => ?_
    rcases List.mem_cons.mp hc with rfl | hc
    · decide
    · exact hrest.1.parts c hc

end Lexical

namespace Code

open BlockC.Bound Lexical

/-- Every symbol that a program can name has a name. -/
def NamesAreNames (t : Table) : Prop :=
  ∀ {i : Nat} {s : Symbol}, t.symbols[i]? = some s → s.kind.IsNamed → IsName s.name

theorem isName_of_get? {t : Table} (hnames : NamesAreNames t) {id : SymbolId} {s : Symbol}
    (h : t.get? id = some s) (hk : s.kind.IsNamed) : IsName s.name := by
  cases id with
  | builtin i =>
    obtain ⟨name, hname, rfl⟩ := Option.map_eq_some_iff.mp h
    exact isName_builtin (List.mem_of_getElem? hname)
  | unit i => exact hnames h hk

/-- A name in an expression is spelled as a name. -/
theorem spelled_isName {t : Table} (ht : t.WellFormed) (hnames : NamesAreNames t) {id : Ident}
    (h : t.Has id.symbol) (hpath : IsPath id.path) :
    ∃ s, spelled t id = .ok s ∧ IsName s := by
  cases hd : id.isDotted with
  | false =>
    refine ⟨id.dotted, spelled_plain hd, ?_⟩
    obtain ⟨hne, hall⟩ := hpath
    unfold Ident.isDotted at hd
    unfold Ident.dotted
    match hp : id.path with
    | [] => exact absurd hp hne
    | [s] => exact hall s (by simp [hp])
    | s :: u :: rest => simp [hp] at hd
  | true =>
    obtain ⟨modules, s, hspelled, hs, hk, hmodules, -⟩ := spelled_dotted ht hd h
    refine ⟨_, hspelled, isName_joined (by simp) fun name hname => ?_⟩
    rcases List.mem_append.mp hname with hname | hname
    · obtain ⟨id', s', hs', hmod, rfl⟩ := hmodules name hname
      exact isName_of_get? hnames hs' (by rw [hmod]; decide)
    · rw [List.mem_singleton.mp hname]
      exact isName_of_get? hnames hs hk

end Code

namespace Bound

variable {t : Table}

mutual

/-- A known expression that came from a text in order has an operator tree, which can be written. -/
theorem operatorTree_proper (ht : t.WellFormed) (hnames : Code.NamesAreNames t) :
    ∀ e : Expr, e.Known t → e.erase.Proper → ∃ x, e.operatorTree t = .ok x ∧ x.Proper ∧
      x.isAssignment = e.erase.isAssignment
  | .ident id, hk, hp => by
    obtain ⟨s, hs, hname⟩ := Code.spelled_isName ht hnames hk hp
    exact ⟨.name s, by simp [Expr.operatorTree, hs, bind, Except.bind, pure, Except.pure], hname,
      rfl⟩
  | .binary left op right span, hk, hp => by
    obtain ⟨x, hx, hxp, -⟩ := operatorTree_proper ht hnames left hk.1 hp.1
    obtain ⟨y, hy, hyp, -⟩ := operatorTree_proper ht hnames right hk.2 hp.2
    exact ⟨.binary x op y, by
      simp [Expr.operatorTree, hx, hy, bind, Except.bind, pure, Except.pure], ⟨hxp, hyp⟩, rfl⟩
  | .unary op argument span, hk, hp => by
    obtain ⟨x, hx, hxp, -⟩ := operatorTree_proper ht hnames argument hk hp
    exact ⟨.unary op x, by
      simp [Expr.operatorTree, hx, bind, Except.bind, pure, Except.pure], hxp, rfl⟩
  | .condition test yes no span, hk, hp => by
    obtain ⟨x, hx, hxp, -⟩ := operatorTree_proper ht hnames test hk.1 hp.1
    obtain ⟨y, hy, hyp, -⟩ := operatorTree_proper ht hnames yes hk.2.1 hp.2.1
    obtain ⟨z, hz, hzp, -⟩ := operatorTree_proper ht hnames no hk.2.2 hp.2.2
    exact ⟨.condition x y z, by
      simp [Expr.operatorTree, hx, hy, hz, bind, Except.bind, pure, Except.pure],
      ⟨hxp, hyp, hzp⟩, rfl⟩
  | .call callee args span, hk, hp => by
    obtain ⟨s, hs, hname⟩ := Code.spelled_isName ht hnames hk.1 hp.1
    obtain ⟨xs, hxs, hxsp⟩ := operatorTrees_proper ht hnames args hk.2 hp.2
    exact ⟨.call s xs, by
      simp [Expr.operatorTree, hs, hxs, bind, Except.bind, pure, Except.pure], ⟨hname, hxsp⟩, rfl⟩
  | .assignment left op right span, hk, hp => by
    obtain ⟨x, hx, hxp, hxa⟩ := operatorTree_proper ht hnames left hk.1 hp.1
    obtain ⟨y, hy, hyp, -⟩ := operatorTree_proper ht hnames right hk.2 hp.2.2
    exact ⟨.assignment x op y, by
      simp [Expr.operatorTree, hx, hy, bind, Except.bind, pure, Except.pure],
      ⟨hxp, hxa.trans hp.2.1, hyp⟩, rfl⟩
  | .parenthesized inner span, hk, hp => by
    obtain ⟨x, hx, hxp, -⟩ := operatorTree_proper ht hnames inner hk hp
    exact ⟨.group x, by
      simp [Expr.operatorTree, hx, bind, Except.bind, pure, Except.pure], hxp, rfl⟩
  | .number value span, _, _ => ⟨.number value, rfl, trivial, rfl⟩
  | .string text span, _, hp => ⟨.string text, rfl, hp, rfl⟩
  | .boolean value span, _, _ => ⟨.boolean value, rfl, trivial, rfl⟩
  | .null span, _, _ => ⟨.name "NULL", rfl, Lexical.isName_null, rfl⟩

theorem operatorTrees_proper (ht : t.WellFormed) (hnames : Code.NamesAreNames t) :
    ∀ es : List Expr, Expr.AllKnown t es → Surface.Expr.AllProper (Expr.eraseAll es) →
      ∃ xs, Expr.operatorTrees t es = .ok xs ∧ OperatorTree.AllProper xs
  | [], _, _ => ⟨[], rfl, trivial⟩
  | e :: rest, hk, hp => by
    obtain ⟨x, hx, hxp, -⟩ := operatorTree_proper ht hnames e hk.1 hp.1
    obtain ⟨xs, hxs, hxsp⟩ := operatorTrees_proper ht hnames rest hk.2 hp.2
    exact ⟨x :: xs, by
      simp [Expr.operatorTrees, hx, hxs, bind, Except.bind, pure, Except.pure], hxp, hxsp⟩

end

/-! ### Expressions at any depth -/

mutual

/-- The expression and all that it consists of. -/
def Expr.parts : Expr → List Expr
  | .binary left op right span => .binary left op right span :: (left.parts ++ right.parts)
  | .unary op argument span => .unary op argument span :: argument.parts
  | .condition test yes no span =>
    .condition test yes no span :: (test.parts ++ yes.parts ++ no.parts)
  | .call callee args span => .call callee args span :: Expr.allParts args
  | .assignment left op right span => .assignment left op right span :: (left.parts ++ right.parts)
  | .parenthesized inner span => .parenthesized inner span :: inner.parts
  | e => [e]

/-- The expressions and all that they consist of. -/
def Expr.allParts : List Expr → List Expr
  | [] => []
  | e :: rest => e.parts ++ Expr.allParts rest

end

mutual

/-- What an expression consists of is as known and as proper as the expression. -/
theorem known_proper_of_mem_parts : ∀ e : Expr, e.Known t → e.erase.Proper →
    ∀ d ∈ e.parts, d.Known t ∧ d.erase.Proper
  | .binary left op right span, hk, hp, d, hd => by
    rcases List.mem_cons.mp hd with rfl | hd
    · exact ⟨hk, hp⟩
    · rcases List.mem_append.mp hd with hd | hd
      · exact known_proper_of_mem_parts left hk.1 hp.1 d hd
      · exact known_proper_of_mem_parts right hk.2 hp.2 d hd
  | .unary op argument span, hk, hp, d, hd => by
    rcases List.mem_cons.mp hd with rfl | hd
    · exact ⟨hk, hp⟩
    · exact known_proper_of_mem_parts argument hk hp d hd
  | .condition test yes no span, hk, hp, d, hd => by
    rcases List.mem_cons.mp hd with rfl | hd
    · exact ⟨hk, hp⟩
    · rcases List.mem_append.mp hd with hd | hd
      · rcases List.mem_append.mp hd with hd | hd
        · exact known_proper_of_mem_parts test hk.1 hp.1 d hd
        · exact known_proper_of_mem_parts yes hk.2.1 hp.2.1 d hd
      · exact known_proper_of_mem_parts no hk.2.2 hp.2.2 d hd
  | .call callee args span, hk, hp, d, hd => by
    rcases List.mem_cons.mp hd with rfl | hd
    · exact ⟨hk, hp⟩
    · exact known_proper_of_mem_allParts args hk.2 hp.2 d hd
  | .assignment left op right span, hk, hp, d, hd => by
    rcases List.mem_cons.mp hd with rfl | hd
    · exact ⟨hk, hp⟩
    · rcases List.mem_append.mp hd with hd | hd
      · exact known_proper_of_mem_parts left hk.1 hp.1 d hd
      · exact known_proper_of_mem_parts right hk.2 hp.2.2 d hd
  | .parenthesized inner span, hk, hp, d, hd => by
    rcases List.mem_cons.mp hd with rfl | hd
    · exact ⟨hk, hp⟩
    · exact known_proper_of_mem_parts inner hk hp d hd
  | .ident _, hk, hp, d, hd | .number _ _, hk, hp, d, hd | .string _ _, hk, hp, d, hd
  | .boolean _ _, hk, hp, d, hd | .null _, hk, hp, d, hd => by
    rw [List.mem_singleton.mp hd]
    exact ⟨hk, hp⟩

theorem known_proper_of_mem_allParts : ∀ es : List Expr, Expr.AllKnown t es →
    Surface.Expr.AllProper (Expr.eraseAll es) → ∀ d ∈ Expr.allParts es, d.Known t ∧ d.erase.Proper
  | [], _, _, _, hd => absurd hd List.not_mem_nil
  | e :: rest, hk, hp, d, hd => by
    rcases List.mem_append.mp hd with hd | hd
    · exact known_proper_of_mem_parts e hk.1 hp.1 d hd
    · exact known_proper_of_mem_allParts rest hk.2 hp.2 d hd

end

mutual

theorem Stmt.Known.expr : ∀ {s : Stmt}, s.Known t → ∀ e ∈ s.exprs, e.Known t
  | .empty _, _, _, he | .mod _ _ _, _, _, he | .externalVariable _ _, _, _, he
  | .externalFunction _ _ _, _, _, he | .typeAlias _ _ _ _, _, _, he =>
    absurd he List.not_mem_nil
  | .declare _ initial _, h, e, he => h.2 e (by simpa [Stmt.exprs] using he)
  | .whileLoop test body _, h, e, he => by
    rcases List.mem_cons.mp he with rfl | he
    · exact h.1
    · exact h.2.expr e he
  | .ifThen test yes _, h, e, he => by
    rcases List.mem_cons.mp he with rfl | he
    · exact h.1
    · exact h.2.expr e he
  | .ifElse test yes no _, h, e, he => by
    rcases List.mem_cons.mp he with rfl | he
    · exact h.1
    · rcases List.mem_append.mp he with he | he
      · exact h.2.1.expr e he
      · exact h.2.2.expr e he
  | .func _ body _, h, e, he => h.2.2.expr e he
  | .returned value _, h, e, he | .expr value _, h, e, he => by
    rw [List.mem_singleton.mp he]
    exact h

theorem Block.Known.expr : ∀ {b : Block}, b.Known t → ∀ e ∈ b.exprs, e.Known t
  | .mk _ _ _, h, e, he => Stmt.AllKnown.expr h e he

theorem Stmt.AllKnown.expr : ∀ {ss : List Stmt}, Stmt.AllKnown t ss →
    ∀ e ∈ Stmt.allExprs ss, e.Known t
  | [], _, _, he => absurd he List.not_mem_nil
  | s :: rest, h, e, he => by
    rcases List.mem_append.mp he with he | he
    · exact h.1.expr e he
    · exact Stmt.AllKnown.expr h.2 e he

end

/-- The expressions of a program at every depth. -/
def CompilationUnit.exprs (u : CompilationUnit) : List Expr :=
  (Stmt.allExprs u.sourceFile.stmts).flatMap Expr.parts

end Bound

namespace Grammar

open Surface

/-- The text of a tree is read to its end, as that tree. -/
theorem read_text {x : OperatorTree} (hx : x.Proper) :
    ∃ node place, (Stream.ofString x.text).read (.expr .lowest) = ⟨.ok node, place, []⟩ ∧
      place.ahead = [] ∧ (exprOf x.text.toUTF8 node).Shows x := by
  have hscan := OperatorTree.scans_text x hx [] (by simp [Breaks])
  rw [List.append_nil] at hscan
  have hwords := Lexical.words_of_scans hscan
  obtain ⟨n, e, -, he, hshows, first, rest, frames, htokens, hfrom, hread⟩ :=
    reads x hx (tokens x.text) hwords fun t ht => standsIn_of_mem_tokens ht
  obtain ⟨stack, htakes, hsettles⟩ := hread []
  rw [List.append_nil] at htakes
  have hend (stop : Position) : feed (.eof stop) stack = .done (wrapped n) := by
    have hstops : Stops (.eof stop) := by simp [Stops, Token.eof, Kind.behindOperand?]
    rw [hsettles _ (hstops.follows x), feed, before_operators (hstops.ends _)]
    rfl
  have hbegin : Production.begin (.expr .lowest) first = .ok frames := hfrom
  obtain ⟨place, hplace, hahead⟩ := read_of_takes htokens hbegin htakes hend
  exact ⟨wrapped n, place, hplace, hahead, by rwa [exprOf_wrapped he]⟩

end Grammar

open BlockC.Bound in
/-- **Written expressions can be read again.**  The C text of an expression, at any depth of a
program that can be analyzed, is read to its end as an expression with the same operators over the
same operands. -/
theorem written_expr_reads_back {source : String} {u : CompilationUnit}
    (h : analyze source = .ok u) {e : Expr} (he : e ∈ u.exprs) :
    ∃ code tree node place, Code.expr u.table e = .ok code ∧
      e.operatorTree u.table = .ok tree ∧
      (Grammar.Stream.ofString code).read (.expr .lowest) = ⟨.ok node, place, []⟩ ∧
      place.ahead = [] ∧ (Surface.exprOf code.toUTF8 node).Shows tree := by
  obtain ⟨ctx, htable, hbinds⟩ := analyze_binds h
  have hwf := hbinds.reaches.wellFormed
  obtain ⟨whole, hwhole, hpart⟩ := List.mem_flatMap.mp he
  rw [htable]
  -- The expression is part of one that stands in a statement, which is known and proper.
  obtain ⟨hknown, hproper⟩ := known_proper_of_mem_parts whole (hbinds.known.expr whole hwhole)
    (hbinds.exprs whole hwhole) e hpart
  obtain ⟨tree, htree, htreeProper, -⟩ :=
    operatorTree_proper hwf.table hwf.named e hknown hproper
  obtain ⟨node, place, hread, hahead, hshows⟩ := Grammar.read_text htreeProper
  refine ⟨tree.text, tree, node, place, ?_, htree, hread, hahead, hshows⟩
  rw [expr_eq_text, htree]
  rfl

open BlockC.Bound in
/-- A call under a dotted name, of a sum with a sign in it. -/
theorem written_call_reads_back :
    ∃ u e, analyze "mod m fn f(a: i32) -> i32 do return m.f(-a + 1) end" = .ok u ∧ e ∈ u.exprs ∧
      ∃ code tree node place, Code.expr u.table e = .ok code ∧
        e.operatorTree u.table = .ok tree ∧
        (Grammar.Stream.ofString code).read (.expr .lowest) = ⟨.ok node, place, []⟩ ∧
        place.ahead = [] ∧ (Surface.exprOf code.toUTF8 node).Shows tree := by
  have hcount : (analyze "mod m fn f(a: i32) -> i32 do return m.f(-a + 1) end").toOption.map
      (fun u => u.exprs.length) = some 5 := by decide +kernel
  obtain ⟨u, hsource, hlength⟩ := exists_ok_of_map hcount
  obtain ⟨e, he⟩ := List.exists_mem_of_length_pos (l := u.exprs) (by omega)
  exact ⟨u, e, hsource, he, written_expr_reads_back hsource he⟩

end BlockC

import BlockC.Proofs.BindingMoments
import BlockC.Proofs.DottedNames
import BlockC.Proofs.Visibility

/-! # What is reached in a function from outside

A name without dots is searched for in the open scopes, so it finds what is declared in a function
from inside the function only.  A dotted name goes down from the root, through functions as well.
From outside a function, then, what is declared in it is reached just by its full name, if it is in
no block (`reached_from_outside_iff`).
-/
namespace BlockC

/-! ### Names and the functions around them -/

namespace Bound

/-- A name of a program, with the functions that it stands in, the innermost first. -/
structure Use where
  around : List SymbolId
  id : Ident

/-- The names of an expression that stands in the given functions. -/
def Expr.usesIn (around : List SymbolId) (e : Expr) : List Use :=
  e.idents.map fun id => ⟨around, id⟩

mutual

/-- The names of a statement that stands in the given functions. -/
def Stmt.usesIn (around : List SymbolId) : Stmt → List Use
  | .empty _ | .mod _ _ _ | .externalVariable _ _ | .externalFunction _ _ _
  | .typeAlias _ _ _ _ => []
  | .declare _ initial _ => initial.toList.flatMap (·.usesIn around)
  | .whileLoop test body _ => test.usesIn around ++ body.usesIn around
  | .ifThen test yes _ => test.usesIn around ++ yes.usesIn around
  | .ifElse test yes no _ => test.usesIn around ++ (yes.usesIn around ++ no.usesIn around)
  | .returned value _ | .expr value _ => value.usesIn around
  | .func h (.mk body _ _) _ => Stmt.allUsesIn (h.symbol :: around) body

/-- The names of a block that stands in the given functions. -/
def Block.usesIn (around : List SymbolId) : Block → List Use
  | .mk stmts _ _ => Stmt.allUsesIn around stmts

/-- The names of statements that stand in the given functions. -/
def Stmt.allUsesIn (around : List SymbolId) : List Stmt → List Use
  | [] => []
  | s :: rest => s.usesIn around ++ Stmt.allUsesIn around rest

end

/-- The names of an expression, with the functions that they stand in. -/
def Standing.uses (e : Standing) : List Use :=
  e.expr.usesIn e.around

mutual

theorem Stmt.usesIn_eq (around : List SymbolId) :
    (s : Stmt) → s.usesIn around = (s.standing around).flatMap Standing.uses
  | .empty _ | .mod _ _ _ | .externalVariable _ _ | .externalFunction _ _ _
  | .typeAlias _ _ _ _ => rfl
  | .declare _ initial _ => by
    rw [Stmt.usesIn, Stmt.standing, List.flatMap_map]
    rfl
  | .whileLoop test body _ => by
    rw [Stmt.usesIn, Stmt.standing, List.flatMap_cons, body.usesIn_eq]
    rfl
  | .ifThen test yes _ => by
    rw [Stmt.usesIn, Stmt.standing, List.flatMap_cons, yes.usesIn_eq]
    rfl
  | .ifElse test yes no _ => by
    rw [Stmt.usesIn, Stmt.standing, List.flatMap_cons, List.flatMap_append, yes.usesIn_eq,
      no.usesIn_eq]
    rfl
  | .returned value _ | .expr value _ => by
    rw [Stmt.usesIn, Stmt.standing, List.flatMap_singleton]
    rfl
  | .func h (.mk body _ _) _ => Stmt.allUsesIn_eq (h.symbol :: around) body

theorem Block.usesIn_eq (around : List SymbolId) :
    (b : Block) → b.usesIn around = (b.standing around).flatMap Standing.uses
  | .mk stmts _ _ => Stmt.allUsesIn_eq around stmts

/-- The names of statements are those of their expressions. -/
theorem Stmt.allUsesIn_eq (around : List SymbolId) :
    (ss : List Stmt) → Stmt.allUsesIn around ss =
      (Stmt.allStanding around ss).flatMap Standing.uses
  | [] => rfl
  | s :: rest => by
    rw [Stmt.allUsesIn, Stmt.allStanding, List.flatMap_append, s.usesIn_eq, Stmt.allUsesIn_eq]

end

end Bound

/-! ### Tables that grow -/

namespace Table

variable {t t' : Table}

theorem GrowsInto.retains (h : t.GrowsInto t') : t.Retains t' := by
  intro i s hs
  obtain ⟨new, hs'⟩ := h i s hs
  exact ⟨_, hs', rfl, rfl, rfl, fun _ _ hc => child?_append new hc⟩

/-- What is around a symbol later was around it as soon as it was there. -/
theorem Keeps.inside_back (h : t.Keeps t') (ht : t.Rooted) {outer : SymbolId} {i : Nat}
    (hi : i < t.symbols.size) (hin : t'.Inside outer (.unit i)) : t.Inside outer (.unit i) := by
  induction i using Nat.strongRecOn with
  | ind i ih =>
    obtain ⟨s, hs⟩ := exists_symbol hi
    obtain ⟨s', hs', -, -, hp⟩ := h i s hs
    have hget : t.get? (.unit i) = some s := hs
    obtain ⟨x, parent, hx, hparent⟩ := hin.exists_parent
    obtain rfl : s' = x := Option.some.inj (hs'.symm.trans hx)
    rw [hp] at hparent
    obtain ⟨j, rfl, hj, -⟩ := ht.through_parent hs hparent
    rcases hin.of_parent hs' (hp.trans hparent) with rfl | hin
    · exact .parent hget hparent
    · exact .above hget hparent (ih j hj (by omega) hin)

theorem not_inside_root (ht : t.Rooted) {outer : SymbolId} : ¬ t.Inside outer root := by
  refine fun h => h.not_top fun s hs => ?_
  obtain ⟨r, hr, -, -, hnone⟩ := ht.root
  obtain rfl : r = s := Option.some.inj (hr.symm.trans hs)
  exact hnone

theorem Inside.exists_unit {outer id : SymbolId} (h : t.Inside outer id) : ∃ i, id = .unit i := by
  cases id with
  | unit i => exact ⟨i, rfl⟩
  | builtin k => exact (h.not_top fun s hs => (get?_builtin hs).2.1).elim

/-- What is around an open scope is open. -/
theorem Inside.mem_scopes {outer scope : SymbolId} {scopes : List SymbolId}
    (hn : Nested t scopes) (ht : t.Rooted) (hscope : scope ∈ scopes)
    (h : t.Inside outer scope) : outer ∈ scopes := by
  induction hn generalizing scope with
  | root =>
    obtain rfl := List.mem_singleton.mp hscope
    exact (not_inside_root ht h).elim
  | @step i s parent rest hs hp _ ih =>
    rcases List.mem_cons.mp hscope with rfl | hscope
    · rcases h.of_parent hs hp with rfl | h
      · simp
      · exact List.mem_cons_of_mem _ (ih List.mem_cons_self h)
    · exact List.mem_cons_of_mem _ (ih hscope h)

/-- **The names that lead down to a symbol are those on the way up from it.** -/
theorem symbolsAlong_descend (ht : t.Rooted) {label : String} {id found : SymbolId}
    {path : List String} {way : List (SymbolId × Symbol)}
    (hway : symbolsAlong (t.lineage id) = .ok way) (h : t.descend label id path = .ok found) :
    ∃ below, symbolsAlong (t.lineage found) = .ok (below ++ way) ∧
      (below.map (·.2.name)).reverse = path := by
  induction path generalizing id way with
  | nil =>
    obtain rfl := Except.ok.inj h
    exact ⟨[], hway, rfl⟩
  | cons part rest ih =>
    obtain ⟨s, child, hget, hchild, h⟩ := descend_cons_ok h
    obtain ⟨p, rfl⟩ := exists_unit_of_child hget hchild
    obtain ⟨k, c, rfl, hc, hname, hp, -⟩ := ht.isChild hget hchild
    obtain ⟨j, heq, -, hup⟩ := ht.through_parent hc hp
    cases heq
    have hbelow : symbolsAlong (t.lineage (.unit k)) = .ok ((.unit k, c) :: way) := by
      rw [hup]
      simp [symbolsAlong, hway, bind, Except.bind, pure, Except.pure]
    obtain ⟨below, hfound, hnames⟩ := ih hbelow h
    refine ⟨below ++ [(SymbolId.unit k, c)], by rw [hfound]; simp, ?_⟩
    simp [hnames, hname]

/-- What is reached from the root by going down is in no block, and the path is its full name. -/
theorem fullName_descend (ht : t.Rooted) {label : String} {id : SymbolId} {path : List String}
    (hne : path ≠ []) (h : t.descend label root path = .ok id) :
    t.InNoBlock id ∧ t.fullName id = .ok (rootName ++ "." ++ Text.joined "." path) := by
  refine ⟨(inNoBlock_root ht).descend ht h, ?_⟩
  obtain ⟨r, hr, hname, -⟩ := ht.root
  have hway : symbolsAlong (t.lineage root) = .ok [(root, r)] := by
    rw [lineage_root ht hr]
    rfl
  obtain ⟨below, hfound, hnames⟩ := symbolsAlong_descend ht hway h
  have hall : ((below ++ [(root, r)]).map (·.2.name)).reverse = rootName :: path := by
    simp [hnames, hname]
  simp only [fullName, hfound, hall, Text.joined_cons "." rootName hne, bind, Except.bind, pure,
    Except.pure]

end Table

/-! ### Where names are looked up -/

/-- The name was looked up at some moment when no functions were open but those around it. -/
def Table.LookedUp (t : Table) (use : Bound.Use) : Prop :=
  ∃ moment : Context, moment.table.Rooted ∧ Nested moment.table moment.scopes ∧
    moment.table.Retains t ∧ moment.InFunctions use.around ∧
    moment.table.resolveFullName moment.current use.id.dotted = .ok use.id.symbol

open BlockC.Bound

/-- The names of an expression were looked up at the moment when it was bound. -/
theorem Table.HasBound.lookedUp {N : String → Prop} {t : Table} {e : Standing}
    (h : t.HasBound N e) : ∀ use ∈ e.uses, t.LookedUp use := by
  intro use huse
  obtain ⟨id, hid, rfl⟩ := List.mem_map.mp huse
  obtain ⟨moment, hwf, hin, hgrows, hchecked⟩ := h
  exact ⟨moment, hwf.table.toRooted, hwf.nested, hgrows.retains, hin, hchecked.found id hid⟩

/-- Every name of a text that is bound was looked up, and is a path. -/
theorem lookedUp_of_bindTree {source : String} {u : CompilationUnit}
    (h : bindTree (Grammar.parse source) source.toUTF8 = .ok u) :
    ∀ use ∈ Stmt.allUsesIn [] u.sourceFile.stmts,
      u.table.LookedUp use ∧ IsPath use.id.path := by
  intro use huse
  rw [Stmt.allUsesIn_eq] at huse
  obtain ⟨e, he, huse⟩ := List.mem_flatMap.mp huse
  refine ⟨(hasBound_of_bindTree h e he).lookedUp use huse, ?_⟩
  obtain ⟨ctx, -, -, hbinds⟩ := bindTree_parse_binds h
  obtain ⟨id, hid, rfl⟩ := List.mem_map.mp huse
  have hexpr : e.expr ∈ Stmt.allExprs u.sourceFile.stmts := by
    rw [← Stmt.allStanding_exprs []]
    exact List.mem_map_of_mem he
  exact Code.isPath_of_proper (hbinds.exprs e.expr hexpr) id hid

namespace Table

variable {t : Table} {use : Use} {outer : SymbolId}

/-- From outside a function a plain name does not lead into it. -/
theorem LookedUp.not_plain (h : t.LookedUp use) {name : String} (hpath : use.id.path = [name])
    (hname : Lexical.IsName name) {fs : Symbol} (hf : t.get? outer = some fs)
    (hfunc : fs.kind = .func) (hin : t.Inside outer use.id.symbol) : outer ∈ use.around := by
  obtain ⟨moment, hrooted, hnested, hretains, hfunctions, hfound⟩ := h
  rw [Ident.dotted, hpath, Text.joined, resolveFullName, hname.segments] at hfound
  obtain ⟨c, rest, hscopes, -⟩ := hnested.indices hrooted
  have hcurrent : moment.current ∈ moment.scopes := by
    rw [Context.current, hscopes]
    exact List.mem_cons_self
  -- The symbol was there when its name was looked up, so what is around it now was so then.
  have hthen : moment.table.Inside outer use.id.symbol := by
    obtain ⟨i, hsymbol⟩ := hin.exists_unit
    rw [hsymbol] at hfound hin ⊢
    rcases resolveName_found hfound with ⟨k, hk⟩ | ⟨owner, s, -, hs, hchild⟩
    · cases hk
    · obtain ⟨x, hx, -⟩ := hrooted.published hs hchild
      exact hretains.keeps.inside_back hrooted (lt_size hx) hin
  -- A plain name finds what is in an open scope, so the function was open.
  have hopen : outer ∈ moment.scopes := by
    rcases resolveName_inside hrooted hfound hthen with rfl | hout
    · exact hcurrent
    · exact hout.mem_scopes hnested hrooted hcurrent
  obtain ⟨i, rfl, hi⟩ := hnested.mem_lt hrooted hopen
  obtain ⟨s, hs⟩ := exists_symbol hi
  obtain ⟨s', hs', -, hkind, -⟩ := hretains i s hs
  obtain rfl : s' = fs := Option.some.inj (hs'.symm.trans hf)
  exact hfunctions i s hopen hs (hkind.symm.trans hfunc)

/-- A dotted name means what going down from the root leads to. -/
theorem LookedUp.descend (h : t.LookedUp use) (hpath : IsPath use.id.path)
    (hdotted : use.id.isDotted = true) :
    Text.segments use.id.dotted = use.id.path ∧ 2 ≤ (Text.segments use.id.dotted).length ∧
      t.descend use.id.dotted root use.id.path = .ok use.id.symbol := by
  have hsegments : Text.segments use.id.dotted = use.id.path :=
    Text.segments_joined hpath.1 fun s hs => (hpath.2 s hs).dot_not_mem
  have hlength : 2 ≤ (Text.segments use.id.dotted).length := by
    rw [hsegments]
    exact of_decide_eq_true hdotted
  refine ⟨hsegments, hlength, ?_⟩
  obtain ⟨moment, hrooted, hnested, hretains, -, hfound⟩ := h
  obtain ⟨c, rest, hscopes, hc, -⟩ := hnested.indices hrooted
  have hcurrent : moment.current = .unit c := by simp [Context.current, hscopes]
  rw [hcurrent, resolveFullName_eq_ok_iff hrooted hc hlength, hsegments] at hfound
  exact hretains.descend hfound _

end Table

/-- **What is reached in a function from outside.**  Take any text that is bound, a name in it, and
something that is declared inside a function that the name does not stand in.  The name means it
just if the name is dotted and is its full name without the root, and it is in no block.  So a plain
name never does. -/
theorem reached_from_outside_iff {source : String} {u : CompilationUnit}
    (h : bindTree (Grammar.parse source) source.toUTF8 = .ok u) {use : Use}
    (huse : use ∈ Stmt.allUsesIn [] u.sourceFile.stmts) {f x : SymbolId} {fs : Symbol}
    (hf : u.table.get? f = some fs) (hfunc : fs.kind = .func) (hx : u.table.Inside f x)
    (hout : f ∉ use.around) :
    use.id.symbol = x ↔ use.id.isDotted = true ∧ u.table.InNoBlock x ∧
      u.table.fullName x = .ok (Table.rootName ++ "." ++ use.id.dotted) := by
  obtain ⟨hlooked, hpath⟩ := lookedUp_of_bindTree h use huse
  have hopen := open_of_bindTree h
  constructor
  · rintro rfl
    have hdotted : use.id.isDotted = true := by
      by_contra hplain
      obtain ⟨name, rest, hcons⟩ := List.exists_cons_of_ne_nil hpath.1
      have hlength : ¬1 < use.id.path.length := by simpa [Ident.isDotted] using hplain
      have hnil : rest = [] := by
        rw [hcons, List.length_cons] at hlength
        exact List.eq_nil_of_length_eq_zero (by omega)
      rw [hnil] at hcons
      exact hout (hlooked.not_plain hcons (hpath.2 name (by simp [hcons])) hf hfunc hx)
    obtain ⟨-, -, hdown⟩ := hlooked.descend hpath hdotted
    exact ⟨hdotted, Table.fullName_descend hopen.toRooted hpath.1 hdown⟩
  · rintro ⟨hdotted, hfree, hname⟩
    obtain ⟨hsegments, hlength, hdown⟩ := hlooked.descend hpath hdotted
    obtain ⟨s, -, hs, -⟩ := hx.exists_parent
    obtain ⟨i, rfl⟩ := hx.exists_unit
    have h0 : i ≠ 0 := by
      rintro rfl
      exact Table.not_inside_root hopen.toRooted hx
    obtain ⟨rest, hfull, -, hresolves⟩ := hopen.fullName_resolves (Table.lt_size hs) h0 hfree
    obtain rfl : rest = use.id.dotted :=
      String.append_right_inj _ |>.mp (Except.ok.inj (hfull.symm.trans hname))
    have hfound := hresolves hlength i (Table.lt_size hs)
    rw [Table.resolveFullName_eq_ok_iff hopen.toRooted (Table.lt_size hs) hlength, hsegments]
      at hfound
    exact Except.ok.inj (hdown.symm.trans hfound)

/-- A variable of a function in a module, reached behind the function. -/
theorem local_reached_from_outside :
    ∃ u use, bindTree (Grammar.parse
        "mod a; fn f(n: i32) -> i32 do let k: i32 = n; return k; end let m: i32 = a.f.k;")
        "mod a; fn f(n: i32) -> i32 do let k: i32 = n; return k; end let m: i32 = a.f.k;".toUTF8 =
          .ok u ∧
      use ∈ Stmt.allUsesIn [] u.sourceFile.stmts ∧ use.around = [] ∧
      u.table.Inside (.unit 2) (.unit 4) ∧ use.id.symbol = .unit 4 ∧
      u.table.fullName (.unit 4) = .ok "global.a.f.k" := by
  obtain ⟨source, hsource⟩ : ∃ source, source =
      "mod a; fn f(n: i32) -> i32 do let k: i32 = n; return k; end let m: i32 = a.f.k;" := ⟨_, rfl⟩
  have hfacts : (bindTree (Grammar.parse source) source.toUTF8).toOption.map (fun u =>
      ((Stmt.allUsesIn [] u.sourceFile.stmts).getLast?.map fun use =>
          (use.around, use.id.symbol, use.id.dotted),
        (u.table.get? (.unit 2)).map (·.kind), (u.table.get? (.unit 4)).bind (·.parent))) =
      some (some ([], .unit 4, "a.f.k"), some .func, some (.unit 2)) := by
    rw [hsource]
    decide +kernel
  obtain ⟨u, hu, hvalues⟩ := exists_ok_of_map hfacts
  simp only [Prod.mk.injEq] at hvalues
  obtain ⟨hlast, hkind, hparent⟩ := hvalues
  obtain ⟨use, huse, hfields⟩ := Option.map_eq_some_iff.mp hlast
  simp only [Prod.mk.injEq] at hfields
  obtain ⟨haround, hsymbol, hdotted⟩ := hfields
  obtain ⟨fs, hf, hfunc⟩ := Option.map_eq_some_iff.mp hkind
  obtain ⟨xs, hxs, hp⟩ := Option.bind_eq_some_iff.mp hparent
  have hmem := List.mem_of_getLast? huse
  have hin : u.table.Inside (.unit 2) (.unit 4) := .parent hxs hp
  have hout : .unit 2 ∉ use.around := by simp [haround]
  have hfull := ((reached_from_outside_iff hu hmem hf hfunc hin hout).mp hsymbol).2.2
  rw [hdotted] at hfull
  exact ⟨u, use, hsource ▸ hu, hmem, haround, hin, hsymbol, hfull⟩

/-- A parameter is reached from outside its function, by a dotted name. -/
theorem parameter_reached_from_outside :
    ¬∀ (source : String) (u : CompilationUnit) (use : Use) (f : SymbolId) (fs xs : Symbol),
      bindTree (Grammar.parse source) source.toUTF8 = .ok u →
      use ∈ Stmt.allUsesIn [] u.sourceFile.stmts →
      u.table.get? f = some fs → fs.kind = .func →
      u.table.get? use.id.symbol = some xs → xs.kind = .param ∨ xs.kind = .var →
      xs.parent = some f → f ∈ use.around := by
  intro hall
  obtain ⟨source, hsource⟩ : ∃ source, source =
      "fn f(n: i32) -> i32 do return n; end let m: i32 = f.n;" := ⟨_, rfl⟩
  have hfacts : (bindTree (Grammar.parse source) source.toUTF8).toOption.map (fun u =>
      ((Stmt.allUsesIn [] u.sourceFile.stmts).getLast?.map fun use => (use.around, use.id.symbol),
        (u.table.get? (.unit 1)).map (·.kind),
        (u.table.get? (.unit 2)).map fun s => (s.kind, s.parent))) =
      some (some ([], .unit 2), some .func, some (.param, some (.unit 1))) := by
    rw [hsource]
    decide +kernel
  obtain ⟨u, hu, hvalues⟩ := exists_ok_of_map hfacts
  simp only [Prod.mk.injEq] at hvalues
  obtain ⟨hlast, hkind, hparam⟩ := hvalues
  obtain ⟨use, huse, hfields⟩ := Option.map_eq_some_iff.mp hlast
  obtain ⟨haround, hsymbol⟩ := Prod.mk.inj hfields
  obtain ⟨fs, hf, hfunc⟩ := Option.map_eq_some_iff.mp hkind
  obtain ⟨xs, hxs, hx⟩ := Option.map_eq_some_iff.mp hparam
  obtain ⟨hxkind, hxparent⟩ := Prod.mk.inj hx
  have hinside := hall source u use (.unit 1) fs xs hu (List.mem_of_getLast? huse) hf hfunc
    (hsymbol ▸ hxs) (.inl hxkind) hxparent
  simp [haround] at hinside

end BlockC

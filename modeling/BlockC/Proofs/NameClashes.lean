import BlockC.Proofs.LexicalBinding
import BlockC.Proofs.Spelling

/-! # When two definitions clash

A function is written with the modules around it in front of its name and underscores between them,
and underscores may be part of names too.  Modules that are opened at the top of a program stay
open, so of two functions that are defined there the later one is in the modules of the earlier one
and in those that are opened between the two.  They are written alike just if the name of the
earlier one is what those further modules make of the name of the later one
(`definitions_clash_iff`).
-/
namespace BlockC

namespace Text

theorem joined_cons (mark s : String) {rest : List String} (h : rest ≠ []) :
    joined mark (s :: rest) = s ++ mark ++ joined mark rest := by
  obtain ⟨s', rest', rfl⟩ := List.exists_cons_of_ne_nil h
  rfl

/-- What stands in front does not matter for whether texts join to the same. -/
theorem joined_append_inj (mark : String) (front : List String) {ss ss' : List String}
    (h : ss ≠ []) (h' : ss' ≠ []) :
    joined mark (front ++ ss) = joined mark (front ++ ss') ↔ joined mark ss = joined mark ss' := by
  induction front with
  | nil => rfl
  | cons s front ih =>
    rw [List.cons_append, List.cons_append, joined_cons mark s (by simp [h]),
      joined_cons mark s (by simp [h']), String.append_right_inj, ih]

end Text

namespace Code

open BlockC.Bound

/-! ### Names inside further modules -/

/-- A name is written like another one in further modules just if it is what these make of it. -/
theorem mangled_eq_iff (modules more : List String) (name name' : String) :
    mangled modules name = mangled (modules ++ more) name' ↔ name = mangled more name' := by
  unfold mangled
  rw [List.append_assoc, Text.joined_append_inj "_" modules (by simp) (by simp)]
  rfl

/-- A name inside a module has an underscore. -/
theorem underscore_mem_mangled {modules : List String} (h : modules ≠ []) (name : String) :
    '_' ∈ (mangled modules name).toList := by
  obtain ⟨m, rest, rfl⟩ := List.exists_cons_of_ne_nil h
  rw [mangled, List.cons_append, Text.joined_cons "_" m (by simp)]
  simp

/-! ### The modules in front of a definition -/

/-- The names of the modules that statements open, in order. -/
def openedBy (ss : List Stmt) : List String :=
  ss.filterMap fun
    | .mod name _ _ => some name
    | _ => none

theorem openedBy_append (ss rest : List Stmt) :
    openedBy (ss ++ rest) = openedBy ss ++ openedBy rest :=
  List.filterMap_append

theorem openedBy_cons (s : Stmt) (rest : List Stmt) :
    openedBy (s :: rest) = openedBy [s] ++ openedBy rest :=
  openedBy_append [s] rest

theorem modulesBehind_eq (modules : List String) (s : Stmt) :
    modulesBehind modules s = modules ++ openedBy [s] := by
  cases s with
  | mod name symbol span => rfl
  | _ => exact (List.append_nil _).symm

section
variable {t : Table}

/-- Behind statements, the innermost scope is in the modules that they have opened. -/
theorem exists_scope_behind (ht : t.Rooted) {scope : SymbolId} {ss rest : List Stmt}
    (hk : Stmt.AllKnown t (ss ++ rest)) (hp : Stmt.AllPlaced t scope (ss ++ rest)) :
    Stmt.AllKnown t rest ∧ ∃ inner, Stmt.AllPlaced t inner rest ∧
      enclosing t inner = enclosing t scope ++ openedBy ss := by
  induction ss generalizing scope with
  | nil => exact ⟨hk, scope, hp, by simp [openedBy]⟩
  | cons s ss ih =>
    obtain ⟨hrest, inner, hinner, henclosing⟩ := ih hk.2 hp.2
    refine ⟨hrest, inner, hinner, ?_⟩
    rw [henclosing, ← modulesBehind_enclosing ht hk.1 hp.1, modulesBehind_eq, List.append_assoc,
      ← openedBy_cons]

end

/-- A function at the top of a program is declared just under its name inside the modules that are
opened in front of it. -/
theorem definition_declared {root : Node} {source : ByteArray} {u : CompilationUnit}
    (h : bindTree root source = .ok u) {before behind : List Stmt} {f : Header} {body : Block}
    {span : Span} (hstmts : u.sourceFile.stmts = before ++ .func f body span :: behind)
    (name : String) :
    .declared f.symbol name ∈ stmtsPieces u.table [] u.sourceFile.stmts ↔
      name = mangled (openedBy before) f.name := by
  obtain ⟨ctx, htable, hbinds⟩ := bindTree_binds h
  have ht := hbinds.reaches.wellFormed.table.toRooted
  have hknown := hbinds.known
  have hplaced := hbinds.placed
  rw [← htable] at ht hknown hplaced
  rw [hstmts] at hknown hplaced
  obtain ⟨hk, inner, hp, henclosing⟩ := exists_scope_behind ht hknown hplaced
  rw [show Context.initial.current = Table.root from rfl, enclosing_root ht,
    List.nil_append] at henclosing
  -- The table has the same name for it, since its parents are these modules.
  obtain ⟨stmts, scope, bodySpan⟩ := body
  obtain ⟨returns, -, hdeclares⟩ := hk.1.1.2
  have hname := (nameIn_function ht hdeclares hp.1.1.1).1
  rw [henclosing] at hname
  obtain ⟨i, s, hi, hs, -, hkind, -⟩ := hdeclares
  have hget : u.table.get? f.symbol = some s := by
    rw [hi]
    exact hs
  obtain ⟨name', hname', hiff⟩ := declared_iff h hget (.inl hkind)
  obtain rfl := Except.ok.inj (hname.symm.trans hname')
  exact hiff name

/-! ### Functions of one scope -/

theorem declares_add {frames : Frames} (h : frames ≠ []) (name name' : String) (symbol : SymbolId) :
    (frames.add name symbol).declares name' = (frames.declares name' || name' == name) := by
  obtain ⟨frame, rest, rfl⟩ := List.exists_cons_of_ne_nil h
  simp only [Frames.add, Frames.declares, List.head?_cons, Option.any_some, List.lookup_append,
    Option.isSome_or, List.lookup_cons, List.lookup_nil]
  cases name' == name <;> rfl

/-- A statement leaves the frames as they are, or adds a name to the innermost one, or opens a
module, which has a frame of its own. -/
theorem framesBehind_cases (frames : Frames) (s : Stmt) :
    s.framesBehind frames = frames ∨
      (∃ name symbol, s.framesBehind frames = frames.add name symbol) ∨
      openedBy [s] ≠ [] ∧ ∃ outer, s.framesBehind frames = [] :: outer := by
  cases s with
  | mod name symbol span => exact .inr (.inr ⟨by simp [openedBy], _, rfl⟩)
  | declare b initial span | externalVariable b span | externalFunction f declared span
  | typeAlias name type symbol span | func f body span => exact .inr (.inl ⟨_, _, rfl⟩)
  | _ => exact .inl rfl

theorem framesBehind_ne_nil {frames : Frames} (h : frames ≠ []) (s : Stmt) :
    s.framesBehind frames ≠ [] := by
  rcases framesBehind_cases frames s with heq | ⟨name, symbol, heq⟩ | ⟨-, outer, heq⟩ <;> rw [heq]
  · exact h
  · obtain ⟨frame, rest, rfl⟩ := List.exists_cons_of_ne_nil h
    exact List.cons_ne_nil _ _
  · exact List.cons_ne_nil _ _

/-- Statements behind others are scoped too, by the frames that those leave. -/
theorem exists_frames_behind {t : Table} {frames : Frames} (hne : frames ≠ [])
    {ss rest : List Stmt} (h : Stmt.AllScoped t frames (ss ++ rest)) :
    ∃ inner, inner ≠ [] ∧ Stmt.AllScoped t inner rest := by
  induction ss generalizing frames with
  | nil => exact ⟨frames, hne, h⟩
  | cons s ss ih => exact ih (framesBehind_ne_nil hne s) h.2

/-- A name of the innermost frame stays there as long as no module is opened. -/
theorem declares_behind {frames : Frames} {name : String} (h : frames.declares name = true)
    {s : Stmt} (hs : openedBy [s] = []) : (s.framesBehind frames).declares name = true := by
  have hne : frames ≠ [] := by
    rintro rfl
    cases h
  rcases framesBehind_cases frames s with heq | ⟨name', symbol, heq⟩ | ⟨hopens, -⟩
  · rw [heq, h]
  · rw [heq, declares_add hne, h, Bool.true_or]
  · exact absurd hs hopens

/-- Two functions that are defined with no module opened between them have different names. -/
theorem name_ne_of_scoped {t : Table} {frames : Frames} {between behind : List Stmt} {g : Header}
    {body : Block} {span : Span}
    (h : Stmt.AllScoped t frames (between ++ .func g body span :: behind))
    (hnone : openedBy between = []) {name : String} (hname : frames.declares name = true) :
    name ≠ g.name := by
  induction between generalizing frames with
  | nil =>
    obtain ⟨stmts, scope, bodySpan⟩ := body
    have hnew := h.1.1.1
    rintro rfl
    rw [hname] at hnew
    cases hnew
  | cons s between ih =>
    rw [openedBy_cons, List.append_eq_nil_iff] at hnone
    exact ih h.2 hnone.2 (declares_behind hname hnone.1)

/-! ### Two functions at the top -/

/-- The function that a statement defines, if it does. -/
def definedBy : Stmt → Option Header
  | .func f _ _ => some f
  | .empty _ | .mod _ _ _ | .declare _ _ _ | .externalVariable _ _ | .externalFunction _ _ _
  | .whileLoop _ _ _ | .ifThen _ _ _ | .ifElse _ _ _ _ | .returned _ _ | .typeAlias _ _ _ _
  | .expr _ _ => none

theorem definedBy_eq_some {s : Stmt} {f : Header} (h : definedBy s = some f) :
    ∃ body span, s = .func f body span := by
  cases s with
  | func f' body span =>
    cases h
    exact ⟨body, span, rfl⟩
  | _ => cases h

theorem allCreated_append (ss rest : List Stmt) :
    Stmt.allCreated (ss ++ rest) = Stmt.allCreated ss ++ Stmt.allCreated rest := by
  induction ss with
  | nil => rfl
  | cons s ss ih => simp only [List.cons_append, Stmt.allCreated, ih, List.append_assoc]

theorem symbol_mem_created (f : Header) (body : Block) (span : Span) :
    f.symbol ∈ (Stmt.func f body span).created := by
  obtain ⟨stmts, scope, bodySpan⟩ := body
  simp [Stmt.created, Header.created]

/-- Functions that are defined one behind the other have symbols of their own. -/
theorem symbol_ne_of_nodup {before between behind : List Stmt} {f g : Header} {fbody gbody : Block}
    {fspan gspan : Span}
    (h : (Stmt.allCreated (before ++ .func f fbody fspan ::
      (between ++ .func g gbody gspan :: behind))).Nodup) : f.symbol ≠ g.symbol := by
  rw [allCreated_append, Stmt.allCreated, allCreated_append, Stmt.allCreated] at h
  have hdisjoint := List.nodup_append.mp (List.nodup_append.mp h).2.1
  refine hdisjoint.2.2 _ (symbol_mem_created f fbody fspan) _ ?_
  simp [symbol_mem_created g gbody gspan]

/-- Two functions are written alike just if the modules between them make the earlier name of the
later one. -/
theorem mangled_clash_iff {t : Table} {frames : Frames} (hne : frames ≠ [])
    {before between behind : List Stmt} {f g : Header} {fbody gbody : Block} {fspan gspan : Span}
    (h : Stmt.AllScoped t frames
      (before ++ .func f fbody fspan :: (between ++ .func g gbody gspan :: behind))) :
    mangled (openedBy before) f.name =
        mangled (openedBy (before ++ .func f fbody fspan :: between)) g.name ↔
      openedBy between ≠ [] ∧ f.name = mangled (openedBy between) g.name := by
  have hmodules : openedBy (before ++ .func f fbody fspan :: between) =
      openedBy before ++ openedBy between := by
    rw [openedBy_append, openedBy_cons]
    rfl
  rw [hmodules, mangled_eq_iff]
  refine ⟨fun heq => ⟨fun hnone => ?_, heq⟩, And.right⟩
  -- Without a module between them the two would have one name in one scope.
  obtain ⟨inner, hinner, hscoped⟩ := exists_frames_behind hne h
  have hdeclared : ((Stmt.func f fbody fspan).framesBehind inner).declares f.name = true := by
    rw [Stmt.framesBehind, declares_add hinner, BEq.rfl, Bool.or_true]
  rw [hnone] at heq
  exact name_ne_of_scoped hscoped.2 hnone hdeclared heq

/-- The C text of a program that can be analyzed is made up of its pieces. -/
theorem compile_eq_render {source : String} {u : CompilationUnit} (h : analyze source = .ok u)
    (withPrelude : Bool) :
    compile source withPrelude = .ok ((if withPrelude then prelude else "") ++
      render (stmtsPieces u.table [] u.sourceFile.stmts)) := by
  unfold compile
  rw [h]
  exact unit_eq_render_of_analyze h withPrelude

end Code

open BlockC.Bound Code

/-- **When two definitions clash.**  Take any two functions that are defined at the top of a program
that can be analyzed, the earlier one and the later one.  The C text of the program is made up of
pieces, and each of the two is declared there under just one name.  The two names are the same just
if modules are opened between the functions, and the name of the earlier one is that of the later
one inside these modules.  So they differ if the name of the earlier one has no underscore. -/
theorem definitions_clash_iff {source : String} {u : CompilationUnit} (h : analyze source = .ok u)
    {before between behind : List Stmt} {f g : Header} {fbody gbody : Block} {fspan gspan : Span}
    (hstmts : u.sourceFile.stmts =
      before ++ .func f fbody fspan :: (between ++ .func g gbody gspan :: behind)) :
    (∀ withPrelude, compile source withPrelude = .ok ((if withPrelude then prelude else "") ++
      render (stmtsPieces u.table [] u.sourceFile.stmts))) ∧
    f.symbol ≠ g.symbol ∧
    ∃ fname gname,
      (∀ name, .declared f.symbol name ∈ stmtsPieces u.table [] u.sourceFile.stmts ↔ name = fname) ∧
      (∀ name, .declared g.symbol name ∈ stmtsPieces u.table [] u.sourceFile.stmts ↔ name = gname) ∧
      (fname = gname ↔ openedBy between ≠ [] ∧ f.name = mangled (openedBy between) g.name) ∧
      ('_' ∉ f.name.toList → fname ≠ gname) := by
  obtain ⟨hcheck, hbind⟩ := analyze_eq_ok h
  obtain ⟨ctx, -, hbinds⟩ := bindTree_binds hbind
  have hnodup := hbinds.created.nodup
  have hscoped := bindTree_tracks hcheck
  rw [hbind] at hscoped
  have hscoped := hscoped.1
  have hiff := mangled_clash_iff (by simp) (hstmts ▸ hscoped)
  have hlater : u.sourceFile.stmts =
      (before ++ .func f fbody fspan :: between) ++ .func g gbody gspan :: behind := by
    rw [hstmts, List.append_assoc, List.cons_append]
  refine ⟨compile_eq_render h, symbol_ne_of_nodup (by rwa [hstmts] at hnodup), _, _,
    definition_declared hbind hstmts, definition_declared hbind hlater, hiff, fun hplain heq => ?_⟩
  obtain ⟨hopened, hname⟩ := hiff.mp heq
  exact hplain (hname ▸ underscore_mem_mangled hopened g.name)

/-- A function whose name spells out the two modules that are opened behind it. -/
theorem nested_modules_clash :
    ∃ u f g name,
      analyze "fn b_c_f() -> i8 do end mod b mod c fn f() -> i8 do b_c_f() end" = .ok u ∧ f ≠ g ∧
      .declared f name ∈ stmtsPieces u.table [] u.sourceFile.stmts ∧
      .declared g name ∈ stmtsPieces u.table [] u.sourceFile.stmts := by
  have hstmts : (analyze
        "fn b_c_f() -> i8 do end mod b mod c fn f() -> i8 do b_c_f() end").toOption.map
      (fun u => u.sourceFile.stmts.map fun s => ((definedBy s).map (·.name), openedBy [s])) =
      some [(some "b_c_f", []), (none, ["b"]), (none, ["c"]), (some "f", [])] := by
    decide +kernel
  obtain ⟨u, hu, hshape⟩ := exists_ok_of_map hstmts
  obtain ⟨s, rest, hlist, hs, hrest⟩ := List.map_eq_cons_iff.mp hshape
  obtain ⟨b, rest, rfl, hb, hrest⟩ := List.map_eq_cons_iff.mp hrest
  obtain ⟨c, rest, rfl, hc, hrest⟩ := List.map_eq_cons_iff.mp hrest
  obtain ⟨s', rest, rfl, hs', hrest⟩ := List.map_eq_cons_iff.mp hrest
  obtain ⟨f, hf, hfname⟩ := Option.map_eq_some_iff.mp (Prod.mk.inj hs).1
  obtain ⟨g, hg, hgname⟩ := Option.map_eq_some_iff.mp (Prod.mk.inj hs').1
  obtain ⟨fbody, fspan, rfl⟩ := definedBy_eq_some hf
  obtain ⟨gbody, gspan, rfl⟩ := definedBy_eq_some hg
  have hmodules : openedBy [b, c] = ["b", "c"] := by
    rw [openedBy_cons, (Prod.mk.inj hb).2, (Prod.mk.inj hc).2]
    rfl
  have hsplit : u.sourceFile.stmts =
      [] ++ .func f fbody fspan :: ([b, c] ++ .func g gbody gspan :: rest) := hlist
  obtain ⟨-, hne, name, gname, hdeclared, hdeclared', hiff, -⟩ := definitions_clash_iff hu hsplit
  obtain rfl := hiff.mpr (by rw [hmodules, hfname, hgname]; exact ⟨by simp, rfl⟩)
  exact ⟨u, f.symbol, g.symbol, name, hu, hne, (hdeclared name).mpr rfl, (hdeclared' name).mpr rfl⟩

/-- Functions at the top of a program that are declared in its C text under names of their own. -/
def HaveOwnNames (u : CompilationUnit) : Prop :=
  ∀ f ∈ u.sourceFile.stmts.filterMap definedBy, ∀ g ∈ u.sourceFile.stmts.filterMap definedBy,
    f.symbol ≠ g.symbol → ∀ name,
      .declared f.symbol name ∈ stmtsPieces u.table [] u.sourceFile.stmts →
      .declared g.symbol name ∉ stmtsPieces u.table [] u.sourceFile.stmts

/-- A function of a module that is written like a function in front of the module. -/
theorem definitions_may_clash :
    ¬∀ source u, analyze source = .ok u → HaveOwnNames u := by
  have hfacts : (analyze
        "fn a_f() -> i32 do return 1; end mod a; fn f() -> i32 do return 2; end").toOption.map
      (fun u => ((u.sourceFile.stmts.filterMap definedBy).map (·.symbol),
        declarations (stmtsPieces u.table [] u.sourceFile.stmts))) =
      some ([.unit 1, .unit 3], [(.unit 1, "a_f"), (.unit 3, "a_f")]) := by
    decide +kernel
  intro hown
  obtain ⟨u, hu, hpair⟩ := exists_ok_of_map hfacts
  obtain ⟨hsymbols, hnames⟩ := Prod.mk.inj hpair
  obtain ⟨f, hf, hfirst⟩ := List.mem_map.mp (hsymbols ▸ List.mem_cons_self)
  obtain ⟨g, hg, hsecond⟩ := List.mem_map.mp (hsymbols ▸ List.mem_cons_of_mem _ List.mem_cons_self)
  refine hown _ u hu f hf g hg (by simp [hfirst, hsecond]) "a_f" ?_ ?_
  · rw [← mem_declarations, hnames, hfirst]
    simp
  · rw [← mem_declarations, hnames, hsecond]
    simp

end BlockC

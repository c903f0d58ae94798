import BlockC.Proofs.LexicalBinding
import BlockC.Proofs.Spelling

/-! # What C finds for a name

C looks a name up by scopes of its own, in which the latest declaration of the innermost braces or
parameter list comes first.  The scopes of C at any place of the text are what the frames of the
program are there, written out: without the modules, and with functions under their mangled names
(`follows_stmt`).  The one difference is an initial value, where C already knows the name that is
being declared.

So a plain name of a variable or a parameter is found as the program means it, unless it stands in
the initial value of a declaration of the same name, or a function is written like it
(`c_finds_declaration_iff`).
-/
namespace BlockC

/-! ### Where names are used -/

/-- A name of a program, with the frames that it is looked up in and the declaration whose initial
value it is part of. -/
structure Bound.Site where
  frames : Frames
  own : Option Bound.Binding
  id : Bound.Ident

namespace Bound

/-- The sites of an expression. -/
def Expr.sites (frames : Frames) (own : Option Binding) (e : Expr) : List Site :=
  e.idents.map fun id => ⟨frames, own, id⟩

mutual

/-- The sites of a statement, in order. -/
def Stmt.sites (frames : Frames) : Stmt → List Site
  | .empty _ | .mod _ _ _ | .externalVariable _ _ | .externalFunction _ _ _
  | .typeAlias _ _ _ _ => []
  | .declare b initial _ => initial.toList.flatMap (·.sites frames (some b))
  | .whileLoop test body _ => test.sites frames none ++ body.sites frames
  | .ifThen test yes _ => test.sites frames none ++ yes.sites frames
  | .ifElse test yes no _ => test.sites frames none ++ (yes.sites frames ++ no.sites frames)
  | .returned value _ | .expr value _ => value.sites frames none
  | .func h (.mk body _ _) _ => Stmt.allSites (h.frames frames) body

/-- The sites of a block. -/
def Block.sites (frames : Frames) : Block → List Site
  | .mk stmts _ _ => Stmt.allSites ([] :: frames) stmts

/-- The sites of statements, in order. -/
def Stmt.allSites (frames : Frames) : List Stmt → List Site
  | [] => []
  | s :: rest => s.sites frames ++ Stmt.allSites (s.framesBehind frames) rest

end
end Bound

namespace Code

open BlockC.Bound

/-! ### The scopes of C -/

/-- The scopes of C behind a piece, given those before it. -/
def reach (scopes : Frames) : Piece → Frames
  | .declared symbol name => scopes.modifyHead ((name, symbol) :: ·)
  | .opened => [] :: scopes
  | .closed => scopes.tail
  | .plain _ | .used _ _ => scopes

/-- The scopes of C behind pieces that stand at the start of a text. -/
def scopesBehind (ps : List Piece) : Frames :=
  ps.foldl reach [[]]

/-- The names that are used in pieces, with the scopes of C that they stand in. -/
def sights (scopes : Frames) : List Piece → List (Frames × Ident × String)
  | [] => []
  | .used id name :: rest => (scopes, id, name) :: sights scopes rest
  | p :: rest => sights (reach scopes p) rest

theorem sights_append (scopes : Frames) (ps qs : List Piece) :
    sights scopes (ps ++ qs) = sights scopes ps ++ sights (ps.foldl reach scopes) qs := by
  induction ps generalizing scopes with
  | nil => rfl
  | cons p ps ih => cases p <;> simp [sights, reach, ih]

theorem map_snd_sights (scopes : Frames) (ps : List Piece) :
    (sights scopes ps).map Prod.snd = uses ps := by
  induction ps generalizing scopes with
  | nil => rfl
  | cons p ps ih =>
    cases p with
    | used id name => exact congrArg ((id, name) :: ·) (ih scopes)
    | _ => exact ih _

theorem length_sights (scopes : Frames) (ps : List Piece) :
    (sights scopes ps).length = (uses ps).length := by
  rw [← map_snd_sights scopes, List.length_map]

/-- A name that is used somewhere is seen there, as the one behind the names used before it. -/
theorem sights_at (before behind : List Piece) (id : Ident) (name : String) :
    (sights [[]] (before ++ Piece.used id name :: behind))[(uses before).length]? =
      some (scopesBehind before, id, name) := by
  rw [sights_append, ← length_sights [[]] before, List.getElem?_append_right (Nat.le_refl _),
    Nat.sub_self]
  rfl

/-- What is seen is used somewhere. -/
theorem exists_of_mem_sights {scopes scopes' : Frames} {ps : List Piece} {id : Ident}
    {name : String} (h : (scopes', id, name) ∈ sights scopes ps) :
    ∃ before behind : List Piece, ps = before ++ Piece.used id name :: behind ∧
      scopes' = before.foldl reach scopes := by
  induction ps generalizing scopes with
  | nil => cases h
  | cons p ps ih =>
    have hrest : (scopes', id, name) ∈ sights (reach scopes p) ps →
        ∃ before behind : List Piece, p :: ps = before ++ Piece.used id name :: behind ∧
          scopes' = before.foldl reach scopes := by
      intro hmem
      obtain ⟨before, behind, rfl, heq⟩ := ih hmem
      exact ⟨p :: before, behind, rfl, heq⟩
    cases p with
    | used id' name' =>
      rcases List.mem_cons.mp h with heq | hmem
      · cases heq
        exact ⟨[], ps, rfl, rfl⟩
      · exact hrest hmem
    | plain _ | declared _ _ | opened | closed => exact hrest h

/-- A piece inside the scope that it starts in. -/
def Piece.IsFlat : Piece → Prop
  | .opened | .closed => False
  | .plain _ | .declared _ _ | .used _ _ => True

/-- Pieces without scopes of their own add their declarations, the latest one first. -/
theorem reach_flat {ps : List Piece} (h : ∀ p ∈ ps, p.IsFlat) (scope : List (String × SymbolId))
    (rest : Frames) :
    ps.foldl reach (scope :: rest) =
      (((declarations ps).map Prod.swap).reverse ++ scope) :: rest := by
  induction ps generalizing scope with
  | nil => rfl
  | cons p ps ih =>
    have hps : ∀ q ∈ ps, q.IsFlat := fun q hq => h q (List.mem_cons_of_mem p hq)
    rw [List.foldl_cons]
    cases p with
    | opened | closed => exact (h _ List.mem_cons_self).elim
    | plain _ | used _ _ => exact ih hps scope
    | declared symbol name =>
      rw [declarations_declared]
      refine (ih hps ((name, symbol) :: scope)).trans ?_
      simp

/-- Pieces that declare nothing and have no scopes see what stands before them. -/
theorem sights_flat {ps : List Piece} (h : ∀ p ∈ ps, p.IsFlat) (hnone : declarations ps = [])
    (scopes : Frames) : sights scopes ps = (uses ps).map (scopes, ·) := by
  induction ps with
  | nil => rfl
  | cons p ps ih =>
    have hps : ∀ q ∈ ps, q.IsFlat := fun q hq => h q (List.mem_cons_of_mem p hq)
    cases p with
    | opened | closed => exact (h _ List.mem_cons_self).elim
    | plain _ => exact ih hps hnone
    | used id name => exact congrArg (_ :: ·) (ih hps hnone)
    | declared symbol name => cases hnone

theorem flat_listed {pss : List (List Piece)} (h : ∀ ps ∈ pss, ∀ p ∈ ps, p.IsFlat) :
    ∀ p ∈ listed pss, p.IsFlat := by
  fun_induction listed pss with
  | case1 => simp
  | case2 ps => exact h ps (by simp)
  | case3 ps rest _ ih =>
    intro p hp
    rcases List.mem_append.mp hp with hp | hp
    · exact h ps (by simp) p hp
    · rcases List.mem_cons.mp hp with rfl | hp
      · trivial
      · exact ih (fun qs hqs => h qs (by simp [hqs])) p hp

theorem flat_enlisted {pss : List (List Piece)} (h : ∀ ps ∈ pss, ∀ p ∈ ps, p.IsFlat) :
    ∀ p ∈ enlisted pss, p.IsFlat := by
  simpa [enlisted, Piece.IsFlat, or_imp, forall_and] using flat_listed h

mutual

theorem flat_expr (t : Table) : (e : Expr) → ∀ p ∈ exprPieces t e, p.IsFlat
  | .ident _ | .number _ _ | .string _ _ | .boolean _ _ | .null _ => by
    simp [exprPieces, use, Piece.IsFlat]
  | .binary left _ right _ => by
    simpa [exprPieces, Piece.IsFlat, or_imp, forall_and] using ⟨flat_expr t left, flat_expr t right⟩
  | .unary _ argument _ => by
    simpa [exprPieces, Piece.IsFlat, or_imp, forall_and] using flat_expr t argument
  | .condition test yes no _ => by
    simpa [exprPieces, Piece.IsFlat, or_imp, forall_and] using
      ⟨flat_expr t test, flat_expr t yes, flat_expr t no⟩
  | .call _ args _ => by
    simpa [exprPieces, use, Piece.IsFlat] using flat_enlisted (flat_exprs t args)
  | .assignment left _ right _ => by
    simpa [exprPieces, Piece.IsFlat, or_imp, forall_and] using ⟨flat_expr t left, flat_expr t right⟩
  | .parenthesized inner _ => by
    simpa [exprPieces, Piece.IsFlat, or_imp, forall_and] using flat_expr t inner

theorem flat_exprs (t : Table) : (es : List Expr) → ∀ ps ∈ exprsPieces t es, ∀ p ∈ ps, p.IsFlat
  | [] => by simp [exprsPieces]
  | e :: rest => by
    simpa [exprsPieces] using ⟨flat_expr t e, flat_exprs t rest⟩

end

theorem flat_params (t : Table) (h : Header) : ∀ ps ∈ paramsPieces t h, ∀ p ∈ ps, p.IsFlat := by
  intro ps hps
  unfold paramsPieces at hps
  rcases List.mem_append.mp hps with hps | hps
  · obtain ⟨b, -, rfl⟩ := List.mem_map.mp hps
    simp [declaring, Piece.IsFlat]
  · split at hps
    · simp [List.mem_singleton.mp hps, Piece.IsFlat]
    · cases hps

/-! ### Frames as they are written -/

/-- A declared name as C has it.  Modules are not declared in C. -/
def written? (t : Table) (entry : String × SymbolId) : Option (String × SymbolId) :=
  if (t.get? entry.2).any (·.kind = .mod) then none
  else (nameIn t entry.2).toOption.map (·, entry.2)

/-- What C has declared where the program has the given frames, the latest declaration of the
innermost frame first. -/
def inC (t : Table) (frames : Frames) : List (String × SymbolId) :=
  (frames.flatMap List.reverse).filterMap (written? t)

section
variable {t : Table}

theorem inC_cons_nil (frames : Frames) : inC t ([] :: frames) = inC t frames := rfl

theorem inC_append (entries frame : List (String × SymbolId)) (frames : Frames) :
    inC t ((frame ++ entries) :: frames) =
      (entries.filterMap (written? t)).reverse ++ inC t (frame :: frames) := by
  simp [inC, List.filterMap_append, List.filterMap_reverse]

theorem inC_add {frames : Frames} (h : frames ≠ []) (name : String) (symbol : SymbolId) :
    inC t (frames.add name symbol) = (written? t (name, symbol)).toList ++ inC t frames := by
  obtain ⟨frame, rest, rfl⟩ := List.exists_cons_of_ne_nil h
  rw [Frames.add, inC_append]
  cases hw : written? t (name, symbol) <;> simp [hw]

theorem written?_bare {symbol : SymbolId} {name : String} {kind : SymbolKind}
    {typing : Option Typing} {external : Bool} (h : t.Declares symbol name kind typing external)
    (hmod : kind ≠ .mod) (hbare : kind ≠ .func ∨ external = true) :
    written? t (name, symbol) = some (name, symbol) := by
  have hname := nameIn_declares h hbare
  obtain ⟨i, s, rfl, hs, rfl, rfl, -⟩ := h
  have hget : t.get? (.unit i) = some s := hs
  simp [written?, hget, hmod, hname, Except.toOption]

theorem written?_function (ht : t.Rooted) {scope symbol : SymbolId} {name : String}
    {typing : Option Typing} (h : t.Declares symbol name .func typing false)
    (hp : t.Sits scope .func symbol) :
    written? t (name, symbol) = some (mangled (enclosing t scope) name, symbol) := by
  have hname := (nameIn_function ht h hp).1
  obtain ⟨i, s, rfl, hs, rfl, hkind, -⟩ := h
  have hget : t.get? (.unit i) = some s := hs
  simp [written?, hget, hkind, hname, Except.toOption]

theorem written?_module {scope symbol : SymbolId} (h : t.Sits scope .mod symbol) (name : String) :
    written? t (name, symbol) = none := by
  obtain ⟨i, s, rfl, hs, hkind, -⟩ := h
  have hget : t.get? (.unit i) = some s := hs
  simp [written?, hget, hkind]

theorem written?_params {external : Bool} {f : Header} (h : f.Known t external) :
    (f.params.map fun b => (b.name, b.symbol)).filterMap (written? t) =
      f.params.map fun b => (b.name, b.symbol) := by
  rw [List.filterMap_map]
  refine (List.filterMap_congr fun b hb => ?_).trans (congrFun List.filterMap_eq_map' f.params)
  exact written?_bare (h.1 b hb).2 (by decide) (.inl (by decide))

/-! ### C along the program -/

/-- What C sees at a site: the name as it is written, in scopes that are the frames of the site as
they are written, and before them the name that is being declared. -/
def Seen (t : Table) (sight : Frames × Ident × String) (site : Site) : Prop :=
  sight.2 = withSpelling t site.id ∧
    sight.1.flatten = (site.own.map fun b => (b.name, b.symbol)).toList ++ inC t site.frames

/-- Pieces that lead from some frames to others, and whose names are at the given sites: what they
declare in the innermost scope of C is what is new in the frames. -/
def Follows (t : Table) (frames frames' : Frames) (ps : List Piece) (sites : List Site) : Prop :=
  frames ≠ [] → frames' ≠ [] ∧ ∀ scope rest, scope ++ rest.flatten = inC t frames →
    ∃ scope', ps.foldl reach (scope :: rest) = scope' :: rest ∧
      scope' ++ rest.flatten = inC t frames' ∧
      List.Forall₂ (Seen t) (sights (scope :: rest) ps) sites

theorem follows_nil (frames : Frames) : Follows t frames frames [] [] :=
  fun hne => ⟨hne, fun scope _ hscope => ⟨scope, rfl, hscope, .nil⟩⟩

theorem Follows.append {frames frames' frames'' : Frames} {ps qs : List Piece}
    {sites sites' : List Site} (h : Follows t frames frames' ps sites)
    (h' : Follows t frames' frames'' qs sites') :
    Follows t frames frames'' (ps ++ qs) (sites ++ sites') := by
  intro hne
  obtain ⟨hne', h⟩ := h hne
  obtain ⟨hne'', h'⟩ := h' hne'
  refine ⟨hne'', fun scope rest hscope => ?_⟩
  obtain ⟨scope', hreach, hscope', hseen⟩ := h scope rest hscope
  obtain ⟨scope'', hreach', hscope'', hseen'⟩ := h' scope' rest hscope'
  refine ⟨scope'', ?_, hscope'', ?_⟩
  · rw [List.foldl_append, hreach, hreach']
  · rw [sights_append, hreach]
    exact List.rel_append hseen hseen'

theorem follows_plain (text : String) (frames : Frames) :
    Follows t frames frames [.plain text] [] :=
  fun hne => ⟨hne, fun scope _ hscope => ⟨scope, rfl, hscope, .nil⟩⟩

theorem Follows.cons {frames frames' : Frames} {ps : List Piece} {sites : List Site}
    (h : Follows t frames frames' ps sites) (text : String) :
    Follows t frames frames' (.plain text :: ps) sites :=
  (follows_plain text frames).append h

theorem Follows.snoc {frames frames' : Frames} {ps : List Piece} {sites : List Site}
    (h : Follows t frames frames' ps sites) (text : String) :
    Follows t frames frames' (ps ++ [Piece.plain text]) sites := by
  simpa using h.append (follows_plain text frames')

/-- What stands between braces is gone behind them. -/
theorem Follows.enclosed {frames frames' : Frames} {ps : List Piece} {sites : List Site}
    (h : Follows t ([] :: frames) frames' ps sites) :
    Follows t frames frames (.opened :: (ps ++ [Piece.closed])) sites := by
  intro hne
  obtain ⟨-, h⟩ := h (by simp)
  refine ⟨hne, fun scope rest hscope => ⟨scope, ?_, hscope, ?_⟩⟩
  · obtain ⟨scope', hreach, -⟩ := h [] (scope :: rest) hscope
    rw [List.foldl_cons, reach, List.foldl_append, hreach]
    rfl
  · obtain ⟨scope', -, -, hseen⟩ := h [] (scope :: rest) hscope
    change List.Forall₂ _ (sights ([] :: scope :: rest) (ps ++ [Piece.closed])) sites
    rw [sights_append]
    simpa [sights] using hseen

/-- The names of an expression are seen in the scopes that it stands in. -/
theorem seen_expr {scopes frames : Frames} (own : Option Binding)
    (h : scopes.flatten = (own.map fun b => (b.name, b.symbol)).toList ++ inC t frames) (e : Expr) :
    List.Forall₂ (Seen t) (sights scopes (exprPieces t e)) (e.sites frames own) := by
  rw [sights_flat (flat_expr t e) (declarations_expr t e), uses_expr, List.map_map, Expr.sites,
    List.forall₂_map_left_iff, List.forall₂_map_right_iff]
  exact List.forall₂_same.mpr fun id _ => ⟨rfl, h⟩

theorem follows_expr (frames : Frames) (e : Expr) :
    Follows t frames frames (exprPieces t e) (e.sites frames none) := by
  refine fun hne => ⟨hne, fun scope rest hscope => ⟨scope, ?_, hscope, ?_⟩⟩
  · simp [reach_flat (flat_expr t e)]
  · exact seen_expr none (by simpa using hscope) e

theorem follows_declared {symbol : SymbolId} {name name' : String}
    (h : written? t (name, symbol) = some (name', symbol)) (frames : Frames) :
    Follows t frames (frames.add name symbol) [.declared symbol name'] [] := by
  intro hne
  refine ⟨?_, fun scope rest hscope => ⟨(name', symbol) :: scope, rfl, ?_, .nil⟩⟩
  · obtain ⟨frame, rest, rfl⟩ := List.exists_cons_of_ne_nil hne
    simp [Frames.add]
  · rw [inC_add hne, h, List.cons_append, hscope]
    rfl

/-- A declarator declares its name. -/
theorem follows_declaring (typing : Typing) {symbol : SymbolId} {name name' : String}
    (h : written? t (name, symbol) = some (name', symbol)) (frames : Frames) :
    Follows t frames (frames.add name symbol) (declaring t typing symbol name') [] :=
  ((follows_declared h frames).snoc _).cons _

/-- **In an initial value C already knows the name that is being declared**, which the program does
not. -/
theorem follows_declare {b : Binding} {external : Bool} (h : b.Known t .var external)
    (frames : Frames) (initial : Option Expr) :
    Follows t frames (frames.add b.name b.symbol)
      (declaring t b.typing b.symbol b.name ++ initialPieces t initial)
      (initial.toList.flatMap (·.sites frames (some b))) := by
  have hdeclares := written?_bare h.2 (by decide) (.inl (by decide))
  cases initial with
  | none => simpa [initialPieces] using follows_declaring b.typing hdeclares frames
  | some e =>
    intro hne
    obtain ⟨hne', hfollows⟩ := follows_declaring b.typing hdeclares frames hne
    refine ⟨hne', fun scope rest hscope => ?_⟩
    obtain ⟨scope', hreach, hscope', -⟩ := hfollows scope rest hscope
    refine ⟨scope', ?_, hscope', ?_⟩
    · rw [List.foldl_append, hreach]
      simp [initialPieces, reach, reach_flat (flat_expr t e)]
    · rw [sights_append, hreach]
      have hown : (scope' :: rest).flatten =
          ((some b).map fun b => (b.name, b.symbol)).toList ++ inC t frames := by
        rw [List.flatten_cons, hscope', inC_add hne, hdeclares]
        rfl
      simpa [sights, declaring, initialPieces, reach] using seen_expr (some b) hown e

/-- The head of a function declares the function, and inside of it the parameters. -/
theorem follows_function {f : Header} {external : Bool} (hk : f.Known t external) {name : String}
    (h : written? t (f.name, f.symbol) = some (name, f.symbol)) (frames frames' : Frames)
    {ps : List Piece} {sites : List Site} (hps : Follows t (f.frames frames) frames' ps sites) :
    Follows t frames (frames.add f.name f.symbol) (headPieces t name f ++ (ps ++ [Piece.closed]))
      sites := by
  have hname := (follows_declared h frames).cons (frame t (returnsIn t f.symbol)).1
  have hparams : Follows t ([] :: frames.add f.name f.symbol) (f.frames frames)
      (enlisted (paramsPieces t f)) [] := by
    refine fun _ => ⟨by simp [Header.frames], fun scope rest hscope => ?_⟩
    have hflat := flat_enlisted (flat_params t f)
    refine ⟨_, reach_flat hflat scope rest, ?_, ?_⟩
    · have hinC := inC_append (t := t) (f.params.map fun b => (b.name, b.symbol)) []
        (frames.add f.name f.symbol)
      rw [written?_params hk, List.nil_append, ← hscope] at hinC
      rw [Header.frames, hinC, declarations_params, List.map_map, List.append_assoc]
      rfl
    · have hnone := map_snd_sights (scope :: rest) (enlisted (paramsPieces t f))
      rw [uses_params, List.map_eq_nil_iff] at hnone
      rw [hnone]
      exact .nil
  have hinner := (hparams.append (hps.cons (frame t (returnsIn t f.symbol)).2)).enclosed
  simpa [headPieces] using hname.append hinner

mutual

theorem follows_stmt (ht : t.Rooted) {scope : SymbolId} (frames : Frames) : {s : Stmt} → s.Known t →
    s.Placed t scope →
    Follows t frames (s.framesBehind frames) (stmtPieces t (enclosing t scope) s) (s.sites frames)
  | .empty _, _, _ => follows_nil frames
  | .mod name symbol _, _, hp => by
    -- A module has a frame of its own, but neither a name nor a scope in C.
    refine fun hne => ⟨by simp [Stmt.framesBehind], fun scope rest hscope => ?_⟩
    refine ⟨scope, rfl, ?_, .nil⟩
    rw [Stmt.framesBehind, inC_cons_nil, inC_add hne, written?_module hp]
    exact hscope
  | .declare b initial _, hk, _ => (follows_declare hk.1 frames initial).snoc ";"
  | .externalVariable b _, hk, _ => by
    have hdeclares := written?_bare hk.2 (by decide) (.inl (by decide))
    exact ((follows_declaring _ hdeclares frames).snoc _).cons _
  | .externalFunction f _ _, hk, _ => by
    obtain ⟨returns, -, hd⟩ := hk.2
    have hwritten := written?_bare hd (by decide) (.inr rfl)
    have hhead := follows_function hk hwritten frames _ (follows_nil (f.frames frames))
    simpa [Stmt.framesBehind, stmtPieces, Stmt.sites] using (hhead.snoc ";").cons "extern "
  | .whileLoop test body _, hk, hp =>
    ((follows_expr frames test).append ((follows_block ht frames hk.2 hp).cons _)).cons _
  | .ifThen test yes _, hk, hp =>
    ((follows_expr frames test).append ((follows_block ht frames hk.2 hp).cons _)).cons _
  | .ifElse test yes no _, hk, hp => by
    have hyes := follows_block ht frames hk.2.1 hp.1
    have hno := (follows_block ht frames hk.2.2 hp.2).cons " else "
    exact ((follows_expr frames test).append ((hyes.append hno).cons _)).cons _
  | .returned value _, _, _ => ((follows_expr frames value).snoc _).cons _
  | .typeAlias name _ symbol _, hk, _ => by
    obtain ⟨typing, -, hd⟩ := hk
    have hdeclares := written?_bare hd (by decide) (.inl (by decide))
    exact ((follows_declaring _ hdeclares frames).snoc _).cons _
  | .func f (.mk body _ _) _, hk, hp => by
    obtain ⟨returns, -, hd⟩ := hk.1.2
    have hwritten := written?_function ht hd hp.1.1
    obtain ⟨frames', hbody⟩ := follows_stmts ht (f.frames frames) hk.2.2 hp.2.2
    rw [enclosing_sits ht hp.1.1 (by decide)] at hbody
    have hfunction := follows_function hk.1 hwritten frames frames'
      (((hbody.snoc "\x7d").cons "\x7b").cons " ")
    simpa [Stmt.framesBehind, stmtPieces, blockPieces, Stmt.sites] using hfunction
  | .expr value _, _, _ => (follows_expr frames value).snoc _

theorem follows_block (ht : t.Rooted) {scope : SymbolId} (frames : Frames) : {b : Block} →
    b.Known t → b.Placed t scope →
    Follows t frames frames (bracedPieces (blockPieces t (enclosing t scope) b)) (b.sites frames)
  | .mk stmts _ _, hk, hp => by
    obtain ⟨frames', hbody⟩ := follows_stmts ht ([] :: frames) hk hp.2
    rw [enclosing_sits ht hp.1 (by decide)] at hbody
    simpa [bracedPieces, blockPieces, Block.sites] using
      ((hbody.snoc "\x7d").cons "\x7b").enclosed

theorem follows_stmts (ht : t.Rooted) {scope : SymbolId} (frames : Frames) : {ss : List Stmt} →
    Stmt.AllKnown t ss → Stmt.AllPlaced t scope ss →
    ∃ frames', Follows t frames frames' (stmtsPieces t (enclosing t scope) ss)
      (Stmt.allSites frames ss)
  | [], _, _ => ⟨frames, follows_nil frames⟩
  | s :: rest, hk, hp => by
    obtain ⟨frames', hrest⟩ := follows_stmts ht (s.framesBehind frames) hk.2 hp.2
    rw [← modulesBehind_enclosing ht hk.1 hp.1] at hrest
    exact ⟨frames', (follows_stmt ht frames hk.1 hp.1).append hrest⟩

end

/-! ### Names in frames -/

/-- Frames with each name once, as the table has it. -/
structure Regular (t : Table) (frames : Frames) : Prop where
  distinct : ∀ frame ∈ frames, (frame.map Prod.fst).Nodup
  named : ∀ frame ∈ frames, ∀ entry ∈ frame, ∃ s, t.get? entry.2 = some s ∧ s.name = entry.1

/-- In a list with each name once, it does not matter which end a name is looked for from. -/
theorem lookup_reverse {frame : List (String × SymbolId)} (h : (frame.map Prod.fst).Nodup)
    (name : String) : frame.reverse.lookup name = frame.lookup name := by
  induction frame with
  | nil => rfl
  | cons entry frame ih =>
    obtain ⟨key, symbol⟩ := entry
    rw [List.map_cons, List.nodup_cons] at h
    rw [List.reverse_cons, List.lookup_append, ih h.2, List.lookup_cons, List.lookup_cons]
    cases hkey : name == key with
    | false => simp
    | true =>
      obtain rfl : name = key := by simpa using hkey
      have hnone : frame.lookup name = none := by
        rw [List.lookup_eq_none_iff]
        intro entry hentry
        have hne : name ≠ entry.1 := by
          rintro rfl
          exact h.1 (List.mem_map.mpr ⟨entry, hentry, rfl⟩)
        simpa using hne
      simp [hnone]

theorem find_eq_lookup {frames : Frames} (h : ∀ frame ∈ frames, (frame.map Prod.fst).Nodup)
    (name : String) : frames.find name = (frames.flatMap List.reverse).lookup name := by
  induction frames with
  | nil => rfl
  | cons frame frames ih =>
    have hrest := ih fun x hx => h x (List.mem_cons_of_mem frame hx)
    unfold Frames.find at hrest ⊢
    rw [List.findSome?_cons, List.flatMap_cons, List.lookup_append,
      lookup_reverse (h frame List.mem_cons_self), ← hrest]
    cases frame.lookup name <;> rfl

/-- The scopes of C have the latest declaration first. -/
theorem find_eq_lookup_flatten (scopes : Frames) (name : String) :
    scopes.find name = scopes.flatten.lookup name := by
  induction scopes with
  | nil => rfl
  | cons scope scopes ih =>
    unfold Frames.find at ih ⊢
    rw [List.findSome?_cons, List.flatten_cons, List.lookup_append, ← ih]
    cases scope.lookup name <;> rfl

/-- A function of the program under another name, which is written like the given one. -/
def Impostor (t : Table) (name : String) (symbol : SymbolId) : Prop :=
  ∃ s, t.get? symbol = some s ∧ s.kind = .func ∧ s.isExternal = false ∧ s.name ≠ name ∧
    mangledSymbol t symbol = .ok name

/-- What is written like a name that it does not have is a function. -/
theorem impostor_of_written {name key : String} {symbol symbol' : SymbolId} {s : Symbol}
    (hs : t.get? symbol = some s) (hname : s.name = key) (hne : key ≠ name)
    (h : written? t (key, symbol) = some (name, symbol')) :
    symbol' = symbol ∧ Impostor t name symbol := by
  have hget : t.get symbol = .ok s := by simp [Table.get, hs]
  unfold written? nameIn at h
  rw [hget] at h
  simp only [bind, Except.bind] at h
  split at h
  · cases h
  · split at h
    · rename_i hfunc
      obtain ⟨name', hname', heq⟩ := Option.map_eq_some_iff.mp h
      obtain ⟨rfl, rfl⟩ := Prod.mk.inj heq
      refine ⟨rfl, s, hs, hfunc.1, hfunc.2, by rwa [hname], ?_⟩
      cases hm : mangledSymbol t symbol with
      | error e => simp [hm, Except.toOption] at hname'
      | ok x =>
        rw [hm] at hname'
        exact congrArg Except.ok (Option.some.inj hname')
    · obtain ⟨name', hname', heq⟩ := Option.map_eq_some_iff.mp h
      obtain ⟨rfl, rfl⟩ := Prod.mk.inj heq
      exact absurd (hname.symm.trans (Option.some.inj hname')) hne

/-- **What the program finds in its frames is found in C**, unless a function is written like it. -/
theorem lookup_written {entries : List (String × SymbolId)}
    (hnamed : ∀ entry ∈ entries, ∃ s, t.get? entry.2 = some s ∧ s.name = entry.1)
    {name : String} {symbol : SymbolId} (h : entries.lookup name = some symbol)
    (hbare : written? t (name, symbol) = some (name, symbol)) :
    (entries.filterMap (written? t)).lookup name = some symbol ∨
      ∃ f, (entries.filterMap (written? t)).lookup name = some f ∧ Impostor t name f := by
  induction entries with
  | nil => cases h
  | cons entry entries ih =>
    obtain ⟨key, symbol'⟩ := entry
    have hrest := ih fun x hx => hnamed x (List.mem_cons_of_mem _ hx)
    rw [List.lookup_cons] at h
    by_cases hkey : name = key
    · subst hkey
      obtain rfl : symbol' = symbol := by simpa using h
      left
      simp [hbare]
    · rw [show (name == key) = false by simpa using hkey] at h
      cases hw : written? t (key, symbol') with
      | none =>
        rw [List.filterMap_cons_none hw]
        exact hrest h
      | some found =>
        obtain ⟨name', symbol''⟩ := found
        rw [List.filterMap_cons_some hw, List.lookup_cons]
        by_cases hname : name = name'
        · subst hname
          obtain ⟨s, hs, hsname⟩ := hnamed _ List.mem_cons_self
          obtain ⟨rfl, himpostor⟩ := impostor_of_written hs hsname (fun heq => hkey heq.symm) hw
          exact .inr ⟨symbol'', by simp, himpostor⟩
        · rw [show (name == name') = false by simpa using hname]
          exact hrest h

/-! ### What holds at every site -/

/-- A site whose name means what the frames say, which is not what is being declared. -/
structure Sound (t : Table) (site : Site) : Prop where
  means : site.frames.Means site.id.path site.id.symbol
  regular : Regular t site.frames
  other : ∀ b ∈ site.own, site.id.symbol ≠ b.symbol

theorem Regular.add {frames : Frames} (h : Regular t frames) {name : String} {symbol : SymbolId}
    (hnew : frames.declares name = false) {s : Symbol} (hs : t.get? symbol = some s)
    (hname : s.name = name) : Regular t (frames.add name symbol) := by
  cases frames with
  | nil => exact h
  | cons frame frames =>
    have hfresh : name ∉ frame.map Prod.fst := by
      intro hmem
      obtain ⟨entry, hentry, rfl⟩ := List.mem_map.mp hmem
      have hnone : frame.lookup entry.1 = none := by simpa [Frames.declares] using hnew
      simpa using List.lookup_eq_none_iff.mp hnone entry hentry
    refine ⟨fun x hx => ?_, fun x hx entry hentry => ?_⟩
    · rcases List.mem_cons.mp hx with rfl | hx
      · rw [List.map_append, List.nodup_append]
        refine ⟨h.distinct frame List.mem_cons_self, by simp, ?_⟩
        rintro a ha b hb rfl
        obtain rfl : a = name := by simpa using hb
        exact hfresh ha
      · exact h.distinct x (List.mem_cons_of_mem frame hx)
    · rcases List.mem_cons.mp hx with rfl | hx
      · rcases List.mem_append.mp hentry with hentry | hentry
        · exact h.named frame List.mem_cons_self entry hentry
        · rw [List.mem_singleton.mp hentry]
          exact ⟨s, hs, hname⟩
      · exact h.named x (List.mem_cons_of_mem frame hx) entry hentry

theorem Regular.cons_nil {frames : Frames} (h : Regular t frames) : Regular t ([] :: frames) :=
  ⟨by simpa using h.distinct, by simpa using h.named⟩

theorem Regular.declares {frames : Frames} (h : Regular t frames) {symbol : SymbolId}
    {name : String} {kind : SymbolKind} {typing : Option Typing} {external : Bool}
    (hd : t.Declares symbol name kind typing external) (hnew : frames.declares name = false) :
    Regular t (frames.add name symbol) := by
  obtain ⟨i, s, rfl, hs, hname, -⟩ := hd
  exact h.add hnew hs hname

theorem Regular.after {frames : Frames} (h : Regular t frames) {bs : List Binding}
    {kind : SymbolKind} {external : Bool} (hk : ∀ b ∈ bs, b.Known t kind external)
    (hs : Binding.AllScoped frames bs) : Regular t (framesAfter frames bs) := by
  induction bs generalizing frames with
  | nil => exact h
  | cons b bs ih =>
    have hb := h.declares (hk b List.mem_cons_self).2 hs.1
    exact ih hb (fun x hx => hk x (List.mem_cons_of_mem b hx)) hs.2.2

theorem Regular.function {frames : Frames} (h : Regular t frames) {f : Header} {external : Bool}
    (hk : f.Known t external) (hs : f.Scoped t frames) :
    Regular t (frames.add f.name f.symbol) ∧ Regular t (f.frames frames) := by
  obtain ⟨returns, -, hd⟩ := hk.2
  have hbehind := h.declares hd hs.1
  have hparams := h.cons_nil.after hk.1 hs.2.1
  rw [Binder.framesAfter_cons, List.nil_append] at hparams
  refine ⟨hbehind, fun x hx => ?_, fun x hx => ?_⟩
  · rcases List.mem_cons.mp hx with rfl | hx
    · exact hparams.distinct _ List.mem_cons_self
    · exact hbehind.distinct x hx
  · rcases List.mem_cons.mp hx with rfl | hx
    · exact hparams.named _ List.mem_cons_self
    · exact hbehind.named x hx

theorem Regular.behind {frames : Frames} (h : Regular t frames) {s : Stmt} (hk : s.Known t)
    (hs : s.Scoped t frames) : Regular t (s.framesBehind frames) := by
  cases s with
  | mod name symbol span => exact (h.declares hk hs).cons_nil
  | declare b initial span => exact h.declares hk.1.2 hs.2.1
  | externalVariable b span => exact h.declares hk.2 hs.1
  | externalFunction f declared span => exact (h.function hk hs).1
  | typeAlias name type symbol span =>
    obtain ⟨typing, -, hd⟩ := hk
    exact h.declares hd hs.1
  | func f body span =>
    obtain ⟨stmts, inner, span⟩ := body
    exact (h.function hk.1 hs.1).1
  | empty _ | whileLoop _ _ _ | ifThen _ _ _ | ifElse _ _ _ _ | returned _ _ | expr _ _ => exact h

theorem sound_expr {frames : Frames} (hr : Regular t frames) {e : Expr} (hs : e.Scoped frames)
    (own : Option Binding) (hown : ∀ b ∈ own, ∀ id ∈ e.idents, id.symbol ≠ b.symbol) :
    ∀ site ∈ e.sites frames own, Sound t site := by
  intro site hsite
  obtain ⟨id, hid, rfl⟩ := List.mem_map.mp hsite
  exact ⟨hs id hid, hr, fun b hb => hown b hb id hid⟩

mutual

theorem sound_stmt {frames : Frames} (hr : Regular t frames) {scope : SymbolId} : {s : Stmt} →
    s.Known t → s.Placed t scope → s.Scoped t frames → ∀ site ∈ s.sites frames, Sound t site
  | .empty _, _, _, _ | .mod _ _ _, _, _, _ | .externalVariable _ _, _, _, _
  | .externalFunction _ _ _, _, _, _ | .typeAlias _ _ _ _, _, _, _ => by simp [Stmt.sites]
  | .declare b initial _, _, hp, hs => by
    intro site hsite
    obtain ⟨e, he, hsite⟩ := List.mem_flatMap.mp hsite
    have he : e ∈ initial := by simpa using he
    refine sound_expr hr (hs.1 e he) (some b) ?_ site hsite
    simpa using hp.2 e he
  | .whileLoop _ _ _, hk, hp, hs => List.forall_mem_append.mpr
    ⟨sound_expr hr hs.1 none (by simp), sound_block hr hk.2 hp hs.2⟩
  | .ifThen _ _ _, hk, hp, hs => List.forall_mem_append.mpr
    ⟨sound_expr hr hs.1 none (by simp), sound_block hr hk.2 hp hs.2⟩
  | .ifElse _ _ _ _, hk, hp, hs => List.forall_mem_append.mpr
    ⟨sound_expr hr hs.1 none (by simp), List.forall_mem_append.mpr
      ⟨sound_block hr hk.2.1 hp.1 hs.2.1, sound_block hr hk.2.2 hp.2 hs.2.2⟩⟩
  | .returned _ _, _, _, hs | .expr _ _, _, _, hs => sound_expr hr hs none (by simp)
  | .func _ (.mk _ _ _) _, hk, hp, hs =>
    sound_stmts (hr.function hk.1 hs.1).2 hk.2.2 hp.2.2 hs.2

theorem sound_block {frames : Frames} (hr : Regular t frames) {scope : SymbolId} : {b : Block} →
    b.Known t → b.Placed t scope → b.Scoped t frames → ∀ site ∈ b.sites frames, Sound t site
  | .mk _ _ _, hk, hp, hs => sound_stmts hr.cons_nil hk hp.2 hs

/-- **Every site of a program is sound.** -/
theorem sound_stmts {frames : Frames} (hr : Regular t frames) {scope : SymbolId} :
    {ss : List Stmt} → Stmt.AllKnown t ss → Stmt.AllPlaced t scope ss →
    Stmt.AllScoped t frames ss → ∀ site ∈ Stmt.allSites frames ss, Sound t site
  | [], _, _, _ => by simp [Stmt.allSites]
  | _ :: _, hk, hp, hs => List.forall_mem_append.mpr
    ⟨sound_stmt hr hk.1 hp.1 hs.1, sound_stmts (hr.behind hk.1 hs.1) hk.2 hp.2 hs.2⟩

end

mutual

/-- The names of a proper expression are paths. -/
theorem isPath_of_proper : {e : Expr} → e.erase.Proper → ∀ id ∈ e.idents, IsPath id.path
  | .ident _, h => by simpa [Expr.idents, Expr.erase, Surface.Expr.Proper] using h
  | .binary _ _ _ _, h => List.forall_mem_append.mpr ⟨isPath_of_proper h.1, isPath_of_proper h.2⟩
  | .unary _ argument _, h => isPath_of_proper (e := argument) h
  | .condition _ _ _ _, h => List.forall_mem_append.mpr ⟨isPath_of_proper h.1,
      List.forall_mem_append.mpr ⟨isPath_of_proper h.2.1, isPath_of_proper h.2.2⟩⟩
  | .call _ _ _, h => List.forall_mem_cons.mpr ⟨h.1, isPath_of_allProper h.2⟩
  | .assignment _ _ _ _, h =>
    List.forall_mem_append.mpr ⟨isPath_of_proper h.1, isPath_of_proper h.2.2⟩
  | .parenthesized inner _, h => isPath_of_proper (e := inner) h
  | .number _ _, _ | .string _ _, _ | .boolean _ _, _ | .null _, _ => by simp [Expr.idents]

theorem isPath_of_allProper : {es : List Expr} → Surface.Expr.AllProper (Expr.eraseAll es) →
    ∀ id ∈ Expr.allIdents es, IsPath id.path
  | [], _ => by simp [Expr.allIdents]
  | _ :: _, h => List.forall_mem_append.mpr ⟨isPath_of_proper h.1, isPath_of_allProper h.2⟩

end

/-- What C finds at a site: what is being declared, if it has the name, and else what the frames as
they are written have. -/
theorem Seen.find {scopes : Frames} {id : Ident} {name : String} {site : Site}
    (h : Seen t (scopes, id, name) site) :
    scopes.find name = (if site.own.any (·.name = name) then site.own.map (·.symbol)
      else (inC t site.frames).lookup name) := by
  have hflat : scopes.flatten = _ := h.2
  rw [find_eq_lookup_flatten, hflat]
  cases site.own with
  | none => simp
  | some b =>
    by_cases hname : b.name = name
    · simp [hname]
    · have hother : (name == b.name) = false := by simpa using fun h => hname h.symm
      simp [hname, List.lookup_cons, hother]

/-- A plain name of a variable or a parameter is found in the frames, and in what is written of them
unless a function stands in its way. -/
theorem Sound.plain {site : Site} (h : Sound t site) {name : String}
    (hpath : site.id.path = [name]) {s : Symbol} (hs : t.get? site.id.symbol = some s)
    (hkind : s.kind = .var ∨ s.kind = .param) :
    site.frames.find name = some site.id.symbol ∧
      ((inC t site.frames).lookup name = some site.id.symbol ∨
        ∃ f, (inC t site.frames).lookup name = some f ∧ Impostor t name f) := by
  have hfind : site.frames.find name = some site.id.symbol := by
    have hresolve := h.means name hpath
    unfold Frames.resolve at hresolve
    cases hfind : site.frames.find name with
    | some symbol => simpa [hfind] using hresolve
    | none =>
      -- A built-in type is neither a variable nor a parameter.
      rw [hfind, Option.none_or] at hresolve
      obtain ⟨i, -, hi⟩ := Option.map_eq_some_iff.mp hresolve
      rw [← hi] at hs
      obtain ⟨name', -, rfl⟩ := Option.map_eq_some_iff.mp hs
      rcases hkind with hk | hk <;> cases hk
  refine ⟨hfind, ?_⟩
  rw [find_eq_lookup h.regular.distinct] at hfind
  have hnamed : ∀ entry ∈ site.frames.flatMap List.reverse,
      ∃ s, t.get? entry.2 = some s ∧ s.name = entry.1 := by
    intro entry hentry
    obtain ⟨frame, hframe, hentry⟩ := List.mem_flatMap.mp hentry
    exact h.regular.named frame hframe entry (List.mem_reverse.mp hentry)
  refine lookup_written hnamed hfind ?_
  obtain ⟨before, behind, hsplit, -⟩ := List.lookup_eq_some_iff.mp hfind
  obtain ⟨s', hs', hname⟩ := hnamed (name, site.id.symbol) (by rw [hsplit]; simp)
  obtain rfl : s' = s := Option.some.inj (hs'.symm.trans hs)
  have hget : t.get site.id.symbol = .ok s' := by simp [Table.get, hs]
  have hmod : s'.kind ≠ .mod := by rcases hkind with hk | hk <;> simp [hk]
  have hfunc : s'.kind ≠ .func := by rcases hkind with hk | hk <;> simp [hk]
  have hnameIn : nameIn t site.id.symbol = .ok name := by
    unfold nameIn
    rw [hget]
    simp only [bind, Except.bind, if_neg (fun h : s'.kind = .func ∧ _ => hfunc h.1)]
    exact congrArg Except.ok hname
  simp [written?, hs, hmod, hnameIn, Except.toOption]

end

/-- The site of a program that a name of its text is at. -/
theorem exists_site {source : String} {u : CompilationUnit} (h : analyze source = .ok u)
    {before behind : List Piece} {id : Ident} {name : String}
    (hpieces : stmtsPieces u.table [] u.sourceFile.stmts = before ++ .used id name :: behind) :
    ∃ site, (Stmt.allSites [[]] u.sourceFile.stmts)[(uses before).length]? = some site ∧
      Seen u.table (scopesBehind before, id, name) site ∧ Sound u.table site ∧
      IsPath site.id.path := by
  obtain ⟨hcheck, hbind⟩ := analyze_eq_ok h
  obtain ⟨ctx, htable, hbinds⟩ := analyze_binds h
  have ht := hbinds.reaches.wellFormed.table.toRooted
  have hknown := hbinds.known
  have hplaced := hbinds.placed
  rw [← htable] at ht hknown hplaced
  have hscoped := bindTree_tracks hcheck
  rw [hbind] at hscoped
  -- The names of the text and the sites of the program, side by side.
  obtain ⟨frames', hfollows⟩ := follows_stmts ht [[]] hknown hplaced
  rw [show Context.initial.current = Table.root from rfl, enclosing_root ht] at hfollows
  obtain ⟨-, hfollows⟩ := hfollows (by simp)
  obtain ⟨-, -, -, hseen⟩ := hfollows [] [] rfl
  have hsight := sights_at before behind id name
  rw [← hpieces] at hsight
  obtain ⟨site, hsite, hsees⟩ : ∃ site,
      (Stmt.allSites [[]] u.sourceFile.stmts)[(uses before).length]? = some site ∧
        Seen u.table (scopesBehind before, id, name) site := by
    obtain ⟨hlt, hget⟩ := List.getElem?_eq_some_iff.mp hsight
    have hlt' := hseen.length_eq ▸ hlt
    have hsees := hseen.get hlt hlt'
    rw [List.get_eq_getElem, hget] at hsees
    exact ⟨_, List.getElem?_eq_getElem hlt', hsees⟩
  refine ⟨site, hsite, hsees, ?_, ?_⟩
  · have hroot : Regular u.table [[]] := ⟨by simp, by simp⟩
    exact sound_stmts hroot hknown hplaced hscoped.1 site (List.mem_of_getElem? hsite)
  · have hmem : (id, name) ∈ uses (stmtsPieces u.table [] u.sourceFile.stmts) :=
      mem_uses.mpr (by rw [hpieces]; simp)
    rw [uses_stmts] at hmem
    obtain ⟨id', hid', heq⟩ := List.mem_map.mp hmem
    obtain ⟨e, he, hid'⟩ := List.mem_flatMap.mp hid'
    obtain rfl : id' = site.id := (congrArg Prod.fst heq).trans (congrArg Prod.fst hsees.1)
    exact isPath_of_proper (hbinds.exprs e he) site.id hid'

end Code

open BlockC.Bound Code

/-- **When C finds what a name means.**  Take any name of a variable or a parameter in the C text of
a program that can be analyzed, and the site of the program that it stands for.  Looked up by the
scopes of C, the name leads to the declaration of its symbol just if it is not part of the initial
value of a declaration of that name, and leads to that symbol in the frames of the site as they are
written.  If it is a plain name, the frames have that symbol for it, and all that can keep C from
finding it there is a function of another name whose mangled name is the same. -/
theorem c_finds_declaration_iff {source : String} {u : CompilationUnit}
    (h : analyze source = .ok u) {before behind : List Piece} {id : Ident} {name : String}
    (hpieces : stmtsPieces u.table [] u.sourceFile.stmts = before ++ .used id name :: behind)
    {s : Symbol} (hs : u.table.get? id.symbol = some s) (hkind : s.kind = .var ∨ s.kind = .param) :
    ∃ site, (Stmt.allSites [[]] u.sourceFile.stmts)[(uses before).length]? = some site ∧
      site.id = id ∧
      ((scopesBehind before).find name = some id.symbol ↔
        (∀ b ∈ site.own, b.name ≠ name) ∧
          (inC u.table site.frames).lookup name = some id.symbol) ∧
      (id.isDotted = false →
        site.frames.find name = some id.symbol ∧
        ((scopesBehind before).find name = some id.symbol ↔
          (∀ b ∈ site.own, b.name ≠ name) ∧
            ∀ f, (inC u.table site.frames).lookup name = some f → ¬Impostor u.table name f)) := by
  obtain ⟨site, hsite, hseen, hsound, hpath⟩ := exists_site h hpieces
  have hid : id = site.id := congrArg Prod.fst hseen.1
  have hname : name = (spelled u.table site.id).toOption.getD "" := congrArg Prod.snd hseen.1
  subst hid
  have hiff : (scopesBehind before).find name = some site.id.symbol ↔
      (∀ b ∈ site.own, b.name ≠ name) ∧
        (inC u.table site.frames).lookup name = some site.id.symbol := by
    rw [hseen.find]
    cases hown : site.own with
    | none => simp
    | some b =>
      by_cases hb : b.name = name
      · -- What is being declared hides the symbol, which is another one.
        have hother := hsound.other b hown
        simpa [hb] using fun heq => hother heq.symm
      · simp [hb]
  refine ⟨site, hsite, rfl, hiff, fun hplain => ?_⟩
  -- A plain name is written as it is.
  obtain ⟨x, hx⟩ : ∃ x, site.id.path = [x] := by
    obtain ⟨x, rest, hxs⟩ := List.exists_cons_of_ne_nil hpath.1
    have hlength : site.id.path.length ≤ 1 := by simpa [Ident.isDotted] using hplain
    rw [hxs, List.length_cons] at hlength
    have hnil : rest = [] := List.eq_nil_of_length_eq_zero (by omega)
    exact ⟨x, by rw [hxs, hnil]⟩
  have hxname : name = x := by
    rw [hname, spelled, if_neg (by simp [hplain])]
    simp [Ident.dotted, hx, Text.joined, Except.toOption]
  subst hxname
  obtain ⟨hfind, hwritten⟩ := hsound.plain hx hs hkind
  refine ⟨hfind, hiff.trans (and_congr_right fun _ => ⟨?_, ?_⟩)⟩
  · rintro hfound f hf ⟨x, hx, hfunc, -⟩
    obtain rfl : site.id.symbol = f := Option.some.inj (hfound.symm.trans hf)
    obtain rfl : s = x := Option.some.inj (hs.symm.trans hx)
    rw [hfunc] at hkind
    rcases hkind with hk | hk <;> cases hk
  · intro hnone
    rcases hwritten with hfound | ⟨f, hf, himpostor⟩
    · exact hfound
    · exact absurd himpostor (hnone f hf)

/-- A parameter that has the name of a variable, and a variable in a block that has it again. -/
theorem c_finds_inner_declaration :
    ∃ u before behind id site, analyze "let x: i32 = 1; fn f(x: bool) -> i32 do
        while x do let x: i32 = 2; return x; end end" = .ok u ∧
      stmtsPieces u.table [] u.sourceFile.stmts = before ++ .used id "x" :: behind ∧
      (Stmt.allSites [[]] u.sourceFile.stmts)[(uses before).length]? = some site ∧
      site.frames.find "x" = some id.symbol ∧ (scopesBehind before).find "x" = some id.symbol := by
  have hlast : (analyze "let x: i32 = 1; fn f(x: bool) -> i32 do
        while x do let x: i32 = 2; return x; end end").toOption.map
      (fun u => (sights [[]] (stmtsPieces u.table [] u.sourceFile.stmts)).getLast?.map fun sight =>
        (sight.2.2, sight.2.1.isDotted, (u.table.get? sight.2.1.symbol).map (·.kind),
          decide (sight.1.find "x" = some sight.2.1.symbol))) =
      some (some ("x", false, some .var, true)) := by decide +kernel
  obtain ⟨u, hu, hsight⟩ := exists_ok_of_map hlast
  obtain ⟨⟨scopes, id, name⟩, hmem, heq⟩ := Option.map_eq_some_iff.mp hsight
  obtain ⟨rfl, hrest⟩ := Prod.mk.inj heq
  obtain ⟨hdotted, hrest⟩ := Prod.mk.inj hrest
  obtain ⟨hkind, hfound⟩ := Prod.mk.inj hrest
  obtain ⟨s, hs, hvar⟩ := Option.map_eq_some_iff.mp hkind
  obtain ⟨before, behind, hpieces, rfl⟩ := exists_of_mem_sights (List.mem_of_getLast? hmem)
  obtain ⟨site, hsite, -, -, hplain⟩ := c_finds_declaration_iff hu hpieces hs (.inl hvar)
  exact ⟨u, before, behind, id, site, hu, hpieces, hsite, (hplain hdotted).1,
    of_decide_eq_true hfound⟩

/-- Some name of a variable in the C text of a program leads to something else in C. -/
def Mistaken (source name : String) : Prop :=
  ∃ u before behind id s, analyze source = .ok u ∧
    stmtsPieces u.table [] u.sourceFile.stmts = before ++ .used id name :: behind ∧
    u.table.get? id.symbol = some s ∧ s.kind = .var ∧
    (scopesBehind before).find name ≠ some id.symbol

theorem mistaken_of_sights {source name : String}
    (h : (analyze source).toOption.map (fun u =>
      (sights [[]] (stmtsPieces u.table [] u.sourceFile.stmts)).any fun sight =>
        sight.2.2 = name ∧ (u.table.get? sight.2.1.symbol).map (·.kind) = some .var ∧
          sight.1.find name ≠ some sight.2.1.symbol) = some true) : Mistaken source name := by
  obtain ⟨u, hu, hany⟩ := exists_ok_of_map h
  obtain ⟨⟨scopes, id, name'⟩, hmem, hsight⟩ := List.any_eq_true.mp hany
  obtain ⟨rfl, hkind, hfind⟩ := of_decide_eq_true hsight
  obtain ⟨s, hs, hvar⟩ := Option.map_eq_some_iff.mp hkind
  obtain ⟨before, behind, hpieces, rfl⟩ := exists_of_mem_sights hmem
  exact ⟨u, before, behind, id, s, hu, hpieces, hs, hvar, hfind⟩

/-- C takes a variable for another one in the initial value of a declaration of the same name, and
under a dotted name if a parameter has its last segment as its name.  It takes a variable for a
function if the mangled name of the function is that of the variable. -/
theorem c_mistakes_names :
    Mistaken "let x: i32 = 1; fn f() -> i32 do let x: i32 = x; return x; end" "x" ∧
    Mistaken "mod a; let x: i32 = 1; fn f(x: i32) -> i32 do return a.x; end" "x" ∧
    Mistaken "let a_f: i32 = 1; mod a; fn f() -> i32 do return a_f; end" "a_f" := by
  refine ⟨mistaken_of_sights ?_, mistaken_of_sights ?_, mistaken_of_sights ?_⟩
  · decide +kernel
  · decide +kernel
  · decide +kernel

end BlockC

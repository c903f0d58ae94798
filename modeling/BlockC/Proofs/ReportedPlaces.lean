import BlockC.Proofs.Outcome
import BlockC.Proofs.Relocation
import Mathlib.Logic.Basic

/-! # Where reports stand

Whatever tree is bound, what is reported stands where some node of the tree begins or ends
(`place_of_report`).  A map that moves no place of the tree moves no place of the program that is
read from it (`stmtsOf_stays`), and so none of a report, since binding a moved program moves what is
reported.  If a report stood elsewhere, there would be a map that moves just its place.
-/
namespace BlockC

namespace Node

mutual

/-- The places where the nodes of a tree begin and end. -/
def places : Node → List Position
  | mk head children => head.span.start :: head.span.stop :: allPlaces children

def allPlaces : List Node → List Position
  | [] => []
  | n :: rest => n.places ++ allPlaces rest

end

theorem mem_allPlaces {ns : List Node} {p : Position} :
    p ∈ allPlaces ns ↔ ∃ n ∈ ns, p ∈ n.places := by
  induction ns with
  | nil => simp [allPlaces]
  | cons n ns ih => simp [allPlaces, ih]

/-- The map moves no place of the tree. -/
def Stays (g : Position → Position) (n : Node) : Prop :=
  ∀ p ∈ n.places, g p = p

variable {g : Position → Position} {n c : Node}

theorem Stays.span (h : n.Stays g) : n.span.moved g = n.span := by
  obtain ⟨⟨kind, field, named, missing, error, start, stop⟩, children⟩ := n
  have hstart : g start = start := h start (by simp [places])
  have hstop : g stop = stop := h stop (by simp [places])
  simp [Span.moved, Node.span, hstart, hstop]

theorem Stays.start (h : n.Stays g) : g n.start = n.start :=
  congrArg Span.start h.span

theorem Stays.child (h : n.Stays g) (hc : c ∈ n.children) : c.Stays g := by
  obtain ⟨head, children⟩ := n
  intro p hp
  refine h p ?_
  simp only [places, List.mem_cons]
  exact Or.inr (Or.inr (mem_allPlaces.mpr ⟨c, hc, hp⟩))

end Node

/-- The map does not move the place of the diagnostic. -/
def Diagnostic.Stays (g : Position → Position) (d : Diagnostic) : Prop :=
  d.moved g = d

namespace Surface

variable {g : Position → Position} {source : ByteArray} {n : Node} {head : NodeHead}
  {children : List Node}

/-! ### Texts and roles -/

theorem malformed_stays (h : head.span.moved g = head.span) (message : String) :
    (malformed head message).Stays g :=
  congrArg (Diagnostic.mk _) (congrArg Span.start h)

theorem textOf_stays (h : head.span.moved g = head.span) :
    Meets (fun _ => True) (Diagnostic.Stays g) (textOf source head) := by
  unfold textOf
  split
  · exact malformed_stays h _
  · split
    · exact malformed_stays h _
    · trivial

theorem childIn_stays (h : n.Stays g) (field : String) :
    Meets (Node.Stays g) (Diagnostic.Stays g) (childIn n field) := by
  unfold childIn
  split
  · rename_i child hchild
    exact h.child (List.mem_of_find?_eq_some hchild)
  · exact malformed_stays h.span _

theorem pathOf_stays (h : ∀ c ∈ children, c.Stays g) :
    Meets (fun _ => True) (Diagnostic.Stays g) (pathOf source children) := by
  induction children with
  | nil => trivial
  | cons c rest ih =>
    obtain ⟨hc, hrest⟩ := List.forall_mem_cons.mp h
    unfold pathOf
    split
    · exact (textOf_stays hc.span).bind fun _ _ => (ih hrest).bind fun _ _ => trivial
    · exact ih hrest

theorem numberOf_stays (h : head.span.moved g = head.span) :
    Meets (fun _ => True) (Diagnostic.Stays g) (numberOf source head) := by
  refine (textOf_stays h).bind fun literal _ => ?_
  split
  · trivial
  · exact congrArg (Diagnostic.mk _) (congrArg Span.start h)

theorem operatorOf_stays {α : Type} (h : n.Stays g) (ofText? : String → Option α) (what : String) :
    Meets (fun _ => True) (Diagnostic.Stays g) (operatorOf source n ofText? what) := by
  refine (childIn_stays h "operator").bind fun c hc => ?_
  refine (textOf_stays hc.span).bind fun text _ => ?_
  split
  · trivial
  · exact malformed_stays hc.span _

theorem required_stays {α : Type} {P : α → Prop} (h : head.span.moved g = head.span)
    (field : String) {found : Option (Except Diagnostic α)}
    (hfound : ∀ r ∈ found, Meets P (Diagnostic.Stays g) r) :
    Meets P (Diagnostic.Stays g) (required head field found) := by
  cases found with
  | none => exact malformed_stays h _
  | some r => exact hfound r rfl

/-! ### Types -/

/-- A type is read that the map does not move, or the report is not moved. -/
def TypeStays (g : Position → Position) (r : Except Diagnostic TypeExpr) : Prop :=
  Meets (fun x => x.moved g = x) (Diagnostic.Stays g) r

def TypesStay (g : Position → Position) (r : Except Diagnostic (List TypeExpr)) : Prop :=
  Meets (fun xs => TypeExpr.allMoved g xs = xs) (Diagnostic.Stays g) r

theorem typeForm_stays (h : (Node.mk head children).Stays g)
    {one : String → Option (Except Diagnostic TypeExpr)}
    (hone : ∀ field, ∀ r ∈ one field, TypeStays g r)
    {list : String → Option (Except Diagnostic (List TypeExpr))}
    (hlist : ∀ field, ∀ r ∈ list field, TypesStay g r) :
    TypeStays g (typeForm source head children one list) := by
  have hspan : head.span.moved g = head.span := h.span
  unfold typeForm
  split
  · refine (pathOf_stays fun c hc => h.child hc).bind fun path _ => ?_
    exact congrArg (TypeExpr.name path) hspan
  · refine (required_stays hspan _ (hone "pointee")).bind fun x hx => ?_
    exact congrArg₂ TypeExpr.pointer hx hspan
  · refine (childIn_stays h "size").bind fun c hc => ?_
    refine (numberOf_stays hc.span).bind fun count _ => ?_
    refine (required_stays hspan _ (hone "element")).bind fun x hx => ?_
    exact congrArg₂ (TypeExpr.array count) hx hspan
  · refine (required_stays hspan _ (hone "element")).bind fun x hx => ?_
    exact congrArg₂ TypeExpr.slice hx hspan
  · refine (required_stays hspan _ (hlist "params")).bind fun xs hxs => ?_
    refine (required_stays hspan _ (hone "returns")).bind fun x hx => ?_
    change TypeExpr.func (TypeExpr.allMoved g xs) (x.moved g) (head.span.moved g) = _
    rw [hxs, hx, hspan]
  · exact malformed_stays hspan _

mutual

theorem typeOf_stays : (n : Node) → n.Stays g → TypeStays g (typeOf source n)
  | .mk head children, h => by
    have hspan : head.span.moved g = head.span := h.span
    unfold typeOf
    split
    · have hinside := typeInside_stays children fun c hc => h.child hc
      cases hr : typeInside source children with
      | none => exact malformed_stays hspan _
      | some r => exact hinside r hr
    · exact malformed_stays hspan _

theorem typeInside_stays : (ns : List Node) → (∀ n ∈ ns, n.Stays g) →
    ∀ r ∈ typeInside source ns, TypeStays g r
  | [], _ => by simp [typeInside]
  | .mk head children :: rest, h => by
    obtain ⟨hn, hrest⟩ := List.forall_mem_cons.mp h
    have hchildren : ∀ c ∈ children, c.Stays g := fun c hc => hn.child hc
    unfold typeInside
    split
    · rintro _ ⟨⟩
      exact typeForm_stays hn (fun field => typeIn_stays field children hchildren)
        fun field => typesIn_stay field children hchildren
    · exact typeInside_stays rest hrest

theorem typeIn_stays (field : String) : (ns : List Node) → (∀ n ∈ ns, n.Stays g) →
    ∀ r ∈ typeIn source field ns, TypeStays g r
  | [], _ => by simp [typeIn]
  | n :: rest, h => by
    obtain ⟨hn, hrest⟩ := List.forall_mem_cons.mp h
    unfold typeIn
    split
    · rintro _ ⟨⟩
      exact typeOf_stays n hn
    · exact typeIn_stays field rest hrest

theorem typesIn_stay (field : String) : (ns : List Node) → (∀ n ∈ ns, n.Stays g) →
    ∀ r ∈ typesIn source field ns, TypesStay g r
  | [], _ => by simp [typesIn]
  | .mk head children :: rest, h => by
    obtain ⟨hn, hrest⟩ := List.forall_mem_cons.mp h
    unfold typesIn
    split
    · rintro _ ⟨⟩
      exact typesOf_stay children fun c hc => hn.child hc
    · exact typesIn_stay field rest hrest

theorem typesOf_stay : (ns : List Node) → (∀ n ∈ ns, n.Stays g) →
    TypesStay g (typesOf source ns)
  | [], _ => rfl
  | n :: rest, h => by
    obtain ⟨hn, hrest⟩ := List.forall_mem_cons.mp h
    unfold typesOf
    split
    · refine Meets.bind (typeOf_stays n hn) fun x hx => ?_
      refine Meets.bind (typesOf_stay rest hrest) fun xs hxs => ?_
      exact congrArg₂ List.cons hx hxs
    · exact typesOf_stay rest hrest

end

/-! ### Expressions -/

theorem orBad_stays {r : Except Diagnostic Expr}
    (h : Meets (fun e => e.moved g = e) (Diagnostic.Stays g) r) : (orBad r).moved g = orBad r := by
  cases r with
  | ok e => exact h
  | error d => exact congrArg Expr.bad h

theorem exprForm_stays (h : (Node.mk head children).Stays g) {one : String → Option Expr}
    (hone : ∀ field, ∀ e ∈ one field, e.moved g = e) {first : Unit → Option Expr}
    (hfirst : ∀ e ∈ first (), e.moved g = e) {list : String → Option (List Expr)}
    (hlist : ∀ field, ∀ es ∈ list field, Expr.allMoved g es = es) :
    (exprForm source head children one first list).moved g =
      exprForm source head children one first list := by
  have hspan : head.span.moved g = head.span := h.span
  have hmissing (field : String) : (missingField head field).moved g = missingField head field :=
    malformed_stays hspan _
  have hsub (field : String) : ((one field).getD (.bad (missingField head field))).moved g =
      (one field).getD (.bad (missingField head field)) := by
    cases he : one field with
    | none => exact congrArg Expr.bad (hmissing field)
    | some e => exact hone field e he
  unfold exprForm
  dsimp only
  split
  · refine orBad_stays ((pathOf_stays fun c hc => h.child hc).bind fun path _ => ?_)
    exact congrArg (fun span => Expr.ident ⟨path, span⟩) hspan
  · have hop : Meets _ (Diagnostic.Stays g) (operatorOf source _ BinaryOp.ofText? "binary") :=
      operatorOf_stays h BinaryOp.ofText? "binary"
    split
    · simp only [Expr.moved, hsub, hspan]
    · rename_i d hd
      rw [hd] at hop
      simp only [Expr.moved, hsub, show d.moved g = d from hop]
  · refine orBad_stays ((operatorOf_stays h UnaryOp.ofText? "unary").bind fun op _ => ?_)
    exact congrArg₂ (Expr.unary op) (hsub "argument") hspan
  · simp only [Expr.moved, hsub, hspan]
  · refine orBad_stays ((childIn_stays h "func_name").bind fun c hc => ?_)
    refine (pathOf_stays fun x hx => hc.child hx).bind fun path _ => ?_
    have hargs : Expr.allMoved g ((list "args").getD [.bad (missingField head "args")]) =
        (list "args").getD [.bad (missingField head "args")] := by
      cases hes : list "args" with
      | none => exact congrArg (fun d => [Expr.bad d]) (hmissing "args")
      | some es => exact hlist "args" es hes
    change Expr.call ⟨path, c.span.moved g⟩ (Expr.allMoved g _) (head.span.moved g) = _
    rw [hc.span, hargs, hspan]
  · have hop : Meets _ (Diagnostic.Stays g) (operatorOf source _ AssignOp.ofText? "assignment") :=
      operatorOf_stays h AssignOp.ofText? "assignment"
    split
    · simp only [Expr.moved, hsub, hspan]
    · rename_i d hd
      rw [hd] at hop
      simp only [Expr.moved, hsub, show d.moved g = d from hop]
  · split
    · rename_i inner hinner
      exact congrArg₂ Expr.parenthesized (hfirst inner hinner) hspan
    · exact congrArg Expr.bad (malformed_stays hspan _)
  · refine orBad_stays ((numberOf_stays hspan).bind fun value _ => ?_)
    exact congrArg (Expr.number value) hspan
  · refine orBad_stays ((textOf_stays hspan).bind fun text _ => ?_)
    exact congrArg (Expr.string text) hspan
  · exact congrArg (Expr.boolean true) hspan
  · exact congrArg (Expr.boolean false) hspan
  · exact congrArg Expr.null hspan
  · exact congrArg Expr.bad (malformed_stays hspan _)

mutual

theorem exprOf_stays : (n : Node) → n.Stays g → (exprOf source n).moved g = exprOf source n
  | .mk head children, h => by
    have hspan : head.span.moved g = head.span := h.span
    unfold exprOf
    split
    · have hinside := exprInside_stays children fun c hc => h.child hc
      cases he : exprInside source children with
      | none => exact congrArg Expr.bad (malformed_stays hspan _)
      | some e => exact hinside e he
    · exact congrArg Expr.bad (malformed_stays hspan _)

theorem exprInside_stays : (ns : List Node) → (∀ n ∈ ns, n.Stays g) →
    ∀ e ∈ exprInside source ns, e.moved g = e
  | [], _ => by simp [exprInside]
  | .mk head children :: rest, h => by
    obtain ⟨hn, hrest⟩ := List.forall_mem_cons.mp h
    have hchildren : ∀ c ∈ children, c.Stays g := fun c hc => hn.child hc
    unfold exprInside
    split
    · rintro _ ⟨⟩
      exact exprForm_stays hn (fun field => exprIn_stays field children hchildren)
        (firstExpr_stays children hchildren) fun field => exprsIn_stay field children hchildren
    · exact exprInside_stays rest hrest

theorem exprIn_stays (field : String) : (ns : List Node) → (∀ n ∈ ns, n.Stays g) →
    ∀ e ∈ exprIn source field ns, e.moved g = e
  | [], _ => by simp [exprIn]
  | n :: rest, h => by
    obtain ⟨hn, hrest⟩ := List.forall_mem_cons.mp h
    unfold exprIn
    split
    · rintro _ ⟨⟩
      exact exprOf_stays n hn
    · exact exprIn_stays field rest hrest

theorem firstExpr_stays : (ns : List Node) → (∀ n ∈ ns, n.Stays g) →
    ∀ e ∈ firstExpr source ns, e.moved g = e
  | [], _ => by simp [firstExpr]
  | n :: rest, h => by
    obtain ⟨hn, hrest⟩ := List.forall_mem_cons.mp h
    unfold firstExpr
    split
    · rintro _ ⟨⟩
      exact exprOf_stays n hn
    · exact firstExpr_stays rest hrest

theorem exprsIn_stay (field : String) : (ns : List Node) → (∀ n ∈ ns, n.Stays g) →
    ∀ es ∈ exprsIn source field ns, Expr.allMoved g es = es
  | [], _ => by simp [exprsIn]
  | .mk head children :: rest, h => by
    obtain ⟨hn, hrest⟩ := List.forall_mem_cons.mp h
    unfold exprsIn
    split
    · rintro _ ⟨⟩
      exact exprsOf_stay children fun c hc => hn.child hc
    · exact exprsIn_stay field rest hrest

theorem exprsOf_stay : (ns : List Node) → (∀ n ∈ ns, n.Stays g) →
    Expr.allMoved g (exprsOf source ns) = exprsOf source ns
  | [], _ => rfl
  | n :: rest, h => by
    obtain ⟨hn, hrest⟩ := List.forall_mem_cons.mp h
    unfold exprsOf
    split
    · exact congrArg₂ List.cons (exprOf_stays n hn) (exprsOf_stay rest hrest)
    · exact exprsOf_stay rest hrest

end

/-! ### Declarations -/

theorem nameIn_stays (h : n.Stays g) (field : String) :
    Meets (fun name => name.moved g = name) (Diagnostic.Stays g) (nameIn source n field) := by
  refine (childIn_stays h field).bind fun c hc => ?_
  refine (textOf_stays hc.span).bind fun text _ => ?_
  exact congrArg (Name.mk text) hc.start

theorem typeUseIn_stays (h : n.Stays g) (field : String) :
    Meets (fun a => a.moved g = a) (Diagnostic.Stays g) (typeUseIn source n field) := by
  refine (childIn_stays h field).bind fun c hc => ?_
  refine Meets.bind (typeOf_stays c hc) fun x hx => ?_
  exact congrArg₂ TypeUse.mk hx hc.start

theorem bindingOf_stays (h : n.Stays g) :
    Meets (fun b => b.moved g = b) (Diagnostic.Stays g) (bindingOf source n) := by
  refine (nameIn_stays h "ident").bind fun name hname => ?_
  refine (typeUseIn_stays h "typing").bind fun a ha => ?_
  change Binding.mk (name.moved g) (a.moved g) (n.span.moved g) = _
  rw [hname, ha, h.span]

theorem paramOf_stays (h : n.Stays g) : (paramOf source n).moved g = paramOf source n := by
  unfold paramOf
  split
  · have hb : Meets _ _ (bindingOf source n) := bindingOf_stays h
    split
    · rename_i b hread
      rw [hread] at hb
      exact congrArg Param.binding hb
    · rename_i d hread
      rw [hread] at hb
      exact congrArg Param.bad hb
  · rfl
  · exact congrArg Param.bad (malformed_stays h.span _)

theorem headerOf_stays (h : n.Stays g) :
    Meets (fun f => f.moved g = f) (Diagnostic.Stays g) (headerOf source n) := by
  refine (nameIn_stays h "func_name").bind fun name hname => ?_
  -- The type that is returned is kept as it was read, also where reading it failed.
  have hreturns : Except.moved g (·.moved g) (typeUseIn source n "returns") =
      typeUseIn source n "returns" := by
    have hmeets : Meets _ _ (typeUseIn source n "returns") := typeUseIn_stays h "returns"
    cases hr : typeUseIn source n "returns" with
    | ok a =>
      rw [hr] at hmeets
      exact congrArg Except.ok hmeets
    | error d =>
      rw [hr] at hmeets
      exact congrArg Except.error hmeets
  have hparams := childIn_stays h "params"
  cases hc : childIn n "params" with
  | ok c =>
    rw [hc] at hparams
    have hmap : (c.namedChildren.map (paramOf source)).map (·.moved g) =
        c.namedChildren.map (paramOf source) := by
      rw [List.map_map]
      exact List.map_congr_left fun x hx =>
        paramOf_stays (Node.Stays.child hparams (List.mem_filter.mp hx).1)
    change Header.mk (name.moved g) (List.map _ _) (g c.start) (Except.moved g _ _) = _
    rw [hname, hmap, Node.Stays.start hparams, hreturns]
  | error d =>
    rw [hc] at hparams
    have hd : d.moved g = d := hparams
    have hpos : g d.pos = d.pos := congrArg Diagnostic.pos hd
    change Header.mk (name.moved g) [.bad (d.moved g)] (g d.pos) (Except.moved g _ _) = _
    rw [hname, hd, hpos, hreturns]

/-! ### Statements -/

theorem orBadStmt_stays {r : Except Diagnostic Stmt}
    (h : Meets (fun s => s.moved g = s) (Diagnostic.Stays g) r) :
    (orBadStmt r).moved g = orBadStmt r := by
  cases r with
  | ok s => exact h
  | error d => exact congrArg Stmt.bad h

theorem exprField_stays (h : n.Stays g) (field : String) :
    (exprField source n field).moved g = exprField source n field := by
  have hchild := childIn_stays h field
  unfold exprField
  split
  · rename_i c hc
    rw [hc] at hchild
    exact exprOf_stays c hchild
  · rename_i d hd
    rw [hd] at hchild
    exact congrArg Expr.bad hchild

theorem declareForm_stays (h : n.Stays g) :
    (declareForm source n).moved g = declareForm source n := by
  have hinitial : ∀ e ∈ (n.child? "initial").map (exprOf source), e.moved g = e := by
    intro e he
    obtain ⟨c, hc, rfl⟩ := Option.map_eq_some_iff.mp he
    exact exprOf_stays c (h.child (List.mem_of_find?_eq_some hc))
  have hbinding : Meets (fun b => b.moved g = b) (Diagnostic.Stays g)
      (childIn n "typed_ident" >>= bindingOf source) :=
    (childIn_stays h "typed_ident").bind fun c hc => bindingOf_stays hc
  unfold declareForm
  dsimp only
  generalize (n.child? "initial").map (exprOf source) = initial at hinitial
  generalize childIn n "typed_ident" >>= bindingOf source = binding at hbinding
  cases binding with
  | ok b =>
    have hb : b.moved g = b := hbinding
    have hvalue : initial.map (·.moved g) = initial := by
      cases initial with
      | none => rfl
      | some e => exact congrArg some (hinitial e rfl)
    simp only [Stmt.moved, hb, hvalue, h.span]
  | error d =>
    cases initial with
    | none => exact congrArg Stmt.bad hbinding
    | some e => exact congrArg₂ Stmt.stuck (hinitial e rfl) hbinding

theorem externalForm_stays (h : n.Stays g) :
    (externalForm source n).moved g = externalForm source n := by
  unfold externalForm
  split
  · exact congrArg Stmt.bad (malformed_stays h.span _)
  · rename_i declaration rest hnamed
    have hmem : declaration ∈ n.namedChildren := by simp [hnamed]
    have hd : declaration.Stays g := h.child (List.mem_filter.mp hmem).1
    split
    · refine orBadStmt_stays ((childIn_stays hd "typed_ident").bind fun c hc => ?_)
      refine (bindingOf_stays hc).bind fun b hb => ?_
      change Stmt.externalVariable (b.moved g) (declaration.span.moved g).start (n.span.moved g) = _
      rw [hb, hd.span, h.span]
    · refine orBadStmt_stays ((headerOf_stays hd).bind fun f hf => ?_)
      change Stmt.externalFunction (f.moved g) (declaration.span.moved g) (n.span.moved g) = _
      rw [hf, hd.span, h.span]
    · exact congrArg Stmt.bad (malformed_stays hd.span _)

section
variable {block : String → Option Block} {alternative : Unit → Option Block}

theorem withBlock_stays (h : head.span.moved g = head.span) (field : String) {first : Expr}
    (hfirst : first.moved g = first) {found : Option Block} (hfound : ∀ b ∈ found, b.moved g = b)
    {k : Block → Stmt} (hk : ∀ b, b.moved g = b → (k b).moved g = k b) :
    (withBlock head field first found k).moved g = withBlock head field first found k := by
  cases found with
  | none => exact congrArg₂ Stmt.stuck hfirst (malformed_stays h _)
  | some b => exact hk b (hfound b rfl)

theorem ifForm_stays (h : n.Stays g) (hblock : ∀ field, ∀ b ∈ block field, b.moved g = b)
    (halternative : ∀ b ∈ alternative (), b.moved g = b) :
    (ifForm source n block alternative).moved g = ifForm source n block alternative := by
  have htest : (exprField source n "condition").moved g = _ := exprField_stays h "condition"
  refine withBlock_stays h.span _ htest (hblock "consequence") fun b hb => ?_
  cases ha : alternative () with
  | none => simp only [Stmt.moved, htest, hb, h.span]
  | some a => simp only [Stmt.moved, htest, hb, halternative a ha, h.span]

theorem stmtForm_stays (h : n.Stays g) (hblock : ∀ field, ∀ b ∈ block field, b.moved g = b)
    (halternative : ∀ b ∈ alternative (), b.moved g = b) :
    (stmtForm source n block alternative).moved g = stmtForm source n block alternative := by
  have hspan := h.span
  unfold stmtForm
  dsimp only
  split
  · exact congrArg Stmt.empty hspan
  · refine orBadStmt_stays ((nameIn_stays h "name").bind fun name hname => ?_)
    exact congrArg₂ Stmt.mod hname hspan
  · exact declareForm_stays h
  · exact externalForm_stays h
  · have htest : (exprField source n "condition").moved g = _ := exprField_stays h "condition"
    refine withBlock_stays hspan _ htest (hblock "body") fun b hb => ?_
    simp only [Stmt.moved, htest, hb, hspan]
  · exact ifForm_stays h hblock halternative
  · exact congrArg₂ Stmt.returned (exprField_stays h "returns") hspan
  · refine orBadStmt_stays ((nameIn_stays h "ident").bind fun name hname => ?_)
    refine (typeUseIn_stays h "typing").bind fun a ha => ?_
    change Stmt.typeAlias (name.moved g) (a.moved g) (n.span.moved g) = _
    rw [hname, ha, hspan]
  · refine orBadStmt_stays ((headerOf_stays h).bind fun f hf => ?_)
    have hbody : ((block "body").getD (.mk [.bad (missingField n.head "body")] n.span)).moved g =
        (block "body").getD (.mk [.bad (missingField n.head "body")] n.span) := by
      cases hb : block "body" with
      | none =>
        have hbad : (missingField n.head "body").moved g = missingField n.head "body" :=
          malformed_stays hspan _
        simp only [Option.getD_none, Block.moved, Stmt.allMoved, Stmt.moved, hbad, hspan]
      | some b => exact hblock "body" b hb
    change Stmt.func (f.moved g) (Block.moved g _) (n.span.moved g) = _
    rw [hf, hbody, hspan]
  · exact congrArg₂ Stmt.expr (exprOf_stays n h) hspan
  · exact congrArg Stmt.bad (malformed_stays hspan _)

end

/-- A node in the place of a block, which is one or cannot be read. -/
theorem block_stays (h : head.span.moved g = head.span) {ss : List Stmt}
    (hss : Stmt.allMoved g ss = ss) :
    ∀ b ∈ (if head.kind == "codeblock" then some (Block.mk ss head.span)
      else some (.mk [.bad (unwanted head "codeblock")] head.span)), b.moved g = b := by
  have hbad : (unwanted head "codeblock").moved g = unwanted head "codeblock" :=
    malformed_stays h _
  split
  · rintro _ ⟨⟩
    exact congrArg₂ Block.mk hss h
  · rintro _ ⟨⟩
    exact congrArg₂ Block.mk (congrArg (fun d => [Stmt.bad d]) hbad) h

mutual

theorem stmtOf_stays : (n : Node) → n.Stays g → (stmtOf source n).moved g = stmtOf source n
  | .mk head children, h => by
    have hspan : head.span.moved g = head.span := h.span
    unfold stmtOf
    split
    · have hinside := stmtInside_stays children fun c hc => h.child hc
      cases hs : stmtInside source children with
      | none => exact congrArg Stmt.bad (malformed_stays hspan _)
      | some s => exact hinside s hs
    · exact congrArg Stmt.bad (malformed_stays hspan _)

theorem stmtInside_stays : (ns : List Node) → (∀ n ∈ ns, n.Stays g) →
    ∀ s ∈ stmtInside source ns, s.moved g = s
  | [], _ => by simp [stmtInside]
  | .mk head children :: rest, h => by
    obtain ⟨hn, hrest⟩ := List.forall_mem_cons.mp h
    have hchildren : ∀ c ∈ children, c.Stays g := fun c hc => hn.child hc
    unfold stmtInside
    split
    · rintro _ ⟨⟩
      exact stmtForm_stays hn (fun field => blockIn_stays field children hchildren)
        (alternativeIn_stays children hchildren)
    · exact stmtInside_stays rest hrest

theorem blockIn_stays (field : String) : (ns : List Node) → (∀ n ∈ ns, n.Stays g) →
    ∀ b ∈ blockIn source field ns, b.moved g = b
  | [], _ => by simp [blockIn]
  | .mk head children :: rest, h => by
    obtain ⟨hn, hrest⟩ := List.forall_mem_cons.mp h
    unfold blockIn
    split
    · exact block_stays hn.span (stmtsOf_stays children fun c hc => hn.child hc)
    · exact blockIn_stays field rest hrest

theorem alternativeIn_stays : (ns : List Node) → (∀ n ∈ ns, n.Stays g) →
    ∀ b ∈ alternativeIn source ns, b.moved g = b
  | [], _ => by simp [alternativeIn]
  | .mk head children :: rest, h => by
    obtain ⟨hn, hrest⟩ := List.forall_mem_cons.mp h
    have hchildren : ∀ c ∈ children, c.Stays g := fun c hc => hn.child hc
    unfold alternativeIn
    split
    · split
      · rintro _ ⟨⟩
        have hif : (ifForm source (.mk head children) (fun field => blockIn source field children)
            fun _ => alternativeIn source children).moved g = _ :=
          ifForm_stays hn (fun field => blockIn_stays field children hchildren)
            (alternativeIn_stays children hchildren)
        exact congrArg₂ Block.mk (congrArg (fun s => [s]) hif) hn.span
      · exact block_stays hn.span (stmtsOf_stays children hchildren)
    · exact alternativeIn_stays rest hrest

/-- **A map that moves no place of some trees moves no place of the statements that they hold.** -/
theorem stmtsOf_stays : (ns : List Node) → (∀ n ∈ ns, n.Stays g) →
    Stmt.allMoved g (stmtsOf source ns) = stmtsOf source ns
  | [], _ => rfl
  | n :: rest, h => by
    obtain ⟨hn, hrest⟩ := List.forall_mem_cons.mp h
    unfold stmtsOf
    split
    · exact congrArg₂ List.cons (stmtOf_stays n hn) (stmtsOf_stays rest hrest)
    · exact stmtsOf_stays rest hrest

end

end Surface

/-! ### Binding -/

/-- What is reported for statements that the map does not move is not moved. -/
theorem Binder.stmts_report_stays {g : Position → Position} {ss : List Surface.Stmt}
    (h : Surface.Stmt.allMoved g ss = ss) {ctx ctx' : Context} {d : Diagnostic}
    (hrun : (stmts ss).run ctx = .error d ctx') : d.Stays g := by
  have hmoved := relocates_stmts (g := g) ss ctx
  rw [h, hrun] at hmoved
  exact (EStateM.Result.error.inj hmoved).1.symm

/-- **What binding a tree reports stands where a node of it begins or ends.** -/
theorem place_of_report {root : Node} {source : ByteArray} {d : Diagnostic}
    (hkind : root.kind = "source_file") (h : bindTree root source = .error d) :
    d.pos ∈ Node.allPlaces root.children := by
  unfold bindTree at h
  rw [hkind] at h
  simp only [beq_self_eq_true, if_true] at h
  split at h
  · cases h
  · rename_i d' ctx hrun
    obtain rfl := Except.error.inj h
    -- If no node begins or ends there, a map can move this place and no place of the tree.
    refine Decidable.byContradiction fun hout => ?_
    have hstays : ∀ n ∈ root.children,
        n.Stays fun p => if p = d'.pos then d'.pos.step 'x' else p := by
      intro n hn p hp
      refine if_neg ?_
      rintro rfl
      exact hout (Node.mem_allPlaces.mpr ⟨n, hn, hp⟩)
    have hsame := Binder.stmts_report_stays (Surface.stmtsOf_stays root.children hstays) hrun
    have hpos : (d'.pos.step 'x').offset = d'.pos.offset := by
      simpa [Diagnostic.moved] using congrArg (fun d => d.pos.offset) hsame
    rw [Position.offset_step] at hpos
    have hsize := Char.utf8Size_pos 'x'
    omega

end BlockC

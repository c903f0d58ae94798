import BlockC.Proofs.Completion
import BlockC.Proofs.Precedence

/-! # Where an `if` can stand

In a tree that the parser built, an `if` stands only in a few places: as a statement, as an
alternative, and below these wherever a block can stand (`bodyRoles`).  No expression, type or list
of parameters holds one.  The contract of the stack for this (`Placing`) says of each piece that it
holds no `if` (`Node.NoIf`), or that every `if` in it stands in such a place (`Node.WellPlaced`).
-/
namespace BlockC
namespace Node

/-- An `if` with its parts. -/
def IsIf (n : Node) : Prop :=
  n.kind = "if" ∧ n.named = true

instance (n : Node) : Decidable n.IsIf :=
  inferInstanceAs (Decidable (_ ∧ _))

/-- No node of the tree is an `if`. -/
def NoIf (n : Node) : Prop :=
  ∀ m ∈ n.nodes, ¬ m.IsIf

/-- The roles in which a node can hold statements, with the kind of the node. -/
def bodyRoles : List (String × Option String) :=
  [("source_file", none), ("codeblock", none), ("stmt", none), ("func", some "body"),
   ("while", some "body"), ("if", some "consequence"), ("if", some "alternative")]

/-- Every `if` of the tree is reached through roles that hold statements. -/
inductive WellPlaced : Node → Prop
  | mk {head : NodeHead} {cs : List Node} (child : ∀ c ∈ cs, ¬ c.NoIf → c.WellPlaced)
      (role : ∀ c ∈ cs, ¬ c.NoIf → (head.kind, c.field) ∈ bodyRoles) : WellPlaced (.mk head cs)

theorem noIf_iff {n : Node} : n.NoIf ↔ ¬ n.IsIf ∧ ∀ c ∈ n.children, c.NoIf := by
  obtain ⟨head, cs⟩ := n
  simp only [NoIf, nodes, List.forall_mem_cons, mem_nodesOf, children_mk]
  constructor
  · rintro ⟨hn, hall⟩
    exact ⟨hn, fun c hc m hm => hall m ⟨c, hc, hm⟩⟩
  · rintro ⟨hn, hall⟩
    refine ⟨hn, ?_⟩
    rintro m ⟨c, hc, hm⟩
    exact hall c hc m hm

theorem NoIf.inField {n : Node} (h : n.NoIf) (field : Option String) : (n.inField field).NoIf := by
  rw [noIf_iff] at h ⊢
  exact h

/-- The word `if` is no node of its own. -/
theorem isNamed_of_tag_if {k : Kind} (h : k.tag = "if") : k.isNamed = false := by
  cases k with
  | eof | unknown | number | string | identifier => exact absurd h (by decide)
  | punct p => cases p <;> exact absurd h (by decide)
  | keyword w => cases w <;> first | rfl | exact absurd h (by decide)

theorem not_isIf_leaf (t : Token) : ¬ (leaf t).IsIf := by
  rintro ⟨hkind, hnamed⟩
  have hword : t.kind.isNamed = true := hnamed
  rw [isNamed_of_tag_if hkind] at hword
  cases hword

theorem noIf_leaf (t : Token) : (leaf t).NoIf :=
  noIf_iff.mpr ⟨not_isIf_leaf t, by simp [leaf]⟩

theorem noIf_assemble {kind : String} {pos : Position} {cs : List Node} (hkind : kind ≠ "if")
    (hcs : ∀ c ∈ cs, c.NoIf) : (assemble kind pos cs).NoIf :=
  noIf_iff.mpr ⟨fun h => hkind h.1, hcs⟩

theorem NoIf.wrapped {n : Node} (h : n.NoIf) : (Grammar.wrapped n).NoIf :=
  noIf_assemble (by decide) (by simpa using h.inField none)

theorem NoIf.onlyNamedChild? {n c : Node} (h : n.NoIf) (hc : n.onlyNamedChild? = some c) :
    c.NoIf := by
  unfold Node.onlyNamedChild? at hc
  split at hc
  · rename_i child hchildren
    cases hc
    have hmem : child ∈ n.namedChildren := by simp [hchildren]
    exact ((noIf_iff.mp h).2 child (List.mem_filter.mp hmem).1).inField none
  · cases hc

theorem NoIf.wellPlaced {n : Node} (h : n.NoIf) : n.WellPlaced := by
  obtain ⟨head, cs⟩ := n
  have hcs := (noIf_iff.mp h).2
  exact .mk (fun c hc hif => absurd (hcs c hc) hif) fun c hc hif => absurd (hcs c hc) hif

theorem WellPlaced.inField {n : Node} (h : n.WellPlaced) (field : Option String) :
    (n.inField field).WellPlaced := by
  cases h with
  | mk child role => exact .mk child role

/-- A child that may stand below a node of the kind. -/
def PlacedIn (kind : String) (c : Node) : Prop :=
  c.NoIf ∨ c.WellPlaced ∧ (kind, c.field) ∈ bodyRoles

theorem wellPlaced_assemble {kind : String} {pos : Position} {cs : List Node}
    (h : ∀ c ∈ cs, c.PlacedIn kind) : (assemble kind pos cs).WellPlaced :=
  .mk (fun c hc hif => ((h c hc).resolve_left hif).1)
    fun c hc hif => ((h c hc).resolve_left hif).2

end Node

namespace Grammar

open Node

/-- A piece that can hold an `if`. -/
def Piece.holdsIf : Piece → Bool
  | .stmt | .form | .ifElse | .codeblock | .file | .loose => true
  | _ => false

/-- What is known of the places of an `if` in each piece that the grammar builds. -/
def Placing (p : Piece) (_ : Token) (n : Node) : Prop :=
  n.WellPlaced ∧ (p.holdsIf = false → n.NoIf) ∧ (p ∈ [.stmt, .codeblock] → ¬ n.IsIf)

section
variable {p q : Piece} {t next : Token} {n : Node} {kind kind' : String} {done cs : List Node}
  {todo : List Part} {field : Option String} {frames : List Frame} {above : Level}

theorem placing_of_noIf (h : n.NoIf) : Placing p t n :=
  ⟨h.wellPlaced, fun _ => h, fun _ => (noIf_iff.mp h).1⟩

theorem Placing.noIf (h : Placing p t n) (hp : p.holdsIf = false) : n.NoIf :=
  h.2.1 hp

/-- A piece with statements in it. -/
theorem placing_of_placed (hp : p.holdsIf = true) (hkind : p ∈ [.stmt, .codeblock] → kind ≠ "if")
    (hcs : ∀ c ∈ cs, c.PlacedIn kind) : Placing p t (.assemble kind .origin cs) :=
  ⟨wellPlaced_assemble hcs, fun h => absurd h (by simp [hp]), fun h hif => hkind h hif.1⟩

/-! ### Pieces without statements -/

/-- A part that no statement can stand for. -/
def Part.Plain : Part → Prop
  | .token _ _ | .hole _ => True
  | .node p _ => p.piece.holdsIf = false
  | .choice c => c ∉ [.otherwise, .alternative, .statements, .topLevel]

theorem plain_expand {c : Choice} (h : (Part.choice c).Plain) (k : Kind) :
    ∀ part ∈ c.expand k, part.Plain := by
  intro part hpart
  have hmem := c.expand_subset_options k hpart
  cases c
  case otherwise | alternative | statements | topLevel => simp [Part.Plain] at h
  all_goals
    simp only [Choice.options, List.mem_cons, List.not_mem_nil, or_false] at hmem
    rcases hmem with rfl | rfl | rfl <;>
      first | trivial | rfl | (simp [Part.Plain])

/-- Whatever stands for plain parts holds no `if`. -/
theorem fits_plain (h : Fits Placing anyToken next kind todo kind' cs)
    (htodo : ∀ part ∈ todo, part.Plain) :
    (kind' = kind ∨ kind' = "slice_type") ∧ ∀ c ∈ cs, c.NoIf := by
  induction h with
  | nil => exact ⟨Or.inl rfl, by simp⟩
  | token _ _ _ ih =>
    obtain ⟨-, hrest⟩ := List.forall_mem_cons.mp htodo
    exact ⟨(ih hrest).1, List.forall_mem_cons.mpr ⟨(noIf_leaf _).inField _, (ih hrest).2⟩⟩
  | node hn _ _ ih =>
    obtain ⟨hpart, hrest⟩ := List.forall_mem_cons.mp htodo
    exact ⟨(ih hrest).1, List.forall_mem_cons.mpr ⟨(hn.noIf hpart).inField _, (ih hrest).2⟩⟩
  | @choice kind kind' c k rest cs _ ih =>
    obtain ⟨hpart, hrest⟩ := List.forall_mem_cons.mp htodo
    obtain ⟨hkind, hcs⟩ := ih (List.forall_mem_append.mpr ⟨plain_expand hpart k, hrest⟩)
    refine ⟨?_, hcs⟩
    cases hname : c.rename? k with
    | none => simpa [hname] using hkind
    | some name =>
      obtain ⟨-, rfl⟩ := rename?_eq_some hname
      exact Or.inr (by simpa [hname] using hkind)

theorem noIf_fits (hkind : kind ≠ "if") (hdone : ∀ c ∈ done, c.NoIf)
    (htodo : ∀ part ∈ todo, part.Plain) (h : Fits Placing anyToken next kind todo kind' cs) :
    (Node.assemble kind' .origin (done.reverse ++ cs)).NoIf := by
  obtain ⟨hkind', hcs⟩ := fits_plain h htodo
  refine noIf_assemble ?_ (List.forall_mem_append.mpr ⟨by simpa using hdone, hcs⟩)
  rcases hkind' with rfl | rfl
  · exact hkind
  · decide

/-- A node without statements, from its first token on. -/
theorem ready_plain (p : Piece) (hkind : kind ≠ "if") (htodo : ∀ part ∈ todo, part.Plain)
    (t' : Token) : (opened kind t field todo).Ready Placing anyToken p t' := by
  intro next kind' cs _ hfits
  exact placing_of_noIf (noIf_fits hkind (by simpa using (noIf_leaf t).inField field) htodo hfits)

theorem builds_plain (hkind : kind ≠ "if") (htodo : ∀ part ∈ todo, part.Plain) :
    Builds Placing anyToken p [opened kind t field todo] :=
  ⟨p, ready_plain p hkind htodo, rfl⟩

/-- A wrapper of something without statements. -/
theorem awaits_plainPiece (hq : q.holdsIf = false) (hkind : kind ≠ "if") :
    (Frame.partly kind [] [.hole field]).Awaits Placing anyToken q p := by
  intro t n next kind' cs hn _ hfits
  obtain ⟨rfl, rfl⟩ := fits_nil.mp hfits
  refine placing_of_noIf (noIf_assemble hkind ?_)
  simpa using (hn.noIf hq).inField field

theorem exprFrom_placing (h : exprFrom above t = .ok frames) :
    Builds Placing anyToken (.expr above) frames := by
  cases exprBegins_of_ok h with
  | literal hk =>
    exact ⟨.expr above, fun t' => ⟨rfl, _, rfl, placing_of_noIf (noIf_leaf t)⟩, rfl⟩
  | name hk =>
    exact ⟨.operand above, ready_plain _ (by decide) (by simp [Part.Plain]), _, ⟨rfl, rfl⟩, rfl⟩
  | parenthesized hk =>
    exact ⟨.operand above, ready_plain _ (by decide)
      (by simp [Part.Plain, Part.mark, Production.piece, Piece.holdsIf]), _, ⟨rfl, rfl⟩, rfl⟩
  | signed hk =>
    exact ⟨.operand above, ready_plain _ (by decide)
      (by simp [Part.Plain, Production.piece, Piece.holdsIf]), _, ⟨rfl, rfl⟩, rfl⟩

/-- An operation, whose left operand and first token are there already. -/
theorem builds_operation {left : Node} {role : Option String} (hleft : left.NoIf)
    (hkind : kind ≠ "if") (htodo : ∀ part ∈ todo, part.Plain) :
    Builds Placing anyToken p
      [.partly kind [(Node.leaf t).inField field, left.inField role] todo] := by
  refine ⟨p, fun t' next kind' cs _ hfits => placing_of_noIf (noIf_fits hkind ?_ htodo hfits), rfl⟩
  simpa using ⟨(noIf_leaf t).inField field, hleft.inField role⟩

theorem operation_placing {level : Level} {role : OperatorRole} (hn : n.NoIf)
    (h : operation? (wrapped n) t level role = some frames) :
    Builds Placing anyToken (.operand above) frames := by
  cases role with
  | binary | assignment | conditional =>
    cases h
    exact builds_operation hn.wrapped (by decide)
      (by simp [Part.Plain, Part.mark, Production.piece, Piece.holdsIf])
  | call =>
    obtain ⟨callee, hcallee, -, rfl⟩ := operation?_call_eq_some.mp h
    refine ⟨.arguments, ready_plain _ (by decide) (by simp [Part.Plain, Part.mark]),
      .operand above, ?_, rfl⟩
    intro u args next kind' cs hargs _ hfits
    obtain ⟨rfl, rfl⟩ := fits_nil.mp hfits
    refine placing_of_noIf (noIf_assemble (by decide) ?_)
    simpa using ⟨(hn.wrapped.onlyNamedChild? hcallee).inField _, (hargs.noIf rfl).inField _⟩

theorem typeFrom_placing (h : typeFrom t = .ok frames) :
    Builds Placing anyToken .typeExpr frames := by
  have hwrap : (Frame.partly "type_expr" [] [.hole none]).Awaits Placing anyToken
      .typeForm .typeExpr := awaits_plainPiece rfl (by decide)
  unfold typeFrom at h
  split at h <;> cases h <;>
    exact ⟨.typeForm, ready_plain _ (by decide)
      (by simp [Part.Plain, Part.mark, Production.piece, Piece.holdsIf]), _, hwrap, rfl⟩

/-! ### Statements -/

section
variable {parts : List Part} {k : Kind} {production : Production}

theorem within_token :
    (Part.token k field).Within Placing anyToken (PlacedIn kind) parts :=
  fun t _ _ => Or.inl ((noIf_leaf t).inField field)

theorem within_plain (hp : production.piece.holdsIf = false) :
    (Part.node production field).Within Placing anyToken (PlacedIn kind) parts :=
  fun _ _ hn => Or.inl ((hn.noIf hp).inField field)

theorem within_body (hrole : (kind, field) ∈ bodyRoles) :
    (Part.node production field).Within Placing anyToken (PlacedIn kind) parts :=
  fun _ _ hn => Or.inr ⟨hn.1.inField field, hrole⟩

/-- A node with statements in it, of which all parts that can come up are listed. -/
theorem ready_body (parts : List Part)
    (hparts : ∀ part ∈ parts, part.Within Placing anyToken (PlacedIn kind) parts)
    (htodo : todo ⊆ parts) (hdone : ∀ c ∈ done, c.NoIf) (hp : p.holdsIf = true)
    (hkind : p ∈ [.stmt, .codeblock] → kind ≠ "if") (t' : Token) :
    (Frame.partly kind done todo).Ready Placing anyToken p t' := by
  intro next kind' cs _ hfits
  obtain ⟨rfl, hcs⟩ := fits_all parts hparts hfits htodo
  refine placing_of_placed hp hkind (List.forall_mem_append.mpr ⟨fun c hc => ?_, hcs⟩)
  exact Or.inl (hdone c (List.mem_reverse.mp hc))

end

/-- A piece that is a statement without its wrapper. -/
def Piece.IsForm (p : Piece) : Prop :=
  p.holdsIf = true ∧ p ∉ [.stmt, .codeblock]

theorem ready_funcFrom (hp : p.IsForm) (t t' : Token) :
    (funcFrom t).Ready Placing anyToken p t' := by
  refine ready_body _ ?_ (List.Subset.refl _) (by simpa using (noIf_leaf t).inField none) hp.1
    (fun h => absurd h hp.2) t'
  simp only [List.forall_mem_cons, List.not_mem_nil, false_imp_iff, implies_true, and_true]
  exact ⟨within_token, within_plain rfl, within_token, within_plain rfl, within_body (by decide)⟩

theorem ready_whileFrom (hp : p.IsForm) (t t' : Token) :
    (whileFrom t).Ready Placing anyToken p t' := by
  refine ready_body _ ?_ (List.Subset.refl _) (by simpa using (noIf_leaf t).inField none) hp.1
    (fun h => absurd h hp.2) t'
  simp only [List.forall_mem_cons, List.not_mem_nil, false_imp_iff, implies_true, and_true]
  exact ⟨within_plain rfl, within_body (by decide)⟩

theorem ready_ifFrom (hp : p.IsForm) (t t' : Token) :
    (ifFrom t).Ready Placing anyToken p t' := by
  refine ready_body [.node (.expr .lowest) (some "condition"),
    .node .codeblock (some "consequence"), .choice .otherwise, .word .elseKw, .choice .alternative,
    .node .ifElse (some "alternative"), .node .codeblock (some "alternative")] ?_ (by simp)
    (by simpa using (noIf_leaf t).inField none) hp.1 (fun h => absurd h hp.2) t'
  simp only [List.forall_mem_cons, List.not_mem_nil, false_imp_iff, implies_true, and_true]
  exact ⟨within_plain rfl, within_body (by decide), ⟨by decide, by simp [Choice.options]⟩,
    within_token, ⟨by decide, by simp [Choice.options]⟩, within_body (by decide),
    within_body (by decide)⟩

theorem ready_block (t t' : Token) :
    (opened "codeblock" t none [.choice .statements, .word .endKw]).Ready Placing anyToken
      .codeblock t' := by
  refine ready_body [.choice .statements, .word .endKw, .node .stmt none] ?_ (by simp)
    (by simpa using (noIf_leaf t).inField none) rfl (fun _ => by decide) t'
  simp only [List.forall_mem_cons, List.not_mem_nil, false_imp_iff, implies_true, and_true]
  exact ⟨⟨by decide, by simp [Choice.options]⟩, within_token, within_body (by decide)⟩

theorem ready_file (t' : Token) : sourceFile.Ready Placing anyToken .file t' := by
  refine ready_body [.choice .topLevel, .node .stmt none] ?_ (by simp) (by simp) rfl
    (fun _ => by decide) t'
  simp only [List.forall_mem_cons, List.not_mem_nil, false_imp_iff, implies_true, and_true]
  exact ⟨⟨by decide, by simp [Choice.options]⟩, within_body (by decide)⟩

theorem awaits_stmtWrapper :
    (Frame.partly "stmt" [] [.hole none]).Awaits Placing anyToken q .stmt := by
  intro t n next kind' cs hn _ hfits
  obtain ⟨rfl, rfl⟩ := fits_nil.mp hfits
  have hform : (n.inField none).PlacedIn "stmt" :=
    Or.inr ⟨hn.1.inField none, (by decide : ("stmt", none) ∈ bodyRoles)⟩
  exact placing_of_placed rfl (fun _ => by decide) (by simpa using hform)

theorem stmtFrom_placing (h : stmtFrom t = .ok frames) :
    Builds Placing anyToken .stmt frames := by
  have hform : Piece.IsForm .form := ⟨rfl, by decide⟩
  cases stmtBegins_of_ok h with
  | form hf =>
    refine ⟨.form, fun t' => ?_, _, awaits_stmtWrapper, rfl⟩
    unfold stmtFrame? at hf
    split at hf <;> cases hf
    · exact ready_plain _ (by decide) (by simp) t'
    · exact ready_plain _ (by decide) (by simp [Part.Plain]) t'
    · exact ready_plain _ (by decide) (by simp [Part.Plain, Production.piece, Piece.holdsIf]) t'
    · exact ready_plain _ (by decide) (by simp [Part.Plain]) t'
    · exact ready_funcFrom hform t t'
    · exact ready_plain _ (by decide)
        (by simp [Part.Plain, Part.mark, Production.piece, Piece.holdsIf]) t'
    · exact ready_whileFrom hform t t'
    · exact ready_ifFrom hform t t'
    · exact ready_plain _ (by decide) (by simp [Part.Plain, Production.piece, Piece.holdsIf]) t'
  | expr he => exact builds_append (exprFrom_placing he) ⟨_, awaits_stmtWrapper, rfl⟩

end

theorem closed_placing : Closed Placing anyToken where
  start := by
    intro p t frames _ h
    have hloose : Piece.IsForm .loose := ⟨rfl, by decide⟩
    cases p with
    | expr above => exact exprFrom_placing h
    | typeExpr => exact typeFrom_placing h
    | stmt => exact stmtFrom_placing h
    | literal =>
      simp only [Production.begin] at h
      split at h
      · cases h
        exact ⟨.operand .call, fun u => placing_of_noIf (t := u) (noIf_leaf t), rfl⟩
      · cases h
    | codeblock =>
      obtain ⟨-, rfl⟩ := requiring_eq_ok h
      exact ⟨.codeblock, ready_block t, rfl⟩
    | name | typeList | typedIdent | params =>
      obtain ⟨-, rfl⟩ := requiring_eq_ok h
      exact builds_plain (by decide) (by simp [Part.Plain, Part.mark, Production.piece,
        Piece.holdsIf])
    | externalVariable =>
      obtain ⟨-, rfl⟩ := requiring_eq_ok h
      exact ⟨.typedIdent, ready_plain _ (by decide) (by simp [Part.Plain, Part.mark,
        Production.piece, Piece.holdsIf]), _, awaits_plainPiece rfl (by decide), rfl⟩
    | func =>
      cases h
      exact ⟨.loose, ready_funcFrom hloose t, rfl⟩
    | whileLoop =>
      cases h
      exact ⟨.loose, ready_whileFrom hloose t, rfl⟩
    | ifElse =>
      cases h
      exact ⟨.ifElse, ready_ifFrom ⟨rfl, by decide⟩ t, rfl⟩
    | signed | parenthesized | pointerType | arrayType | funcType | mod | declare | variadic
    | external | externalFunction | typeAlias | returned =>
      cases h
      exact builds_plain (by decide) (by simp [Part.Plain, Part.mark, Production.piece,
        Piece.holdsIf])
  operation _ hn _ _ h := operation_placing (hn.noIf rfl) h
  expr hn _ := placing_of_noIf (hn.noIf rfl).wrapped

/-- A stack on the way to a piece is still so behind the tokens that it takes. -/
theorem Takes.builds {C : Piece → Token → Node → Prop} (hC : Closed C anyToken) {p : Piece}
    {ts : List Token} {stack last : Stack} (h : Takes ts stack last)
    (hs : Builds C anyToken p stack) : Builds C anyToken p last := by
  induction ts generalizing stack with
  | nil =>
    obtain rfl : stack = last := h
    exact hs
  | cons t ts ih =>
    obtain ⟨next, hfeed, hrest⟩ := h
    exact ih hrest ((feed_meets hC hs).2 next hfeed trivial)

/-- **In a file, every `if` is reached through roles that hold statements.** -/
theorem wellPlaced_of_takes {ts : List Token} {last : Stack} {t : Token} {root : Node}
    (h : Takes ts [sourceFile] last) (hdone : feed t last = .done root) : root.WellPlaced := by
  have hfile : Builds Placing anyToken .file [sourceFile] := ⟨.file, ready_file, rfl⟩
  exact ((feed_meets closed_placing (h.builds closed_placing hfile)).1 root hdone).1

/-- Only a production for an `if` leads to one, among those that parts ask for. -/
theorem eq_ifElse_of_isIf {p : Production} {first t : Token} {ts : List Token} {last frames : Stack}
    {m : Node} (hp : p.Used) (hbegin : p.begin first = .ok frames) (h : Takes ts frames last)
    (hdone : feed t last = .done m) (hm : m.IsIf) : p = .ifElse := by
  have hbuilds := closed_placing.start trivial hbegin
  obtain ⟨-, hplain, hkind⟩ :=
    (feed_meets closed_placing (h.builds closed_placing hbuilds)).1 m hdone
  cases p with
  | ifElse => rfl
  | stmt | codeblock => exact absurd hm (hkind (by decide))
  | expr _ | literal | name | typeExpr | typeList | typedIdent | params | variadic
  | externalFunction | externalVariable => exact absurd hm (noIf_iff.mp (hplain rfl)).1
  | signed | parenthesized | pointerType | arrayType | funcType | mod | declare | external | func
  | typeAlias | whileLoop | returned => simp [Production.Used, Production.Asked] at hp

end Grammar
end BlockC

import BlockC.Proofs.LocalInvariant
import BlockC.Proofs.ProgramReading
import BlockC.Proofs.TreeContract

/-! # Operators and the levels of their operands

Expressions have levels, from assignments to those that hold together by themselves.  An operator
between two operands has operands of its own level or above on its left, and of higher levels on its
right; the other operators have bounds of their own (`Node.KeepsLevels`).

Whatever tokens an expression is read from, every node of its tree keeps to that
(`precedence_holds`).  The operand that is complete before an operator was closed by that operator:
all that it took in on its right holds tighter.  So the contract of the stack (`Leveled`) bounds the
level of an operand from below by the level of the token behind it.
-/
namespace BlockC
namespace Node

mutual

/-- A tree and all trees in it. -/
def nodes : Node → List Node
  | mk head children => mk head children :: nodesOf children

/-- Trees and all trees in them. -/
def nodesOf : List Node → List Node
  | [] => []
  | n :: rest => nodes n ++ nodesOf rest

end

theorem mem_nodesOf {m : Node} {ns : List Node} : m ∈ nodesOf ns ↔ ∃ n ∈ ns, m ∈ n.nodes := by
  induction ns with
  | nil => simp [nodesOf]
  | cons n ns ih => simp [nodesOf, ih]

/-- The levels of the operators between two operands, loosest first. -/
def operatorLevels : List (String × Nat) :=
  [("||", 3), ("&&", 4), ("|", 5), ("^", 6), ("&", 7), ("==", 8), ("!=", 8), ("<", 9), ("<=", 9),
   (">", 9), (">=", 9), ("<<", 10), (">>", 10), ("+", 11), ("-", 11), ("*", 12), ("/", 12),
   ("%", 12)]

/-- The kinds of literals. -/
def literalKinds : List String :=
  ["number_literal", "string_literal", "true_lit", "false_lit", "null_lit"]

/-- The kinds of expressions that are chosen by their first token. -/
def prefixKinds : List String :=
  literalKinds ++ ["ident_expr", "parenthesized_expr", "unary_expr"]

/-- The kinds of expressions that hold together by themselves. -/
def closedKinds : List String :=
  literalKinds ++ ["ident_expr", "call_expr", "parenthesized_expr"]

/-- The level of an expression without its wrapper. -/
def operandLevel? (n : Node) : Option Nat :=
  if n.kind = "assignment_expr" then some 1
  else if n.kind = "cond_expr" then some 2
  else if n.kind = "binary_expr" then
    (n.child? "operator").bind fun operator => operatorLevels.lookup operator.kind
  else if n.kind = "unary_expr" then some 13
  else if n.kind ∈ closedKinds then some 14
  else none

/-- The level of an expression, which is that of what its wrapper holds. -/
def level? (n : Node) : Option Nat :=
  if n.kind = "expr" then n.onlyNamedChild?.bind operandLevel? else none

/-- Whether an expression is a literal, a name, in parentheses, or a sign with its operand. -/
def IsPrefixForm (n : Node) : Prop :=
  ∃ inner, n.onlyNamedChild? = some inner ∧ inner.kind ∈ prefixKinds

/-- The child in a role is an expression, and its level has a property. -/
def HasOperand (n : Node) (field : String) (P : Nat → Prop) : Prop :=
  ∃ c p, n.child? field = some c ∧ c.level? = some p ∧ P p

/-- The operands of a node hold at least as tight as its operator asks for. -/
structure KeepsLevels (n : Node) : Prop where
  binary : n.kind = "binary_expr" → ∃ p, n.operandLevel? = some p ∧
    n.HasOperand "left" (p ≤ ·) ∧ n.HasOperand "right" (p < ·)
  condition : n.kind = "cond_expr" →
    n.HasOperand "condition" (3 ≤ ·) ∧ n.HasOperand "alternative" (2 ≤ ·)
  assignment : n.kind = "assignment_expr" → n.HasOperand "left" (2 ≤ ·)
  unary : n.kind = "unary_expr" → n.HasOperand "argument" (13 ≤ ·)
  call : n.kind = "call_expr" → ∃ c, n.child? "func_name" = some c ∧ c.kind = "ident_expr"

/-- The kinds of nodes that something is asked of. -/
def operationKinds : List String :=
  ["binary_expr", "cond_expr", "assignment_expr", "unary_expr", "call_expr"]

theorem keepsLevels_of_kind {n : Node} (h : n.kind ∉ operationKinds) : n.KeepsLevels := by
  constructor <;> intro hk <;> exact absurd (hk ▸ (by decide)) h

/-- Every node of a tree keeps to the levels. -/
def AllKeep (n : Node) : Prop :=
  ∀ m ∈ n.nodes, m.KeepsLevels

theorem allKeep_iff {n : Node} :
    n.AllKeep ↔ n.KeepsLevels ∧ ∀ c ∈ n.children, c.AllKeep := by
  obtain ⟨head, children⟩ := n
  simp only [AllKeep, nodes, List.forall_mem_cons, mem_nodesOf, children_mk]
  constructor
  · rintro ⟨hn, hall⟩
    exact ⟨hn, fun c hc m hm => hall m ⟨c, hc, hm⟩⟩
  · rintro ⟨hn, hall⟩
    refine ⟨hn, ?_⟩
    rintro m ⟨c, hc, hm⟩
    exact hall c hc m hm

/-- The role of a node does not matter to it. -/
theorem KeepsLevels.inField {n : Node} (h : n.KeepsLevels) (field : Option String) :
    (n.inField field).KeepsLevels :=
  ⟨h.binary, h.condition, h.assignment, h.unary, h.call⟩

theorem AllKeep.inField {n : Node} (h : n.AllKeep) (field : Option String) :
    (n.inField field).AllKeep := by
  rw [allKeep_iff] at h ⊢
  exact ⟨h.1.inField field, h.2⟩

@[simp] theorem operandLevel?_inField (n : Node) (field : Option String) :
    (n.inField field).operandLevel? = n.operandLevel? := rfl

theorem operandLevel?_of_closed {n : Node} (h : n.kind ∈ closedKinds) :
    n.operandLevel? = some 14 := by
  have hne : ∀ kind, kind ∉ closedKinds → n.kind ≠ kind := fun kind hkind heq => hkind (heq ▸ h)
  rw [operandLevel?, if_neg (hne _ (by decide)), if_neg (hne _ (by decide)),
    if_neg (hne _ (by decide)), if_neg (hne _ (by decide)), if_pos h]

theorem tag_not_mem_operationKinds (k : Kind) : k.tag ∉ operationKinds := by
  cases k with
  | eof | unknown | number | string | identifier => decide
  | punct p => cases p <;> decide
  | keyword w => cases w <;> decide

theorem allKeep_leaf (t : Token) : (leaf t).AllKeep :=
  allKeep_iff.mpr ⟨keepsLevels_of_kind (tag_not_mem_operationKinds t.kind), by simp⟩

theorem level?_wrapped {n : Node} (h : n.named = true) :
    (Grammar.wrapped n).level? = n.operandLevel? := by
  have hkind : (Grammar.wrapped n).kind = "expr" := rfl
  simp only [level?, hkind, if_pos, Grammar.onlyNamedChild?_wrapped h, Option.bind_some,
    operandLevel?_inField]

theorem allKeep_wrapped {n : Node} (h : n.AllKeep) : (Grammar.wrapped n).AllKeep := by
  have hkind : (Grammar.wrapped n).kind ∉ operationKinds := by
    change "expr" ∉ operationKinds
    decide
  refine allKeep_iff.mpr ⟨keepsLevels_of_kind hkind, ?_⟩
  intro c hc
  obtain rfl := List.mem_singleton.mp hc
  exact h.inField none

end Node

/-- The level of a token behind an operand; zero if it is no operator there. -/
def Kind.power (k : Kind) : Nat :=
  (k.behindOperand?.map fun found => found.1.rank).getD 0

theorem Kind.power_eq {k : Kind} {level : Level} {role : OperatorRole}
    (h : k.behindOperand? = some (level, role)) : k.power = level.rank := by
  simp [power, h]

namespace Grammar

open Node

/-- An operand of some level: it holds tighter than `above` or is chosen by its first token, and the
token behind it holds no tighter than the operand does.  Assignments and conditions take in all
operators of their own level on the right, so the token behind them is even looser. -/
def LeveledOperand (above : Level) (t : Token) (n : Node) : Prop :=
  n.named = true ∧ n.AllKeep ∧ ∃ p, n.operandLevel? = some p ∧
    (above.rank < p ∨ n.kind ∈ prefixKinds) ∧ t.kind.power ≤ p ∧ (p ≤ 2 → t.kind.power < p)

/-- What the levels come to for each piece that the grammar builds. -/
def Leveled : Piece → Token → Node → Prop
  | .expr above, t, n => n.AllKeep ∧
      (∃ p, n.level? = some p ∧ (above.rank < p ∨ n.IsPrefixForm ∧ 13 ≤ p)) ∧
      t.kind.power ≤ above.rank
  | .operand above, t, n => LeveledOperand above t n
  | _, _, n => n.AllKeep

/-- Nothing is asked of a token. -/
def anyToken (_ : Token) : Prop := True

/-- A piece of which only its nodes matter. -/
def Piece.IsPlain : Piece → Prop
  | .expr _ | .operand _ => False
  | _ => True

theorem leveled_of_plain {p : Piece} (hp : p.IsPlain) {t : Token} {n : Node} (h : n.AllKeep) :
    Leveled p t n := by
  cases p with
  | expr _ | operand _ => exact hp.elim
  | _ => exact h

theorem Leveled.allKeep {p : Piece} {t : Token} {n : Node} (h : Leveled p t n) : n.AllKeep := by
  cases p with
  | expr _ => exact h.1
  | operand _ => exact h.2.1
  | _ => exact h

/-! ### Forms without operators -/

/-- Whatever the parts of a node are, its children keep to the levels, and the node has the kind it
was opened with unless it is a slice type. -/
theorem fits_keep {next : Token} {kind kind' : String} {todo : List Part} {cs : List Node}
    (h : Fits Leveled anyToken next kind todo kind' cs) :
    (kind' = kind ∨ kind' = "slice_type") ∧ ∀ c ∈ cs, c.AllKeep := by
  induction h with
  | nil => exact ⟨Or.inl rfl, by simp⟩
  | token _ _ _ ih =>
    exact ⟨ih.1, List.forall_mem_cons.mpr ⟨(allKeep_leaf _).inField _, ih.2⟩⟩
  | node hn _ _ ih =>
    exact ⟨ih.1, List.forall_mem_cons.mpr ⟨hn.allKeep.inField _, ih.2⟩⟩
  | @choice kind kind' c k rest cs _ ih =>
    refine ⟨?_, ih.2⟩
    cases hname : c.rename? k with
    | none => simpa [hname] using ih.1
    | some name =>
      obtain ⟨-, rfl⟩ := rename?_eq_some hname
      exact Or.inr (by simpa [hname] using ih.1)

theorem allKeep_assemble {kind : String} {pos : Position} {cs : List Node}
    (hkind : kind ∉ operationKinds) (hcs : ∀ c ∈ cs, c.AllKeep) :
    (Node.assemble kind pos cs).AllKeep :=
  allKeep_iff.mpr ⟨keepsLevels_of_kind hkind, hcs⟩

section
variable {kind kind' : String} {done cs : List Node} {todo : List Part} {next : Token} {p : Piece}

/-- A node without operator keeps to the levels if its parts do. -/
theorem allKeep_fits (hkind : kind ∉ operationKinds) (hdone : ∀ c ∈ done, c.AllKeep)
    (h : Fits Leveled anyToken next kind todo kind' cs) :
    (Node.assemble kind' .origin (done.reverse ++ cs)).AllKeep := by
  obtain ⟨hkind', hcs⟩ := fits_keep h
  refine allKeep_assemble ?_ (List.forall_mem_append.mpr ⟨by simpa using hdone, hcs⟩)
  rcases hkind' with rfl | rfl
  · exact hkind
  · decide

theorem ready_opened (p : Piece) (hp : p.IsPlain) (hkind : kind ∉ operationKinds) {t : Token}
    {field : Option String} (t' : Token) :
    (opened kind t field todo).Ready Leveled anyToken p t' := by
  intro next kind' cs _ hfits
  exact leveled_of_plain hp
    (allKeep_fits hkind (by simpa using (allKeep_leaf t).inField field) hfits)

theorem builds_opened (hp : p.IsPlain) (hkind : kind ∉ operationKinds) {t : Token}
    {field : Option String} : Builds Leveled anyToken p [opened kind t field todo] :=
  ⟨p, ready_opened p hp hkind, rfl⟩

/-- A wrapper without operator. -/
theorem awaits_plain {q : Piece} {field : Option String} (hp : p.IsPlain)
    (hkind : kind ∉ operationKinds) :
    (Frame.partly kind [] [.hole field]).Awaits Leveled anyToken q p := by
  intro t n next kind' cs hn _ hfits
  obtain ⟨rfl, rfl⟩ := fits_nil.mp hfits
  refine leveled_of_plain hp (allKeep_assemble hkind ?_)
  simpa using hn.allKeep.inField field

end

/-! ### Operands -/

theorem Level.rank_le (l : Level) : l.rank ≤ 14 := by
  cases l <;> decide

theorem power_le (k : Kind) : k.power ≤ 14 := by
  cases h : k.behindOperand? with
  | none => simp [Kind.power, h]
  | some found =>
    rw [Kind.power_eq h]
    exact Level.rank_le found.1

section
variable {above : Level} {t : Token} {n : Node}

/-- An operand that is chosen by its first token, and is no sign. -/
theorem leveledOperand_of_prefix (hnamed : n.named = true) (hkeep : n.AllKeep)
    (hkind : n.kind ∈ literalKinds ++ ["ident_expr", "parenthesized_expr"]) (next : Token) :
    LeveledOperand above next n := by
  have hprefix : n.kind ∈ prefixKinds := (by decide : literalKinds ++ _ ⊆ prefixKinds) hkind
  have hclosed : n.kind ∈ closedKinds := (by decide : literalKinds ++ _ ⊆ closedKinds) hkind
  exact ⟨hnamed, hkeep, 14, operandLevel?_of_closed hclosed, Or.inr hprefix, power_le _, by omega⟩

/-- Expressions that are chosen by their first token hold at least as tight as signs do. -/
theorem le_level_of_prefix {p : Nat} (hkind : n.kind ∈ prefixKinds)
    (hlevel : n.operandLevel? = some p) : 13 ≤ p := by
  by_cases hsign : n.kind = "unary_expr"
  · simp [operandLevel?, hsign] at hlevel
    omega
  · have hclosed : n.kind ∈ closedKinds := by
      simp only [prefixKinds, closedKinds, List.mem_append, List.mem_cons, List.not_mem_nil,
        or_false] at hkind ⊢
      grind
    rw [operandLevel?_of_closed hclosed] at hlevel
    cases hlevel
    decide

theorem leveled_wrapped (h : LeveledOperand above t n) (ht : t.kind.power ≤ above.rank) :
    Leveled (.expr above) t (wrapped n) := by
  obtain ⟨hnamed, hkeep, p, hlevel, hroot, -, -⟩ := h
  refine ⟨allKeep_wrapped hkeep, ⟨p, (level?_wrapped hnamed).trans hlevel, ?_⟩, ht⟩
  refine hroot.imp id fun hkind => ⟨⟨_, onlyNamedChild?_wrapped hnamed, hkind⟩, ?_⟩
  exact le_level_of_prefix hkind hlevel

/-- The level of an expression that was read above a level. -/
theorem Leveled.level {c : Node} (h : Leveled (.expr above) t c) :
    ∃ p, c.level? = some p ∧ (above.rank < p ∨ 13 ≤ p) := by
  obtain ⟨-, ⟨p, hp, hroot⟩, -⟩ := h
  exact ⟨p, hp, hroot.imp id And.right⟩

theorem literal_tag {k : Kind} (h : k.isLiteral = true) :
    k.isNamed = true ∧ k.tag ∈ literalKinds := by
  match k, h with
  | .number, _ | .string, _ => decide
  | .keyword .trueKw, _ | .keyword .falseKw, _ | .keyword .nullKw, _ => decide

theorem leveled_literal (hk : t.kind.isLiteral = true) (next : Token) :
    LeveledOperand above next (.leaf t) :=
  leveledOperand_of_prefix (n := .leaf t) (literal_tag hk).1 (allKeep_leaf t)
    (List.mem_append_left _ (literal_tag hk).2) next

theorem leveled_name (t t' : Token) :
    (nameFrom t).Ready Leveled anyToken (.operand above) t' := by
  intro next kind' cs _ hfits
  have hparts : ∀ part ∈ [Part.choice .segments, .mark .dot, .token .identifier none],
      part.Within Leveled anyToken AllKeep
        [.choice .segments, .mark .dot, .token .identifier none] := by
    simp only [List.forall_mem_cons, List.not_mem_nil, false_imp_iff, implies_true, and_true]
    exact ⟨⟨by decide, by simp [Choice.options]⟩, fun u _ _ => (allKeep_leaf u).inField _,
      fun u _ _ => (allKeep_leaf u).inField _⟩
  obtain ⟨rfl, hcs⟩ := fits_all _ hparts hfits (by simp)
  refine leveledOperand_of_prefix rfl (allKeep_assemble (by decide) ?_) ?_ next
  · simpa using ⟨(allKeep_leaf t).inField none, hcs⟩
  · rw [kind_assemble]
    decide

theorem leveled_parenthesized (t t' : Token) :
    (parenthesizedFrom t).Ready Leveled anyToken (.operand above) t' := by
  intro next kind' cs _ hfits
  have hopen : ∀ c ∈ [(Node.leaf t).inField none], c.AllKeep :=
    List.forall_mem_singleton.mpr ((allKeep_leaf t).inField none)
  have hkeep := allKeep_fits (by decide) hopen hfits
  obtain ⟨u, inner, _, -, -, rfl, hrest⟩ := fits_node.mp hfits
  obtain ⟨v, _, -, -, rfl, hnil⟩ := fits_token.mp hrest
  obtain ⟨rfl, rfl⟩ := fits_nil.mp hnil
  refine leveledOperand_of_prefix rfl hkeep ?_ next
  rw [kind_assemble]
  decide

/-- A sign takes all operators that hold tighter than signs do, so none of those is behind it. -/
theorem leveled_signed (t t' : Token) :
    (signedFrom t).Ready Leveled anyToken (.operand above) t' := by
  intro next kind' cs _ hfits
  obtain ⟨u, argument, _, harg, hlast, rfl, hnil⟩ := fits_node.mp hfits
  obtain ⟨rfl, rfl⟩ := fits_nil.mp hnil
  obtain rfl := hlast rfl
  obtain ⟨p, hp, hlevel⟩ := harg.level
  have htight : 13 ≤ p := by
    rcases hlevel with hlt | hle
    · exact Nat.le_of_lt hlt
    · exact hle
  refine ⟨rfl, allKeep_iff.mpr ⟨?_, ?_⟩, 13, rfl, Or.inr (by rw [kind_assemble]; decide),
    harg.2.2, by omega⟩
  · constructor <;> intro hk <;> simp at hk
    exact ⟨_, p, rfl, hp, htight⟩
  · simpa using ⟨(allKeep_leaf t).inField _, harg.allKeep.inField _⟩

/-! ### Operators -/

/-- The levels of the operators between two operands are those of the table. -/
theorem operatorLevels_of_behindOperand {k : Kind} {level : Level}
    (h : k.behindOperand? = some (level, .binary)) :
    operatorLevels.lookup k.tag = some level.rank ∧ 2 < level.rank ∧ level.rank < 13 := by
  match k with
  | .punct p => cases p <;> cases h <;> decide

theorem rank_of_behindOperand {k : Kind} {level : Level} {role : OperatorRole}
    (h : k.behindOperand? = some (level, role)) :
    (role = .assignment → level.rank = 1) ∧ (role = .conditional → level.rank = 2) ∧
      (role = .call → level.rank = 14) := by
  match k with
  | .punct p => cases p <;> cases h <;> decide

section
variable {level : Level} {frames : List Frame}

theorem binary_levels (hn : LeveledOperand above t n)
    (hop : t.kind.behindOperand? = some (level, .binary)) (habove : above.rank < level.rank) :
    Builds Leveled anyToken (.operand above) [.partly "binary_expr"
      [(Node.leaf t).inField (some "operator"), (wrapped n).inField (some "left")]
      [.node (.expr level) (some "right")]] := by
  obtain ⟨hnamed, hkeep, p, hlevel, -, hbehind, -⟩ := hn
  obtain ⟨htable, hlow, hhigh⟩ := operatorLevels_of_behindOperand hop
  rw [Kind.power_eq hop] at hbehind
  refine ⟨.operand above, fun t' next kind' cs _ hfits => ?_, rfl⟩
  obtain ⟨u, right, _, hright, hlast, rfl, hnil⟩ := fits_node.mp hfits
  obtain ⟨rfl, rfl⟩ := fits_nil.mp hnil
  obtain rfl := hlast rfl
  obtain ⟨q, hq, hrank⟩ := hright.level
  have hown : (Node.assemble "binary_expr" .origin [(wrapped n).inField (some "left"),
      (Node.leaf t).inField (some "operator"), right.inField (some "right")]).operandLevel? =
      some level.rank := htable
  refine ⟨rfl, allKeep_iff.mpr ⟨?_, ?_⟩, level.rank, hown, Or.inl habove, hright.2.2, by omega⟩
  · constructor <;> intro hk <;> simp at hk
    refine ⟨level.rank, hown, ⟨_, p, rfl, (level?_wrapped hnamed).trans hlevel, hbehind⟩,
      ⟨_, q, rfl, hq, ?_⟩⟩
    change level.rank < q
    omega
  · simpa using ⟨(allKeep_wrapped hkeep).inField _, (allKeep_leaf t).inField _,
      hright.allKeep.inField _⟩

theorem assignment_levels (hn : LeveledOperand above t n)
    (hop : t.kind.behindOperand? = some (level, .assignment)) (habove : above.rank < level.rank) :
    Builds Leveled anyToken (.operand above) [.partly "assignment_expr"
      [(Node.leaf t).inField (some "operator"), (wrapped n).inField (some "left")]
      [.node (.expr .lowest) (some "right")]] := by
  obtain ⟨hnamed, hkeep, p, hlevel, -, hbehind, hstrict⟩ := hn
  have hrank := (rank_of_behindOperand hop).1 rfl
  rw [Kind.power_eq hop, hrank] at hbehind hstrict
  refine ⟨.operand above, fun t' next kind' cs _ hfits => ?_, rfl⟩
  obtain ⟨u, right, _, hright, hlast, rfl, hnil⟩ := fits_node.mp hfits
  obtain ⟨rfl, rfl⟩ := fits_nil.mp hnil
  obtain rfl := hlast rfl
  -- The right side takes in every operator, so none is left behind it.
  have hnone : next.kind.power ≤ 0 := hright.2.2
  refine ⟨rfl, allKeep_iff.mpr ⟨?_, ?_⟩, 1, rfl, Or.inl (hrank ▸ habove), by omega, by omega⟩
  · constructor <;> intro hk <;> simp at hk
    refine ⟨_, p, rfl, (level?_wrapped hnamed).trans hlevel, ?_⟩
    change 2 ≤ p
    omega
  · simpa using ⟨(allKeep_wrapped hkeep).inField _, (allKeep_leaf t).inField _,
      hright.allKeep.inField _⟩

theorem condition_levels (hn : LeveledOperand above t n)
    (hop : t.kind.behindOperand? = some (level, .conditional)) (habove : above.rank < level.rank) :
    Builds Leveled anyToken (.operand above) [.partly "cond_expr"
      [Node.leaf t, (wrapped n).inField (some "condition")]
      [.node (.expr .lowest) (some "consequence"), .mark .colon,
       .node (.expr .assignment) (some "alternative")]] := by
  obtain ⟨hnamed, hkeep, p, hlevel, -, hbehind, hstrict⟩ := hn
  have hrank := (rank_of_behindOperand hop).2.1 rfl
  rw [Kind.power_eq hop, hrank] at hbehind hstrict
  refine ⟨.operand above, fun t' next kind' cs _ hfits => ?_, rfl⟩
  obtain ⟨u, yes, _, hyes, -, rfl, hcolon⟩ := fits_node.mp hfits
  obtain ⟨v, _, -, -, rfl, hrest⟩ := fits_token.mp hcolon
  obtain ⟨w, no, _, hno, hlast, rfl, hnil⟩ := fits_node.mp hrest
  obtain ⟨rfl, rfl⟩ := fits_nil.mp hnil
  obtain rfl := hlast rfl
  obtain ⟨q, hq, hroot⟩ := hno.level
  -- The alternative takes in further conditions, so only an assignment is left behind it.
  have hloose : next.kind.power ≤ 1 := hno.2.2
  have hone : Level.assignment.rank = 1 := rfl
  refine ⟨rfl, allKeep_iff.mpr ⟨?_, ?_⟩, 2, rfl, Or.inl (hrank ▸ habove), by omega, by omega⟩
  · constructor <;> intro hk <;> simp at hk
    refine ⟨⟨_, p, rfl, (level?_wrapped hnamed).trans hlevel, ?_⟩, ⟨_, q, rfl, hq, ?_⟩⟩
    · change 3 ≤ p
      omega
    · change 2 ≤ q
      omega
  · simpa using ⟨(allKeep_wrapped hkeep).inField _, allKeep_leaf t, hyes.allKeep.inField _,
      (allKeep_leaf v).inField _, hno.allKeep.inField _⟩

theorem call_levels (hn : LeveledOperand above t n)
    (hop : t.kind.behindOperand? = some (level, .call)) (habove : above.rank < level.rank)
    (h : operation? (wrapped n) t level .call = some frames) :
    Builds Leveled anyToken (.operand above) frames := by
  obtain ⟨hnamed, hkeep, -⟩ := hn
  have hrank := (rank_of_behindOperand hop).2.2 rfl
  rw [operation?, onlyNamedChild?_wrapped hnamed] at h
  simp only [Node.kind_inField, beq_iff_eq] at h
  split at h
  · rename_i hident
    cases h
    refine ⟨.arguments, ready_opened .arguments trivial (by decide), .operand above, ?_, rfl⟩
    intro u args next kind' cs hargs _ hfits
    obtain ⟨rfl, rfl⟩ := fits_nil.mp hfits
    refine ⟨rfl, allKeep_iff.mpr ⟨?_, ?_⟩, 14, rfl, Or.inl (hrank ▸ habove), power_le _, by omega⟩
    · constructor <;> intro hk <;> simp at hk
      exact ⟨_, rfl, hident⟩
    · simpa using ⟨(hkeep.inField none).inField _, hargs.allKeep.inField _⟩
  · cases h

/-- Operators keep to the levels of their operands. -/
theorem operation_levels {role : OperatorRole} (hn : LeveledOperand above t n)
    (hop : t.kind.behindOperand? = some (level, role)) (habove : above.rank < level.rank)
    (h : operation? (wrapped n) t level role = some frames) :
    Builds Leveled anyToken (.operand above) frames := by
  cases role with
  | binary =>
    cases h
    exact binary_levels hn hop habove
  | assignment =>
    cases h
    exact assignment_levels hn hop habove
  | conditional =>
    cases h
    exact condition_levels hn hop habove
  | call => exact call_levels hn hop habove h

/-! ### The contract is closed -/

theorem expr_levels (h : exprFrom above t = .ok frames) :
    Builds Leveled anyToken (.expr above) frames := by
  cases exprBegins_of_ok h with
  | literal hk => exact ⟨.expr above, fun t' => ⟨rfl, _, rfl, leveled_literal hk t'⟩, rfl⟩
  | name hk => exact ⟨.operand above, leveled_name t, _, ⟨rfl, rfl⟩, rfl⟩
  | parenthesized hk => exact ⟨.operand above, leveled_parenthesized t, _, ⟨rfl, rfl⟩, rfl⟩
  | signed hk => exact ⟨.operand above, leveled_signed t, _, ⟨rfl, rfl⟩, rfl⟩

theorem type_levels (h : typeFrom t = .ok frames) :
    Builds Leveled anyToken .typeExpr frames := by
  have hwrap : (Frame.partly "type_expr" [] [.hole none]).Awaits Leveled anyToken
      .typeForm .typeExpr := awaits_plain (by trivial) (by decide)
  unfold typeFrom at h
  split at h <;> cases h <;>
    exact ⟨.typeForm, ready_opened .typeForm trivial (by decide), _, hwrap, rfl⟩

theorem stmt_levels (h : stmtFrom t = .ok frames) : Builds Leveled anyToken .stmt frames := by
  have hwrap : ∀ q : Piece, (Frame.partly "stmt" [] [.hole none]).Awaits Leveled anyToken
      q .stmt := fun _ => awaits_plain (by trivial) (by decide)
  cases stmtBegins_of_ok h with
  | form hf =>
    unfold stmtFrame? at hf
    split at hf <;> cases hf <;>
      exact ⟨.form, ready_opened .form trivial (by decide), _, hwrap .form, rfl⟩
  | expr he => exact builds_append (expr_levels he) ⟨_, hwrap _, rfl⟩

end

/-- What can be read as an operand can be read by itself. -/
theorem builds_loose_operand {f : Frame} (hpartly : ∃ kind done todo, f = .partly kind done todo)
    (h : ∀ t', f.Ready Leveled anyToken (.operand .lowest) t') :
    Builds Leveled anyToken .loose [f] := by
  obtain ⟨kind, done, todo, rfl⟩ := hpartly
  exact ⟨.loose, fun t' next kind' cs hlast hfits =>
    leveled_of_plain (p := .loose) trivial (h t' next kind' cs hlast hfits).allKeep, rfl⟩

theorem closed_leveled : Closed Leveled anyToken where
  start := by
    intro p t frames _ h
    cases p with
    | expr above => exact expr_levels h
    | typeExpr => exact type_levels h
    | stmt => exact stmt_levels h
    | literal =>
      simp only [Production.begin] at h
      split at h
      · rename_i hk
        cases h
        exact ⟨.operand .call, leveled_literal hk, rfl⟩
      · cases h
    | name =>
      obtain ⟨-, rfl⟩ := requiring_eq_ok h
      exact ⟨.operand .call, leveled_name t, rfl⟩
    | signed =>
      cases h
      exact builds_loose_operand ⟨_, _, _, rfl⟩ (leveled_signed t)
    | parenthesized =>
      cases h
      exact builds_loose_operand ⟨_, _, _, rfl⟩ (leveled_parenthesized t)
    | typeList | typedIdent | params | codeblock =>
      obtain ⟨-, rfl⟩ := requiring_eq_ok h
      exact builds_opened (by trivial) (by decide)
    | externalVariable =>
      obtain ⟨-, rfl⟩ := requiring_eq_ok h
      exact ⟨.typedIdent, ready_opened .typedIdent trivial (by decide), _,
        awaits_plain (by trivial) (by decide), rfl⟩
    | pointerType | arrayType | funcType | mod | declare | variadic | external | externalFunction
    | func | typeAlias | whileLoop | ifElse | returned =>
      cases h
      exact builds_opened (by trivial) (by decide)
  operation _ hn hop habove h := operation_levels hn hop habove h
  expr {n t above} hn ht := by
    refine leveled_wrapped hn ?_
    cases hop : t.kind.behindOperand? with
    | none => simp [Kind.power, hop]
    | some found =>
      rw [Kind.power_eq hop]
      exact ht _ _ hop

/-- Whatever is read keeps to the levels, and fits the token that the reading ends at. -/
theorem read_leveled {s : Stream} {p : Production} {n : Node} (h : (s.read p).result = .ok n) :
    Leveled p.piece (s.read p).stream.current n := by
  unfold Stream.read at h ⊢
  cases hb : p.begin s.current with
  | error request => simp [hb] at h
  | ok frames =>
    simp only [hb] at h ⊢
    exact drive_meets closed_leveled (closed_leveled.start trivial hb) (fun _ _ => trivial) h

end

end Grammar

open Grammar

/-- **Operators hold their operands by level.**  Whatever tokens are ahead, if an expression above a
level is read from them, then at every node of its tree the operands hold as tight as the operator
asks for; the expression itself holds tighter than the level, or was chosen by its first token; and
the next token does not hold tighter than the level. -/
theorem precedence_holds (s : Stream) (above : Level) (n : Node)
    (h : (s.read (.expr above)).result = .ok n) :
    (∀ m ∈ n.nodes, m.KeepsLevels) ∧
      (∃ p, n.level? = some p ∧ (¬ n.IsPrefixForm → above.rank < p)) ∧
      (s.read (.expr above)).stream.current.kind.power ≤ above.rank := by
  obtain ⟨hkeep, ⟨p, hp, hroot⟩, hnext⟩ := read_leveled h
  refine ⟨hkeep, ⟨p, hp, fun hprefix => ?_⟩, hnext⟩
  rcases hroot with hlt | ⟨hform, -⟩
  · exact hlt
  · exact absurd hform hprefix

/-- A condition over differences and a product, which ends before an assignment.  The levels of its
expressions are listed with the outer ones first. -/
theorem condition_ends_before_assignment :
    ∃ s n, s = Stream.ofString "a - b * -f(c) - d ? e : g = h" ∧
      (s.read (.expr .assignment)).result = .ok n ∧
      n.nodes.filterMap Node.operandLevel? = [2, 11, 11, 14, 12, 14, 13, 14, 14, 14, 14, 14, 14] ∧
      n.level? = some 2 ∧ (∀ m ∈ n.nodes, m.KeepsLevels) ∧
      (s.read (.expr .assignment)).stream.current.kind.power ≤ 1 := by
  obtain ⟨s, hs⟩ : ∃ s, s = Stream.ofString "a - b * -f(c) - d ? e : g = h" := ⟨_, rfl⟩
  have hread : ((s.read (.expr .assignment)).result.toOption.map fun n =>
      (n.nodes.filterMap Node.operandLevel?, n.level?)) =
      some ([2, 11, 11, 14, 12, 14, 13, 14, 14, 14, 14, 14, 14], some 2) := by
    rw [hs]
    decide +kernel
  cases h : (s.read (.expr .assignment)).result with
  | error fault =>
    rw [h] at hread
    cases hread
  | ok n =>
    rw [h] at hread
    obtain ⟨hlevels, hlevel⟩ := Prod.mk.inj (Option.some.inj hread)
    obtain ⟨hkeep, -, hnext⟩ := precedence_holds s .assignment n h
    exact ⟨s, n, hs, h, hlevels, hlevel, hkeep, hnext⟩

end BlockC

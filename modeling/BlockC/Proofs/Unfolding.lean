import BlockC.Proofs.IfPlaces
import BlockC.Proofs.LeafConservation
import BlockC.Proofs.ReadingAlike

/-! # A further `if` as a block

Behind `else` stands a block or a further `if`.  A further `if` is *unfolded* by making it the only
statement of a block, which takes two more tokens (`Node.Unfolds`).  In a tree of the parser this
can be done wherever a further `if` occurs (`Node.Occurs.unfolds`).  What such a tree is read as
stays the same but for its places (`stmtsOf_unfolds`), since a further `if` is read as a block with
one statement anyway.
-/
namespace BlockC

namespace Node

/-- An `if` in the place of an alternative. -/
def IsFurther (n : Node) : Prop :=
  n.IsIf ∧ n.field = some "alternative"

instance (n : Node) : Decidable n.IsFurther :=
  inferInstanceAs (Decidable (_ ∧ _))

/-- The block that has one statement between its words. -/
def block (d e : Token) (n : Node) : Node :=
  assemble "codeblock" .origin [leaf d, assemble "stmt" .origin [n.inField none], leaf e]

/-- One further `if` becomes a block between `d` and `e`. -/
inductive Unfolds (d e : Token) : Node → Node → Prop
  | here {n : Node} (h : n.IsFurther) :
      Unfolds d e n ((block d e n).inField (some "alternative"))
  | inside {head : NodeHead} {before behind : List Node} {n n' : Node}
      (role : (head.kind, n.field) ∈ bodyRoles) (h : Unfolds d e n n') :
      Unfolds d e (.mk head (before ++ n :: behind))
        (.mk { head with span := extent .origin (before ++ n' :: behind) }
          (before ++ n' :: behind))

section
variable {d e : Token} {n n' : Node}

theorem Unfolds.field (h : n.Unfolds d e n') : n'.field = n.field := by
  cases h with
  | here h => exact h.2.symm
  | inside _ _ => rfl

theorem Unfolds.named (h : n.Unfolds d e n') : n'.named = n.named := by
  cases h with
  | here h => exact h.1.2.symm
  | inside _ _ => rfl

/-- Only a further `if` becomes something else. -/
theorem Unfolds.head_alike (h : n.Unfolds d e n') (hn : ¬ n.IsFurther) :
    n.head.Alike Grammar.nowhere n'.head := by
  cases h with
  | here h => exact absurd h hn
  | inside _ _ => exact ⟨rfl, rfl, rfl, rfl, rfl, rfl⟩

/-- What is unfolded can hold statements. -/
theorem Unfolds.kind_mem (h : n.Unfolds d e n') : n.kind ∈ bodyRoles.map Prod.fst := by
  cases h with
  | here h =>
    rw [h.1.1]
    decide
  | inside role _ => exact List.mem_map_of_mem role

theorem not_unfolds_leaf (t : Token) (field : Option String) :
    ¬ ((leaf t).inField field).Unfolds d e n' := by
  intro h
  generalize hleaf : (leaf t).inField field = m at h
  cases h with
  | here h =>
    rw [← hleaf] at h
    exact not_isIf_leaf t h.1
  | inside _ _ =>
    have hchildren := congrArg Node.children hleaf
    simp [leaf] at hchildren

/-- A node in a role is unfolded below, or it is a further `if` there. -/
theorem unfolds_inField {field : Option String} (h : (n.inField field).Unfolds d e n') :
    (∃ m, n.Unfolds d e m ∧ n' = m.inField field) ∨
      n.IsIf ∧ field = some "alternative" ∧ n' = (block d e n).inField field := by
  obtain ⟨head, cs⟩ := n
  generalize hn : (mk head cs).inField field = m at h
  cases h with
  | here h =>
    subst hn
    have hfield : field = some "alternative" := h.2
    subst hfield
    exact Or.inr ⟨h.1, rfl, rfl⟩
  | inside role h =>
    injection hn with hhead hcs
    subst hhead hcs
    exact Or.inl ⟨_, .inside role h, rfl⟩

theorem unfolds_assemble {kind : String} {cs : List Node}
    (h : (assemble kind .origin cs).Unfolds d e n') :
    ∃ (before : List Node) (c c' : Node) (behind : List Node), cs = before ++ c :: behind ∧
      c.Unfolds d e c' ∧ n' = assemble kind .origin (before ++ c' :: behind) := by
  generalize hm : assemble kind .origin cs = m at h
  cases h with
  | here h =>
    rw [← hm] at h
    cases h.2
  | inside role h =>
    injection hm with hhead hcs
    subst hhead hcs
    exact ⟨_, _, _, _, rfl, h, rfl⟩

end

/-! ### Places in a tree -/

/-- The node occurs in the tree, with these leaves before and behind it. -/
inductive Occurs (m : Node) : Node → List Node → List Node → Prop
  | self : Occurs m m [] []
  | inside {head : NodeHead} {before behind front back : List Node} {c : Node}
      (h : Occurs m c front back) :
      Occurs m (.mk head (before ++ c :: behind)) (fringeOf before ++ front)
        (back ++ fringeOf behind)

section
variable {m n : Node} {front back : List Node}

theorem fringe_mk (head : NodeHead) {cs : List Node} (h : cs ≠ []) :
    (mk head cs).fringe = fringeOf cs := by
  cases cs with
  | nil => exact absurd rfl h
  | cons c cs => rfl

mutual

theorem occurs_of_mem {m : Node} : ∀ {n : Node}, m ∈ n.nodes →
    ∃ front back, m.Occurs n front back
  | .mk head cs, h => by
    rcases List.mem_cons.mp h with rfl | h
    · exact ⟨[], [], .self⟩
    · obtain ⟨before, c, behind, front, back, rfl, hc⟩ := occurs_of_mem_nodesOf h
      exact ⟨_, _, .inside hc⟩
termination_by structural n => n

theorem occurs_of_mem_nodesOf {m : Node} : ∀ {cs : List Node}, m ∈ nodesOf cs →
    ∃ before c behind front back, cs = before ++ c :: behind ∧ m.Occurs c front back
  | [], h => by simp [nodesOf] at h
  | c :: cs, h => by
    rcases List.mem_append.mp h with h | h
    · obtain ⟨front, back, hc⟩ := occurs_of_mem h
      exact ⟨[], c, cs, front, back, rfl, hc⟩
    · obtain ⟨before, c', behind, front, back, rfl, hc⟩ := occurs_of_mem_nodesOf h
      exact ⟨c :: before, c', behind, front, back, rfl, hc⟩
termination_by structural cs => cs

end

theorem Occurs.mem (h : m.Occurs n front back) : m ∈ n.nodes := by
  induction h with
  | self =>
    obtain ⟨head, cs⟩ := m
    simp [nodes]
  | @inside head before behind front back c _ ih =>
    exact List.mem_cons_of_mem _ (mem_nodesOf.mpr ⟨c, by simp, ih⟩)

theorem Occurs.fringe (h : m.Occurs n front back) : n.fringe = front ++ m.fringe ++ back := by
  induction h with
  | self => simp
  | inside _ ih => simp [fringe_mk, ih]

theorem fringe_block (d e : Token) (m : Node) :
    (block d e m).fringe = leaf d :: m.fringe ++ [leaf e] := by
  simp [block, fringe_assemble]

/-- **Wherever a further `if` occurs in a tree of the parser, it can be unfolded.** -/
theorem Occurs.unfolds (d e : Token) (h : m.Occurs n front back) (hn : n.WellPlaced)
    (hm : m.IsFurther) : ∃ n', n.Unfolds d e n' ∧
      n'.fringe = front ++ leaf d :: m.fringe ++ leaf e :: back := by
  induction h with
  | self => exact ⟨_, .here hm, by simp [fringe_block]⟩
  | @inside head before behind front back c hc ih =>
    cases hn with
    | mk child role =>
      have hmem : c ∈ before ++ c :: behind := by simp
      have hif : ¬ c.NoIf := fun hno => hno m hc.mem hm.1
      obtain ⟨c', hunfolds, hfringe⟩ := ih (child c hmem hif)
      refine ⟨_, .inside (role c hmem hif) hunfolds, ?_⟩
      simp [fringe_mk, hfringe]

variable {g : Position → Position} {E : Span → Span → Prop}

mutual

theorem Alike.length_fringe : ∀ {n n' : Node}, n.Alike g E n' → n.fringe.length = n'.fringe.length
  | .mk head [], .mk head' cs', h => by
    cases cs' with
    | nil => rfl
    | cons c' cs' => exact h.2.1.elim
  | .mk head (c :: cs), .mk head' cs', h => by
    cases cs' with
    | nil => exact h.2.1.elim
    | cons c' cs' =>
      rw [fringe_mk head (List.cons_ne_nil _ _), fringe_mk head' (List.cons_ne_nil _ _)]
      simp only [fringeOf_cons, List.length_append, Alike.length_fringe h.2.1.1,
        length_fringeOf h.2.1.2]
termination_by structural n => n

theorem length_fringeOf : ∀ {cs cs' : List Node}, AllAlike g E cs cs' →
    (fringeOf cs).length = (fringeOf cs').length
  | [], [], _ => rfl
  | [], _ :: _, h => h.elim
  | _ :: _, [], h => h.elim
  | c :: cs, c' :: cs', h => by
    simp only [fringeOf_cons, List.length_append, Alike.length_fringe h.1, length_fringeOf h.2]
termination_by structural cs => cs

end

theorem AllAlike.split {before behind cs' : List Node} {c : Node}
    (h : AllAlike g E (before ++ c :: behind) cs') :
    ∃ before' c' behind', cs' = before' ++ c' :: behind' ∧ AllAlike g E before before' ∧
      c.Alike g E c' := by
  induction before generalizing cs' with
  | nil =>
    cases cs' with
    | nil => exact h.elim
    | cons c' behind' => exact ⟨[], c', behind', rfl, trivial, h.1⟩
  | cons b before ih =>
    cases cs' with
    | nil => exact h.elim
    | cons b' cs' =>
      obtain ⟨before', c', behind', rfl, hbefore, hc⟩ := ih h.2
      exact ⟨b' :: before', c', behind', rfl, ⟨h.1, hbefore⟩, hc⟩

theorem IsFurther.alike {m' : Node} (h : m.IsFurther) (hm : m.Alike g E m') : m'.IsFurther := by
  have hhead := (alike_iff.mp hm).1
  exact ⟨⟨hhead.kind.symm.trans h.1.1, hhead.named.symm.trans h.1.2⟩,
    hhead.field.symm.trans h.2⟩

/-- Trees of the same shape have nodes of the same shape in the same places. -/
theorem Occurs.alike {n' : Node} (h : m.Occurs n front back) (hn : n.Alike g E n') :
    ∃ m' front' back', m'.Occurs n' front' back' ∧ m.Alike g E m' ∧
      front.length = front'.length := by
  induction h generalizing n' with
  | self => exact ⟨n', [], [], .self, hn, rfl⟩
  | @inside head before behind front back c _ ih =>
    obtain ⟨head', cs'⟩ := n'
    obtain ⟨before', c', behind', rfl, hbefore, hc⟩ := AllAlike.split hn.2.1
    obtain ⟨m', front', back', hoccurs, hm, hfront⟩ := ih hc
    refine ⟨m', _, _, .inside hoccurs, hm, ?_⟩
    rw [List.length_append, List.length_append, hfront, length_fringeOf hbefore]

end
end Node

/-! ### What an unfolded tree is read as -/

namespace Surface

open Node Grammar

section
variable {source : ByteArray} {before behind : List Node} {n n' : Node}

/-- Statements of which one is changed. -/
theorem stmtsOf_change (hnamed : n'.named = n.named)
    (h : SameStmt nowhere (stmtOf source n) (stmtOf source n')) :
    SameStmts nowhere (stmtsOf source (before ++ n :: behind))
      (stmtsOf source (before ++ n' :: behind)) := by
  have hstmt : (stmtOf source n).moved nowhere = (stmtOf source n').moved nowhere := h
  induction before with
  | nil =>
    simp only [List.nil_append, stmtsOf, hnamed]
    split
    · simp only [SameStmts, Stmt.allMoved, hstmt]
    · rfl
  | cons b before ih =>
    simp only [List.cons_append, stmtsOf]
    split
    · simp only [SameStmts, Stmt.allMoved, show Stmt.allMoved nowhere _ = _ from ih]
    · exact ih

/-- A reading that takes the first node it can use. -/
def ReadsFirst {α : Type} (r : List Node → Option α) : Prop :=
  ∀ c rest, r (c :: rest) = (r [c]).or (r rest)

theorem readsFirst_inside : ReadsFirst (stmtInside source) := by
  rintro ⟨head, cs⟩ rest
  simp only [stmtInside]
  split <;> rfl

theorem readsFirst_block (field : String) : ReadsFirst (blockIn source field) := by
  rintro ⟨head, cs⟩ rest
  simp only [blockIn]
  split
  · split <;> rfl
  · rfl

theorem readsFirst_alternative : ReadsFirst (alternativeIn source) := by
  rintro ⟨head, cs⟩ rest
  simp only [alternativeIn]
  split
  · split
    · rfl
    · split <;> rfl
  · rfl

theorem ReadsFirst.change {α : Type} {r : List Node → Option α} {R : α → α → Prop}
    (hr : ReadsFirst r) (hR : ∀ a, R a a) (h : Option.Rel R (r [n]) (r [n']))
    (before behind : List Node) :
    Option.Rel R (r (before ++ n :: behind)) (r (before ++ n' :: behind)) := by
  have hrefl : ∀ x : Option α, Option.Rel R x x := by
    rintro (_ | a)
    · exact .none
    · exact .some (hR a)
  induction before with
  | nil =>
    rw [List.nil_append, List.nil_append, hr n, hr n']
    generalize r [n] = x, r [n'] = x' at h
    cases h with
    | none => exact hrefl _
    | some h => exact .some h
  | cons b before ih =>
    rw [List.cons_append, List.cons_append, hr b, hr b (before ++ n' :: behind)]
    cases r [b] with
    | none => exact ih
    | some a => exact .some (hR a)

/-! Nodes of which only one child is changed. -/

section
variable {field : String}

theorem childIn_change (hhead : n.head.Alike nowhere n'.head)
    (h : n'.child? field = n.child? field) :
    ReadAlike nowhere Eq (childIn n field) (childIn n' field) := by
  unfold childIn
  rw [h]
  cases n.child? field with
  | none => exact malformed_alike hhead _
  | some c => rfl

theorem readAlike_refl {α : Type} (r : Except Diagnostic α) : ReadAlike nowhere Eq r r := by
  cases r <;> rfl

theorem exprField_change (hhead : n.head.Alike nowhere n'.head)
    (h : n'.child? field = n.child? field) :
    (exprField source n field).moved nowhere = (exprField source n' field).moved nowhere := by
  unfold exprField
  refine (childIn_change hhead h).cases (fun c c' hc => ?_) fun _ _ hd => congrArg Expr.bad hd
  rw [hc]

theorem nameIn_change (hhead : n.head.Alike nowhere n'.head)
    (h : n'.child? field = n.child? field) :
    ReadAlike nowhere Eq (nameIn source n field) (nameIn source n' field) := by
  refine (childIn_change hhead h).bind fun c c' hc => ?_
  subst hc
  exact readAlike_refl _

theorem typeUseIn_change (hhead : n.head.Alike nowhere n'.head)
    (h : n'.child? field = n.child? field) :
    ReadAlike nowhere Eq (typeUseIn source n field) (typeUseIn source n' field) := by
  refine (childIn_change hhead h).bind fun c c' hc => ?_
  subst hc
  exact readAlike_refl _

end

theorem headerOf_change (hhead : n.head.Alike nowhere n'.head)
    (h : ∀ field, field ≠ "body" → n'.child? field = n.child? field) :
    ReadAlike nowhere (fun x x' => x.moved nowhere = x'.moved nowhere) (headerOf source n)
      (headerOf source n') := by
  refine (nameIn_change hhead (h "func_name" (by decide))).bind fun name name' hname => ?_
  subst hname
  have hreturns : Except.moved nowhere (TypeUse.moved nowhere) (typeUseIn source n "returns") =
      Except.moved nowhere (TypeUse.moved nowhere) (typeUseIn source n' "returns") :=
    (typeUseIn_change hhead (h "returns" (by decide))).cases (fun _ _ ha => by rw [ha])
      fun _ _ hd => congrArg Except.error hd
  refine (childIn_change hhead (h "params" (by decide))).cases (fun c c' hc => ?_) fun d d' hd => ?_
  · subst hc
    change Header.moved nowhere ⟨name, _, _, _⟩ = Header.moved nowhere ⟨name, _, _, _⟩
    simp only [Header.moved, hreturns]
  · change Header.moved nowhere ⟨name, [.bad d], d.pos, _⟩ =
      Header.moved nowhere ⟨name, [.bad d'], d'.pos, _⟩
    have hpos : nowhere d.pos = nowhere d'.pos := congrArg Diagnostic.pos hd
    simp only [Header.moved, hreturns, List.map_cons, List.map_nil, Param.moved, hd, hpos]

/-- Two nodes that are read as the same wherever a statement or a block is read. -/
structure ReadSame (source : ByteArray) (n n' : Node) : Prop where
  stmt : n'.kind = n.kind → SameStmt nowhere (stmtOf source n) (stmtOf source n')
  inside : n'.kind = n.kind →
    Option.Rel (SameStmt nowhere) (stmtInside source [n]) (stmtInside source [n'])
  block : ∀ field, field ≠ "alternative" →
    Option.Rel (SameBlock nowhere) (blockIn source field [n]) (blockIn source field [n'])
  alternative :
    Option.Rel (SameBlock nowhere) (alternativeIn source [n]) (alternativeIn source [n'])

section
variable {head head' : NodeHead} {cs cs' : List Node}

theorem readSame_mk (hhead : head.Alike nowhere head')
    (hstmts : head.kind = "codeblock" → SameStmts nowhere (stmtsOf source cs) (stmtsOf source cs'))
    (hinside : head.kind = "stmt" →
      Option.Rel (SameStmt nowhere) (stmtInside source cs) (stmtInside source cs'))
    (hform : SameStmt nowhere
      (stmtForm source (.mk head cs) (blockIn source · cs) fun _ => alternativeIn source cs)
      (stmtForm source (.mk head' cs') (blockIn source · cs') fun _ => alternativeIn source cs')) :
    ReadSame source (.mk head cs) (.mk head' cs') where
  stmt _ := by
    unfold stmtOf
    rw [← hhead.kind]
    split
    · rename_i hk
      have hsame := hinside (beq_iff_eq.mp hk)
      generalize stmtInside source cs = r, stmtInside source cs' = r' at hsame
      cases hsame with
      | none => exact congrArg Stmt.bad (malformed_alike hhead _)
      | some hr => exact hr
    · exact congrArg Stmt.bad (malformed_alike hhead _)
  inside _ := by
    simp only [stmtInside, ← hhead.named]
    split
    · exact .some hform
    · exact .none
  block field _ := by
    simp only [blockIn, ← hhead.field]
    split
    · exact block_alike hhead hstmts
    · exact .none
  alternative := by
    simp only [alternativeIn, ← hhead.field]
    split
    · refine alternative_alike hhead (fun hk => ?_) hstmts
      have hk' : head'.kind = "if" := hhead.kind ▸ hk
      simpa only [stmtForm, Node.kind, Node.head_mk, hk, hk'] using hform
    · exact .none

theorem child?_change (hfield : n'.field = n.field) {field : String}
    (h : n.field ≠ some field) :
    (Node.mk head' (before ++ n' :: behind)).child? field =
      (Node.mk head (before ++ n :: behind)).child? field := by
  simp [Node.child?, List.find?_append, hfield, h]

/-- How a node that holds statements is read, if one of these is changed. -/
theorem stmtForm_change (hhead : head.Alike nowhere head')
    (role : (head.kind, n.field) ∈ bodyRoles) (hfield : n'.field = n.field)
    (h : ReadSame source n n') :
    SameStmt nowhere
      (stmtForm source (.mk head (before ++ n :: behind)) (blockIn source · (before ++ n :: behind))
        fun _ => alternativeIn source (before ++ n :: behind))
      (stmtForm source (.mk head' (before ++ n' :: behind))
        (blockIn source · (before ++ n' :: behind))
        fun _ => alternativeIn source (before ++ n' :: behind)) := by
  have hkind := hhead.kind
  have hblock (field : String) (hne : field ≠ "alternative") :=
    (readsFirst_block field).change (fun b => show SameBlock nowhere b b from rfl)
      (h.block field hne) before behind
  have halternative := readsFirst_alternative.change
    (fun b => show SameBlock nowhere b b from rfl) h.alternative before behind
  have hchild (field : String) (hne : n.field ≠ some field) :
      (Node.mk head' (before ++ n' :: behind)).child? field =
        (Node.mk head (before ++ n :: behind)).child? field := child?_change hfield hne
  have hnode : (Node.mk head (before ++ n :: behind)).head.Alike nowhere
      (Node.mk head' (before ++ n' :: behind)).head := hhead
  simp only [bodyRoles, List.mem_cons, Prod.mk.injEq, List.not_mem_nil, or_false] at role
  rcases role with ⟨hk, hf⟩ | ⟨hk, hf⟩ | ⟨hk, hf⟩ | ⟨hk, hf⟩ | ⟨hk, hf⟩ | ⟨hk, hf⟩ | ⟨hk, hf⟩
  all_goals
    rw [hf] at hchild
    rw [hk] at hkind
    simp only [stmtForm, Node.kind, Node.head_mk, hk, ← hkind]
  · exact congrArg Stmt.bad (malformed_alike hhead _)
  · exact congrArg Stmt.bad (malformed_alike hhead _)
  · exact congrArg Stmt.bad (malformed_alike hhead _)
  · refine funcForm_alike hnode (headerOf_change hnode fun field hne => ?_)
      (hblock "body" (by decide))
    exact hchild field fun hbody => hne (Option.some.inj hbody).symm
  · exact whileForm_alike hnode (exprField_change hnode (hchild _ (by decide)))
      (hblock "body" (by decide))
  · exact ifForm_alike hnode (exprField_change hnode (hchild _ (by decide)))
      (hblock "consequence" (by decide)) halternative
  · exact ifForm_alike hnode (exprField_change hnode (hchild _ (by decide)))
      (hblock "consequence" (by decide)) halternative

end

/-- A further `if` is read as a block that has it as its only statement. -/
theorem readSame_block {d e : Token} (hd : d.kind.isNamed = false) (he : e.kind.isNamed = false)
    (h : n.IsFurther) :
    ReadSame source n ((Node.block d e n).inField (some "alternative")) := by
  have hkind : ((Node.block d e n).inField (some "alternative")).kind ≠ n.kind := by
    rw [h.1.1]
    exact (by decide : "codeblock" ≠ "if")
  obtain ⟨⟨hif, hnamed⟩, hfield⟩ := h
  have hself : n.inField (some "alternative") = n := by
    obtain ⟨head, cs⟩ := n
    rw [← hfield]
    rfl
  refine ⟨fun heq => absurd heq hkind, fun heq => absurd heq hkind, fun field hne => ?_, ?_⟩
  · have hother : some "alternative" ≠ some field := fun heq => hne (Option.some.inj heq).symm
    have hnone : blockIn source field [n.inField (some "alternative")] = none := blockIn_skip hother
    rw [← hself, hnone, blockIn_skip hother]
    exact .none
  · have hinside : stmtInside source [n] = some _ := stmtInside_named hnamed
    have hstmts : stmtsOf source (Node.block d e n).children =
        [stmtForm source n (blockIn source · n.children)
          fun _ => alternativeIn source n.children] := by
      have hleaf : (Node.leaf d).named = false ∧ (Node.leaf e).named = false := ⟨hd, he⟩
      simp [Node.block, stmtsOf, hleaf, stmtOf_wrapper .origin
        ((stmtInside_inField n none).trans hinside)]
    have hfurther : alternativeIn source [n.inField (some "alternative")] = some _ :=
      alternativeIn_if hnamed hif hinside
    rw [hself] at hfurther
    rw [hfurther, alternativeIn_block rfl, hstmts]
    exact .some rfl

theorem readSame_of_unfolds {d e : Token} (hd : d.kind.isNamed = false)
    (he : e.kind.isNamed = false) (h : n.Unfolds d e n') : ReadSame source n n' := by
  induction h with
  | here h => exact readSame_block hd he h
  | @inside head before behind n n' role hn ih =>
    have hhead : head.Alike nowhere
        { head with span := extent .origin (before ++ n' :: behind) } :=
      ⟨rfl, rfl, rfl, rfl, rfl, rfl⟩
    -- Statements of a block, and what a statement holds, have no role.
    have hplain (hk : head.kind = "codeblock" ∨ head.kind = "stmt") : n'.kind = n.kind := by
      refine (hn.head_alike fun hfurther => ?_).kind.symm
      rw [hfurther.2] at role
      rcases hk with hk | hk <;> rw [hk] at role <;> exact absurd role (by decide)
    refine readSame_mk hhead (fun hk => ?_) (fun hk => ?_) (stmtForm_change hhead role hn.field ih)
    · exact stmtsOf_change hn.named (ih.stmt (hplain (Or.inl hk)))
    · exact readsFirst_inside.change (fun s => show SameStmt nowhere s s from rfl)
        (ih.inside (hplain (Or.inr hk))) before behind

/-- **Unfolding changes nothing that a file is read as, but for its places.** -/
theorem stmtsOf_unfolds {d e : Token} (hd : d.kind.isNamed = false) (he : e.kind.isNamed = false)
    (h : n.Unfolds d e n') (hk : n.kind = "source_file") :
    SameStmts nowhere (stmtsOf source n.children) (stmtsOf source n'.children) := by
  cases h with
  | here h => exact absurd (h.1.1.symm.trans hk) (by decide)
  | @inside head before behind m m' role hm =>
    have hkind : m'.kind = m.kind := by
      refine (hm.head_alike fun hfurther => ?_).kind.symm
      rw [hfurther.2, show head.kind = "source_file" from hk] at role
      exact absurd role (by decide)
    exact stmtsOf_change hm.named ((readSame_of_unfolds hd he hm).stmt hkind)

end

end Surface
end BlockC

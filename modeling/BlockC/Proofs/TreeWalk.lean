import BlockC.Proofs.Precedence
import Mathlib.Data.List.Chain

/-! # The walk through a tree

The check of a tree keeps the trees that are still to be seen, and takes one node off them in each
round (`Node.Round`).  Written out, the nodes still to be seen are those of the pending trees, each
before its children and these from first to last; a round takes the first of them off
(`Round.nodesOf_eq`).  So there are no more rounds than nodes (`length_le_of_walk`), and what the
walk finds is what a search through the nodes in that order finds (`firstDefect?_eq_findSome?`).
-/
namespace BlockC
namespace Node

variable {source : ByteArray}

@[simp] theorem nodesOf_append (ms ns : List Node) :
    nodesOf (ms ++ ns) = nodesOf ms ++ nodesOf ns := by
  induction ms with
  | nil => rfl
  | cons m ms ih => simp [nodesOf, ih]

theorem nodesOf_cons (head : NodeHead) (children rest : List Node) :
    nodesOf (mk head children :: rest) = mk head children :: nodesOf (children ++ rest) := by
  simp [nodesOf, nodes]

/-- One round of the walk: nothing is wrong with the next node, and its children come next. -/
def Round (source : ByteArray) (pending next : List Node) : Prop :=
  ∃ head children rest, pending = mk head children :: rest ∧ defect? source head = none ∧
    next = children ++ rest

/-- A round takes the first of the nodes that are still to be seen. -/
theorem Round.nodesOf_eq {pending next : List Node} (h : Round source pending next) :
    ∃ m, nodesOf pending = m :: nodesOf next := by
  obtain ⟨head, children, rest, rfl, -, rfl⟩ := h
  exact ⟨mk head children, nodesOf_cons head children rest⟩

/-- A round does not change what is found. -/
theorem Round.firstDefect?_eq {pending next : List Node} (h : Round source pending next) :
    firstDefect? source pending = firstDefect? source next := by
  obtain ⟨head, children, rest, rfl, hnone, rfl⟩ := h
  rw [firstDefect?, hnone]

/-- There are no more rounds than there are nodes to be seen. -/
theorem length_le_of_walk {walk : List (List Node)} (hwalk : walk.IsChain (Round source)) :
    ∀ pending, walk.head? = some pending → walk.length ≤ (nodesOf pending).length + 1 := by
  induction hwalk with
  | nil => simp
  | singleton => simp
  | @cons_cons a b walk hround _ ih =>
    intro pending hpending
    obtain rfl : a = pending := by simpa using hpending
    obtain ⟨m, hm⟩ := hround.nodesOf_eq
    have hle := ih b rfl
    rw [hm, List.length_cons, List.length_cons]
    exact Nat.succ_le_succ hle

theorem firstDefect?_of_walk {walk : List (List Node)} (hwalk : walk.IsChain (Round source)) :
    ∀ pending, walk.head? = some pending →
      ∀ later ∈ walk, firstDefect? source later = firstDefect? source pending := by
  induction hwalk with
  | nil => simp
  | singleton a => simp
  | @cons_cons a b walk hround _ ih =>
    intro pending hpending later hlater
    obtain rfl : a = pending := by simpa using hpending
    rcases List.mem_cons.mp hlater with rfl | hlater
    · rfl
    · rw [ih b rfl later hlater, hround.firstDefect?_eq]

/-- **The walk finds what a search through the nodes finds**, each node before its children. -/
theorem firstDefect?_eq_findSome? (pending : List Node) :
    firstDefect? source pending = (nodesOf pending).findSome? fun m => defect? source m.head := by
  fun_induction firstDefect? source pending with
  | case1 => rfl
  | case2 head children rest d hd => simp [nodesOf_cons, hd]
  | case3 head children rest hd ih => simp [nodesOf_cons, hd, ih]

/-- A node that is neither a placeholder nor an error. -/
def Sound (n : Node) : Prop :=
  n.head.missing = false ∧ n.head.error = false

/-- What is said about a node that is not sound: a placeholder is named by its kind, and of other
text the first word is shown. -/
inductive Reports (source : ByteArray) (n : Node) : Diagnostic → Prop
  | missing (h : n.head.missing = true) : Reports source n ⟨.missingSyntax n.kind, n.start⟩
  | invalid (h : n.head.missing = false) (herror : n.head.error = true) :
      Reports source n ⟨.invalidSyntax (firstWord source n.span), n.start⟩

theorem defect?_eq_none_iff {n : Node} : defect? source n.head = none ↔ n.Sound := by
  unfold defect? Sound
  cases n.head.missing <;> cases n.head.error <;> simp

theorem defect?_eq_some_iff {n : Node} {d : Diagnostic} :
    defect? source n.head = some d ↔ n.Reports source d := by
  constructor
  · intro h
    unfold defect? at h
    split at h
    · rename_i hmissing
      obtain rfl := Option.some.inj h
      exact .missing hmissing
    split at h
    · rename_i hmissing herror
      obtain rfl := Option.some.inj h
      exact .invalid (by simpa using hmissing) herror
    · cases h
  · rintro (hmissing | ⟨hmissing, herror⟩)
    · simp only [defect?, hmissing, if_true]
      rfl
    · simp only [defect?, hmissing, herror, Bool.false_eq_true, if_false, if_true]
      rfl

end Node

open Node

/-- **The check of a tree reports the first node that is not sound.**  Whatever the tree and the
text are, the walk has no more rounds than the tree has nodes, and its answer is the same from each
of them on.  Nothing is reported just if every node is sound; otherwise it is what is to be said
about the first node that is not, each node before its children and these in order. -/
theorem check_reports_first (n : Node) (source : ByteArray) :
    (∀ walk : List (List Node), walk.IsChain (Round source) → walk.head? = some [n] →
      walk.length ≤ n.nodes.length + 1 ∧
        ∀ pending ∈ walk, firstDefect? source pending = firstDefect? source [n]) ∧
    (n.check source = .ok () ↔ ∀ m ∈ n.nodes, m.Sound) ∧
    ∀ d, n.check source = .error d ↔ ∃ before m behind, n.nodes = before ++ m :: behind ∧
      (∀ k ∈ before, k.Sound) ∧ m.Reports source d := by
  have hnodes : nodesOf [n] = n.nodes := by simp [nodesOf]
  have hsearch : firstDefect? source [n] = n.nodes.findSome? fun m => defect? source m.head := by
    rw [firstDefect?_eq_findSome?, hnodes]
  refine ⟨fun walk hwalk hhead => ?_, ?_, fun d => ?_⟩
  · rw [← hnodes]
    exact ⟨length_le_of_walk hwalk [n] hhead, firstDefect?_of_walk hwalk [n] hhead⟩
  · have hok : n.check source = .ok () ↔ firstDefect? source [n] = none := by
      unfold check
      cases firstDefect? source [n] <;> simp
    rw [hok, hsearch, List.findSome?_eq_none_iff]
    simp only [defect?_eq_none_iff]
  · have herror : n.check source = .error d ↔ firstDefect? source [n] = some d := by
      unfold check
      cases firstDefect? source [n] <;> simp
    rw [herror, hsearch, List.findSome?_eq_some_iff]
    simp only [defect?_eq_some_iff, defect?_eq_none_iff]
    constructor
    · rintro ⟨before, m, behind, hsplit, hm, hbefore⟩
      exact ⟨before, m, behind, hsplit, hbefore, hm⟩
    · rintro ⟨before, m, behind, hsplit, hbefore, hm⟩
      exact ⟨before, m, behind, hsplit, hm, hbefore⟩

end BlockC

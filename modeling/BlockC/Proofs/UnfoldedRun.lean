import BlockC.Proofs.StatementSeam
import BlockC.Proofs.Unfolding

/-! # Reading the unfolded text

A run that ends with a tree is repeated, with two tokens more, to end with the tree unfolded
(`exists_replay`).  The run is followed from its end.  There the tree is all that there is; one
token earlier, a node of the stack is unfolded, or the `if` is complete at that token and the frame
below it waits for an alternative (`feed_unfolds`).  Before a token inside of the `if`, its frames
stand above that frame as they would without it.  At the first token of the `if` the frame below it
is behind `else` (`feed_origin`), where the block is taken as well (`takes_block`).  From there on
back the two runs are the same.
-/
namespace BlockC

/-- One element of a list is changed. -/
inductive OneChanged {α : Type} (R : α → α → Prop) : List α → List α → Prop
  | head {x y : α} {xs : List α} (h : R x y) : OneChanged R (x :: xs) (y :: xs)
  | tail {x : α} {xs ys : List α} (h : OneChanged R xs ys) : OneChanged R (x :: xs) (x :: ys)

section
variable {α : Type} {R : α → α → Prop}

theorem oneChanged_middle {x y : α} (before behind : List α) (h : R x y) :
    OneChanged R (before ++ x :: behind) (before ++ y :: behind) := by
  induction before with
  | nil => exact .head h
  | cons _ _ ih => exact .tail ih

theorem OneChanged.append {xs ys zs : List α} (h : OneChanged R (xs ++ ys) zs) :
    (∃ xs', OneChanged R xs xs' ∧ zs = xs' ++ ys) ∨
      ∃ ys', OneChanged R ys ys' ∧ zs = xs ++ ys' := by
  induction xs generalizing zs with
  | nil => exact Or.inr ⟨zs, h, rfl⟩
  | cons x xs ih =>
    cases h with
    | head h => exact Or.inl ⟨_, .head h, rfl⟩
    | tail h =>
      rcases ih h with ⟨xs', h', rfl⟩ | ⟨ys', h', rfl⟩
      · exact Or.inl ⟨_, .tail h', rfl⟩
      · exact Or.inr ⟨ys', h', rfl⟩

theorem OneChanged.exists_mem {xs ys : List α} (h : OneChanged R xs ys) : ∃ x ∈ xs, ∃ y, R x y := by
  induction h with
  | head h => exact ⟨_, by simp, _, h⟩
  | tail _ ih =>
    obtain ⟨x, hx, hR⟩ := ih
    exact ⟨x, by simp [hx], hR⟩

theorem OneChanged.singleton {x : α} {zs : List α} (h : OneChanged R [x] zs) :
    ∃ y, R x y ∧ zs = [y] := by
  cases h with
  | head h => exact ⟨_, h, rfl⟩
  | tail h => cases h

end

namespace Grammar

/-! ### Stacks with one node unfolded -/

section
variable (d e : Token)

/-- A node that the frame has is unfolded. -/
inductive Frame.Unfolds : Frame → Frame → Prop
  | partly {kind : String} {done done' : List Node} {todo : List Part}
      (h : OneChanged (Node.Unfolds d e) done done') :
      Frame.Unfolds (.partly kind done todo) (.partly kind done' todo)
  | operators {left left' : Node} {above : Level} (h : left.Unfolds d e left') :
      Frame.Unfolds (.operators left above) (.operators left' above)
  | complete {n n' : Node} (h : n.Unfolds d e n') : Frame.Unfolds (.complete n) (.complete n')

/-- A node of the stack is unfolded, or the one that it ends with. -/
def Step.Unfolds : Step → Step → Prop
  | .shift s, .shift s' => OneChanged (Frame.Unfolds d e) s s'
  | .done n, .done n' => n.Unfolds d e n'
  | _, _ => False

end

/-- A frame that waits for an alternative. -/
def Frame.AwaitsAlternative (f : Frame) : Prop :=
  ∃ kind done rest, f = .partly kind done (.hole (some "alternative") :: rest)

/-- A frame that a production starts with at the token: it has no node but that. -/
def Frame.Fresh (t : Token) : Frame → Prop
  | .partly _ done todo => (∀ c ∈ done, ∃ field, c = (Node.leaf t).inField field) ∧
      ∀ rest, todo ≠ .hole (some "alternative") :: rest
  | .operand _ => True
  | .operators left _ => left = wrapped (.leaf t)
  | .complete n => n = .leaf t

section
variable {d e t : Token} {f : Frame} {n n' : Node} {frames : List Frame}

theorem fresh_opened {kind : String} {field : Option String} {todo : List Part}
    (h : ∀ rest, todo ≠ .hole (some "alternative") :: rest) :
    (opened kind t field todo).Fresh t :=
  ⟨by simp, h⟩

theorem fresh_wrapper {kind : String} {field : Option String} (h : field ≠ some "alternative") :
    (Frame.partly kind [] [.hole field]).Fresh t :=
  ⟨by simp, by simp [h]⟩

theorem exprFrom_fresh {above : Level} (h : exprFrom above t = .ok frames) :
    ∀ f ∈ frames, f.Fresh t := by
  cases exprBegins_of_ok h with
  | literal hk => simp [Frame.Fresh]
  | name hk | parenthesized hk | signed hk =>
    exact List.forall_mem_cons.mpr ⟨fresh_opened (by simp), by simp [Frame.Fresh]⟩

theorem typeFrom_fresh (h : typeFrom t = .ok frames) : ∀ f ∈ frames, f.Fresh t := by
  unfold typeFrom at h
  split at h <;> cases h <;>
    exact List.forall_mem_cons.mpr ⟨fresh_opened (by simp [Part.mark]),
      List.forall_mem_singleton.mpr (fresh_wrapper (by decide))⟩

theorem stmtFrom_fresh (h : stmtFrom t = .ok frames) : ∀ f ∈ frames, f.Fresh t := by
  have hwrapper : ∀ f ∈ [Frame.partly "stmt" [] [.hole none]], f.Fresh t :=
    List.forall_mem_singleton.mpr (fresh_wrapper (by decide))
  cases stmtBegins_of_ok h with
  | form hf =>
    refine List.forall_mem_cons.mpr ⟨?_, hwrapper⟩
    unfold stmtFrame? at hf
    split at hf <;> cases hf <;> exact fresh_opened (by simp)
  | expr hexpr => exact List.forall_mem_append.mpr ⟨exprFrom_fresh hexpr, hwrapper⟩

theorem begin_fresh {p : Production} (h : p.begin t = .ok frames) : ∀ f ∈ frames, f.Fresh t := by
  cases p with
  | expr above => exact exprFrom_fresh h
  | typeExpr => exact typeFrom_fresh h
  | stmt => exact stmtFrom_fresh h
  | literal =>
    simp only [Production.begin] at h
    split at h
    · cases h
      simp [Frame.Fresh]
    · cases h
  | name | typeList | typedIdent | params | codeblock =>
    obtain ⟨-, rfl⟩ := requiring_eq_ok h
    exact List.forall_mem_singleton.mpr (fresh_opened (by simp [Part.mark]))
  | externalVariable =>
    obtain ⟨-, rfl⟩ := requiring_eq_ok h
    exact List.forall_mem_cons.mpr ⟨fresh_opened (by simp [Part.mark]),
      List.forall_mem_singleton.mpr (fresh_wrapper (by decide))⟩
  | signed | parenthesized | pointerType | arrayType | funcType | mod | declare | variadic
  | external | externalFunction | func | typeAlias | whileLoop | ifElse | returned =>
    cases h
    exact List.forall_mem_singleton.mpr (fresh_opened (by simp))

theorem not_unfolds_wrapped (n n' : Node) : ¬ (wrapped n).Unfolds d e n' :=
  fun h => absurd h.kind_mem (by rw [wrapped, Node.kind_assemble]; decide)

theorem Frame.Fresh.not_unfolds {f' : Frame} (h : f.Fresh t) : ¬ f.Unfolds d e f' := by
  intro hf
  cases hf with
  | partly hdone =>
    obtain ⟨c, hc, c', hunfolds⟩ := hdone.exists_mem
    obtain ⟨field, rfl⟩ := h.1 c hc
    exact Node.not_unfolds_leaf t field hunfolds
  | operators hleft =>
    rw [show _ = wrapped (.leaf t) from h] at hleft
    exact not_unfolds_wrapped _ _ hleft
  | complete hn =>
    rw [show _ = Node.leaf t from h] at hn
    exact Node.not_unfolds_leaf t none hn

/-! ### A step back -/

/-- A complete node that is unfolded was so in the frame. -/
theorem before_complete_unfolds (h : f.before t = .complete n) (hn : n.Unfolds d e n') :
    ∃ f', f.Unfolds d e f' ∧ f'.before t = .complete n' := by
  cases Frame.before_eq_complete_iff.mp h with
  | complete n => exact ⟨_, .complete hn, rfl⟩
  | operators hle => exact ⟨_, .operators hn, Frame.before_eq_complete_iff.mpr (.operators hle)⟩
  | @partly kind _ done todo hset =>
    obtain ⟨before, c, c', behind, hdone, hc, rfl⟩ := Node.unfolds_assemble hn
    obtain rfl := List.reverse_eq_iff.mp hdone
    have hchanged := oneChanged_middle behind.reverse before.reverse hc
    refine ⟨.partly kind (behind.reverse ++ c' :: before.reverse) todo,
      .partly (by simpa using hchanged), ?_⟩
    simp [Frame.before, hset]

/-- In an operation before its right operand, only the left one can be unfolded. -/
theorem operation_unfolds {left : Node} {kind : String} {field role : Option String}
    {todo : List Part} {frames' : List Frame} (hrole : role ≠ some "alternative")
    (h : OneChanged (Frame.Unfolds d e)
      [.partly kind [(Node.leaf t).inField field, left.inField role] todo] frames') :
    ∃ left', left.Unfolds d e left' ∧
      frames' = [.partly kind [(Node.leaf t).inField field, left'.inField role] todo] := by
  obtain ⟨f', hf, rfl⟩ := h.singleton
  cases hf with
  | partly hdone =>
    cases hdone with
    | head hleaf => exact absurd hleaf (Node.not_unfolds_leaf t field)
    | tail hdone =>
      obtain ⟨c, hc, rfl⟩ := hdone.singleton
      rcases Node.unfolds_inField hc with ⟨left', hleft, rfl⟩ | ⟨-, hfield, -⟩
      · exact ⟨left', hleft, rfl⟩
      · exact absurd hfield hrole

theorem operation?_unfolds {left : Node} {level : Level} {role : OperatorRole}
    {frames' : List Frame} (h : operation? left t level role = some frames)
    (hs : OneChanged (Frame.Unfolds d e) frames frames') :
    ∃ left', left.Unfolds d e left' ∧ operation? left' t level role = some frames' := by
  cases role with
  | binary | assignment | conditional =>
    cases h
    obtain ⟨left', hleft, rfl⟩ := operation_unfolds (by decide) hs
    exact ⟨left', hleft, rfl⟩
  | call =>
    obtain ⟨callee, -, hkind, rfl⟩ := operation?_call_eq_some.mp h
    cases hs with
    | head hf => exact absurd hf (fresh_opened (by simp)).not_unfolds
    | tail hs =>
      -- The callee is a name, which holds no statement.
      obtain ⟨f', hf, -⟩ := hs.singleton
      cases hf with
      | partly hdone =>
        obtain ⟨c, hc, -⟩ := hdone.singleton
        have hmem := hc.kind_mem
        rw [Node.kind_inField, hkind] at hmem
        exact absurd hmem (by decide)

/-- A node that is unfolded in what a frame becomes was so in the frame. -/
theorem before_shift_unfolds {frames' : List Frame} (h : f.before t = .shift frames)
    (hs : OneChanged (Frame.Unfolds d e) frames frames') :
    ∃ f', f.Unfolds d e f' ∧ f'.before t = .shift frames' := by
  cases Frame.before_eq_shift_iff.mp h with
  | operators hop hlt hinner =>
    rcases hs.append with ⟨inner', hinner', rfl⟩ | ⟨operand', hoperand, -⟩
    · obtain ⟨left', hleft, hop'⟩ := operation?_unfolds hinner hinner'
      exact ⟨_, .operators hleft, Frame.before_eq_shift_iff.mpr (.operators hop hlt hop')⟩
    · obtain ⟨f', hf, -⟩ := hoperand.singleton
      cases hf
  | token hset =>
    obtain ⟨f', hf, rfl⟩ := hs.singleton
    cases hf with
    | partly hdone =>
      cases hdone with
      | head hleaf => exact absurd hleaf (Node.not_unfolds_leaf t _)
      | tail hdone => exact ⟨_, .partly hdone, Frame.before_eq_shift_iff.mpr (.token hset)⟩
  | node hset hinner =>
    rcases hs.append with ⟨inner', hinner', -⟩ | ⟨last', hlast, rfl⟩
    · obtain ⟨g, hg, g', hunfolds⟩ := hinner'.exists_mem
      exact absurd hunfolds (begin_fresh hinner g hg).not_unfolds
    · obtain ⟨f', hf, rfl⟩ := hlast.singleton
      cases hf with
      | partly hdone => exact ⟨_, .partly hdone, Frame.before_eq_shift_iff.mpr (.node hset hinner)⟩

/-- Where a frame with a node in its place is unfolded, the frame is, or the node, or the node is an
`if` in the place of an alternative. -/
theorem fill_unfolds {g : Frame} (h : (f.fill n).Unfolds d e g) :
    (∃ f', f.Unfolds d e f' ∧ g = f'.fill n) ∨ (∃ n', n.Unfolds d e n' ∧ g = f.fill n') ∨
      f.AwaitsAlternative ∧ n.IsIf ∧ g = f.fill (n.block d e) := by
  cases f with
  | complete node =>
    cases h with
    | complete h => exact Or.inl ⟨_, .complete h, rfl⟩
  | operators left above =>
    cases h with
    | operators h => exact Or.inl ⟨_, .operators h, rfl⟩
  | operand above =>
    cases h with
    | operators h => exact absurd h (not_unfolds_wrapped _ _)
  | partly kind done todo =>
    match todo with
    | [] | .token _ _ :: _ | .node _ _ :: _ | .choice _ :: _ =>
      cases h with
      | partly h => exact Or.inl ⟨_, .partly h, rfl⟩
    | .hole field :: rest =>
      cases h with
      | partly h =>
        cases h with
        | tail h => exact Or.inl ⟨_, .partly h, rfl⟩
        | head h =>
          rcases Node.unfolds_inField h with ⟨m, hm, rfl⟩ | ⟨hif, rfl, rfl⟩
          · exact Or.inr (Or.inl ⟨m, hm, rfl⟩)
          · exact Or.inr (Or.inr ⟨⟨_, _, _, rfl⟩, hif, rfl⟩)

/-- Where what a node leads to is unfolded, the stack is, or the node, or a node that it completes
on the way down: an `if` in the place of an alternative. -/
theorem resume_unfolds {s : Stack} {r : Step} (h : (resume t n s).Unfolds d e r) :
    (∃ s', OneChanged (Frame.Unfolds d e) s s' ∧ resume t n s' = r) ∨
      (∃ n', n.Unfolds d e n' ∧ resume t n' s = r) ∨
      ∃ above f below m, s = above ++ f :: below ∧ f.AwaitsAlternative ∧
        resume t n above = .done m ∧ m.IsIf ∧ resume t (m.block d e) (f :: below) = r := by
  induction s generalizing n with
  | nil =>
    cases r with
    | done n' => exact Or.inr (Or.inl ⟨n', h, rfl⟩)
    | shift _ | stuck _ _ => exact h.elim
  | cons f rest ih =>
    rw [resume] at h
    cases hb : (f.fill n).before t with
    | stuck request =>
      rw [hb] at h
      cases r <;> exact h.elim
    | shift frames =>
      rw [hb] at h
      cases r with
      | done _ | stuck _ _ => exact h.elim
      | shift next =>
        rcases OneChanged.append h with ⟨frames', hframes, rfl⟩ | ⟨rest', hrest, rfl⟩
        · obtain ⟨g, hg, hb'⟩ := before_shift_unfolds hb hframes
          rcases fill_unfolds hg with ⟨f', hf, rfl⟩ | ⟨n', hn, rfl⟩ | ⟨hf, hn, rfl⟩
          · exact Or.inl ⟨_, .head hf, by rw [resume, hb']⟩
          · exact Or.inr (Or.inl ⟨n', hn, by rw [resume, hb']⟩)
          · exact Or.inr (Or.inr ⟨[], f, rest, n, rfl, hf, rfl, hn, by rw [resume, hb']⟩)
        · exact Or.inl ⟨_, .tail hrest, by rw [resume, hb]⟩
    | complete node =>
      rw [hb] at h
      rcases ih h with ⟨rest', hrest, hr⟩ | ⟨node', hnode, hr⟩ |
        ⟨above, g, below, m, rfl, hg, hdone, hm, hr⟩
      · exact Or.inl ⟨_, .tail hrest, by rw [resume, hb]; exact hr⟩
      · obtain ⟨g, hg, hb'⟩ := before_complete_unfolds hb hnode
        rcases fill_unfolds hg with ⟨f', hf, rfl⟩ | ⟨n', hn, rfl⟩ | ⟨hf, hn, rfl⟩
        · exact Or.inl ⟨_, .head hf, by rw [resume, hb']; exact hr⟩
        · exact Or.inr (Or.inl ⟨n', hn, by rw [resume, hb']; exact hr⟩)
        · exact Or.inr (Or.inr ⟨[], f, rest, n, rfl, hf, rfl, hn, by rw [resume, hb']; exact hr⟩)
      · exact Or.inr (Or.inr ⟨f :: above, g, below, m, rfl, hg, by rw [resume, hb]; exact hdone, hm,
          hr⟩)

/-- **A step back.**  Where what a stack does is unfolded, the stack is, or a node that it completes
then: an `if` in the place of an alternative. -/
theorem feed_unfolds {s : Stack} {r : Step} (h : (feed t s).Unfolds d e r) :
    (∃ s', OneChanged (Frame.Unfolds d e) s s' ∧ feed t s' = r) ∨
      ∃ above f below m, s = above ++ f :: below ∧ f.AwaitsAlternative ∧
        feed t above = .done m ∧ m.IsIf ∧ resume t (m.block d e) (f :: below) = r := by
  cases s with
  | nil => cases r <;> exact h.elim
  | cons f rest =>
    rw [feed] at h
    cases hb : f.before t with
    | stuck request =>
      rw [hb] at h
      cases r <;> exact h.elim
    | shift frames =>
      rw [hb] at h
      cases r with
      | done _ | stuck _ _ => exact h.elim
      | shift next =>
        rcases OneChanged.append h with ⟨frames', hframes, rfl⟩ | ⟨rest', hrest, rfl⟩
        · obtain ⟨f', hf, hb'⟩ := before_shift_unfolds hb hframes
          exact Or.inl ⟨_, .head hf, by rw [feed, hb']⟩
        · exact Or.inl ⟨_, .tail hrest, by rw [feed, hb]⟩
    | complete node =>
      rw [hb] at h
      rcases resume_unfolds h with ⟨rest', hrest, hr⟩ | ⟨node', hnode, hr⟩ |
        ⟨above, g, below, m, rfl, hg, hdone, hm, hr⟩
      · exact Or.inl ⟨_, .tail hrest, by rw [feed, hb]; exact hr⟩
      · obtain ⟨f', hf, hb'⟩ := before_complete_unfolds hb hnode
        exact Or.inl ⟨_, .head hf, by rw [feed, hb']; exact hr⟩
      · exact Or.inr ⟨f :: above, g, below, m, rfl, hg, by rw [feed, hb]; exact hdone, hm, hr⟩

/-! ### Stacks with more below them -/

theorem resume_append_done {m : Node} {a : Stack} (h : resume t n a = .done m) (b : Stack) :
    resume t n (a ++ b) = resume t m b := by
  induction a generalizing n with
  | nil =>
    cases h
    rfl
  | cons f a ih =>
    simp only [List.cons_append, resume] at h ⊢
    cases hb : (f.fill n).before t with
    | shift frames => simp [hb] at h
    | stuck request => simp [hb] at h
    | complete node =>
      rw [hb] at h
      exact ih h

theorem resume_append_shift {a next : Stack} (h : resume t n a = .shift next) (b : Stack) :
    resume t n (a ++ b) = .shift (next ++ b) := by
  induction a generalizing n with
  | nil => cases h
  | cons f a ih =>
    simp only [List.cons_append, resume] at h ⊢
    cases hb : (f.fill n).before t with
    | stuck request => simp [hb] at h
    | shift frames =>
      rw [hb] at h
      cases h
      simp
    | complete node =>
      rw [hb] at h
      exact ih h

theorem feed_append_done {m : Node} {a : Stack} (h : feed t a = .done m) (b : Stack) :
    feed t (a ++ b) = resume t m b := by
  cases a with
  | nil => cases h
  | cons f a =>
    simp only [List.cons_append, feed] at h ⊢
    cases hb : f.before t with
    | shift frames => simp [hb] at h
    | stuck request => simp [hb] at h
    | complete node =>
      rw [hb] at h
      exact resume_append_done h b

theorem feed_append_shift {a next : Stack} (h : feed t a = .shift next) (b : Stack) :
    feed t (a ++ b) = .shift (next ++ b) := by
  cases a with
  | nil => cases h
  | cons f a =>
    simp only [List.cons_append, feed] at h ⊢
    cases hb : f.before t with
    | stuck request => simp [hb] at h
    | shift frames =>
      rw [hb] at h
      cases h
      simp
    | complete node =>
      rw [hb] at h
      exact resume_append_shift h b

/-- What is below a stack does not matter to the tokens that it takes. -/
theorem Takes.above {ts : List Token} {a a' : Stack} (h : Takes ts a a') (b : Stack) :
    Takes ts (a ++ b) (a' ++ b) := by
  induction ts generalizing a with
  | nil =>
    obtain rfl : a = a' := h
    rfl
  | cons t ts ih =>
    obtain ⟨next, hfeed, hrest⟩ := h
    exact ⟨next ++ b, feed_append_shift hfeed b, ih hrest⟩

/-- The frames above one that waits are complete before every quiet token, if they are before some
token. -/
theorem feed_quiet {v : Token} {m : Node} {above below : Stack} (hv : Quiet v)
    (hs : Resting (above ++ f :: below)) (h : feed t above = .done m) : feed v above = .done m := by
  cases above with
  | nil => cases h
  | cons g above =>
    induction above generalizing g with
    | nil =>
      cases hb : g.before t with
      | shift frames => simp [feed, hb] at h
      | stuck request => simp [feed, hb] at h
      | complete node =>
        simp only [feed, hb, before_quiet hv hs (List.cons_ne_nil _ _) hb] at h ⊢
        exact h
    | cons g' above ih =>
      cases hb : g.before t with
      | shift frames => simp [feed, hb] at h
      | stuck request => simp [feed, hb] at h
      | complete node =>
        rw [feed_of_complete hb] at h
        rw [feed_of_complete (before_quiet hv hs (List.cons_ne_nil _ _) hb)]
        exact ih (g'.fill node) (hs.waiting.fill node) h

/-! ### Where an alternative begins -/

theorem concat_eq_middle {α : Type} {xs above behind : List α} {x y : α}
    (h : xs ++ [x] = above ++ y :: behind) : xs = above ∧ x = y ∧ behind = [] ∨ y ∈ xs := by
  rcases List.eq_nil_or_concat behind with rfl | ⟨bs, b, rfl⟩
  · obtain ⟨hxs, hx⟩ := List.append_inj' h rfl
    exact Or.inl ⟨hxs, List.cons.inj hx |>.1, rfl⟩
  · have hxs : xs = above ++ y :: bs := by
      rw [List.concat_eq_append, ← List.cons_append, ← List.append_assoc] at h
      exact (List.append_inj' h rfl).1
    exact Or.inr (by simp [hxs])

theorem not_awaits_of_fresh (h : f.Fresh t) : ¬ f.AwaitsAlternative := by
  rintro ⟨kind, done, rest, rfl⟩
  exact h.2 rest rfl

/-- A frame that waits for an alternative is there because a production is begun for it. -/
theorem shift_alternative {kind kind' : String} {done done' : List Node} {todo rest : List Part}
    {above behind : List Frame} (hr : Regular todo)
    (h : (Frame.partly kind done todo).before t =
      .shift (above ++ Frame.partly kind' done' (.hole (some "alternative") :: rest) :: behind)) :
    ∃ p : Production, p.Used ∧ p.begin t = .ok above ∧ done' = done ∧ behind = [] ∧
      settle kind t.kind todo = (kind', .node p (some "alternative") :: rest) := by
  have hsettled := settled_of_regular hr kind t.kind
  generalize hframes : above ++ Frame.partly kind' done' _ :: behind = frames at h
  cases Frame.before_eq_shift_iff.mp h with
  | token hset =>
    rw [hset] at hsettled
    cases hsettled with
    | token hk hrest =>
      have hsingle : [] ++ [_] = _ := hframes.symm
      rcases concat_eq_middle hsingle with ⟨-, hf, -⟩ | hmem
      · injection hf with _ _ htodo
        rw [htodo] at hrest
        exact hrest.elim
      · simp at hmem
  | node hset hinner =>
    rw [hset] at hsettled
    cases hsettled with
    | node hp hk hc hrest =>
      rcases concat_eq_middle hframes.symm with ⟨rfl, hf, hbehind⟩ | hmem
      · injection hf with hkind hdone htodo
        injection htodo with hfield hrest'
        injection hfield with hfield
        subst hkind hdone hrest' hfield
        exact ⟨_, hp, hinner, rfl, hbehind, hset⟩
      · exact absurd ⟨_, _, _, rfl⟩ (not_awaits_of_fresh (begin_fresh hinner _ hmem))

/-- A further `if` is begun only behind `else`. -/
theorem settle_ifElse {k : Kind} {kind kind' : String} {todo rest : List Part}
    {field : Option String} (hr : Regular todo)
    (h : settle kind k todo = (kind', .node .ifElse field :: rest)) :
    todo = [.choice .alternative] ∧ k = .keyword .ifKw ∧ kind' = kind ∧ rest = [] := by
  cases todo with
  | nil => cases h
  | cons part rest' =>
    cases part with
    | token _ _ | hole _ => cases h
    | node p field' =>
      cases h
      exact hr.1.elim
    | choice c =>
      obtain ⟨hfile, rfl⟩ := hr
      simp only [settle, Prod.mk.injEq] at h
      obtain ⟨hkind, hparts⟩ := h
      have hmem : Part.node .ifElse field ∈ c.expand k ++ c.behind := by simp [hparts]
      have hoption := (List.mem_append.mp hmem).imp_left (c.expand_subset_options k ·)
      cases c
      case alternative =>
        by_cases hk : k = .keyword .ifKw
        · subst hk
          cases hparts
          exact ⟨rfl, rfl, hkind.symm, rfl⟩
        · simp [Choice.expand] at hparts
      all_goals simp [Choice.options, Choice.behind, Part.mark, Part.word] at hoption

theorem not_awaits_of_operation {left : Node} {level : Level} {role : OperatorRole}
    (h : operation? left t level role = some frames) : ∀ f ∈ frames, ¬ f.AwaitsAlternative := by
  cases role with
  | binary | assignment | conditional =>
    cases h
    simp [Frame.AwaitsAlternative]
  | call =>
    obtain ⟨callee, -, -, rfl⟩ := operation?_call_eq_some.mp h
    simp [Frame.AwaitsAlternative, opened]

/-- The token begins an `if` behind `else`, with `f` below it. -/
def BeginsFurther (t : Token) (f : Frame) (s above below : Stack) : Prop :=
  ∃ kind done, f = .partly kind done [.hole (some "alternative")] ∧
    s = .partly kind done [.choice .alternative] :: below ∧ t.kind = .keyword .ifKw ∧
    above = [ifFrom t]

theorem shift_origin {g : Frame} {rest above below : Stack} (hs : Resting (g :: rest))
    (hf : f.AwaitsAlternative) (hb : g.before t = .shift frames)
    (h : frames ++ rest = above ++ f :: below)
    (hp : ∀ p : Production, p.Used → p.begin t = .ok above → p = .ifElse) :
    (∃ above', g :: rest = above' ++ f :: below ∧ feed t above' = .shift above) ∨
      BeginsFurther t f (g :: rest) above below := by
  rcases List.append_eq_append_iff.mp h with ⟨as, rfl, rfl⟩ | ⟨bs, rfl, hbelow⟩
  · exact Or.inl ⟨g :: as, rfl, feed_of_shift hb⟩
  cases bs with
  | nil =>
    rw [List.append_nil] at hb
    exact Or.inl ⟨[g], by simp [hbelow], by rw [feed_of_shift hb, List.append_nil]⟩
  | cons b bs =>
    obtain ⟨rfl, rfl⟩ := List.cons.inj hbelow
    cases hs with
    | file =>
      by_cases heof : t.kind = .eof
      · simp [Frame.before, settle, Choice.expand, heof] at hb
      · simp only [Frame.before, settle_topLevel heof] at hb
        split at hb
        · rename_i inner hinner
          rcases concat_eq_middle (Move.shift.inj hb) with ⟨-, rfl, -⟩ | hmem
          · simp [Frame.AwaitsAlternative] at hf
          · exact absurd hf (not_awaits_of_fresh (begin_fresh hinner _ hmem))
        · cases hb
    | operators _ =>
      generalize hframes : above ++ f :: bs = frames at hb
      cases Frame.before_eq_shift_iff.mp hb with
      | operators hop hlt hinner =>
        rcases concat_eq_middle hframes.symm with ⟨-, rfl, -⟩ | hmem
        · simp [Frame.AwaitsAlternative] at hf
        · exact absurd hf (not_awaits_of_operation hinner _ hmem)
    | partly hr _ =>
      obtain ⟨kind', done', rest', rfl⟩ := hf
      obtain ⟨p, hused, hbegin, rfl, rfl, hset⟩ := shift_alternative hr hb
      obtain rfl := hp p hused hbegin
      obtain ⟨rfl, hk, rfl, rfl⟩ := settle_ifElse hr hset
      cases hbegin
      exact Or.inr ⟨_, _, rfl, rfl, hk, rfl⟩

/-- **Where a frame waits for an alternative that is an `if`:** it did so before the token, or the
token is the first of that `if`. -/
theorem feed_origin {s above below : Stack} (hs : Resting s) (hf : f.AwaitsAlternative)
    (h : feed t s = .shift (above ++ f :: below))
    (hp : ∀ p : Production, p.Used → p.begin t = .ok above → p = .ifElse) :
    (∃ above', s = above' ++ f :: below ∧ feed t above' = .shift above) ∨
      BeginsFurther t f s above below := by
  cases s with
  | nil => cases h
  | cons g rest =>
  -- Down the stack, over the frames that are complete before the token.
  induction rest generalizing g with
  | nil =>
    cases hb : g.before t with
    | stuck request => simp [feed, hb] at h
    | complete node => simp [feed, hb, resume] at h
    | shift frames =>
      rw [feed_of_shift hb] at h
      exact shift_origin hs hf hb (Step.shift.inj h) hp
  | cons g' rest ih =>
    cases hb : g.before t with
    | stuck request => simp [feed, hb] at h
    | shift frames =>
      rw [feed_of_shift hb] at h
      exact shift_origin hs hf hb (Step.shift.inj h) hp
    | complete node =>
      rw [feed_of_complete hb] at h
      rcases ih (g'.fill node) (hs.waiting.fill node) h with ⟨above', habove, hfeed⟩ |
        ⟨kind, done, -, hstack, -⟩
      · cases above' with
        | nil => cases hfeed
        | cons g'' above' =>
          obtain ⟨rfl, rfl⟩ := List.cons.inj habove
          exact Or.inl ⟨g :: g' :: above', rfl, by rw [feed_of_complete hb]; exact hfeed⟩
      · -- No frame waits for a node with an alternative behind it.
        have hfill := (List.cons.inj hstack).1
        have hw := hs.waiting
        cases hw with
        | file => simp [Frame.fill] at hfill
        | operand _ => cases hfill
        | partly hc _ _ =>
          injection hfill with _ _ htodo
          simp [htodo, Closes] at hc

/-! ### The rewritten run -/

/-- The stack takes the tokens and then ends with the node before `t`. -/
def Yields (t : Token) (s : Stack) (ts : List Token) (n : Node) : Prop :=
  ∃ last, Takes ts s last ∧ feed t last = .done n

theorem Yields.nil {s : Stack} (h : feed t s = .done n) : Yields t s [] n :=
  ⟨s, rfl, h⟩

theorem Yields.cons {u : Token} {s next : Stack} {ts : List Token} (h : Yields t next ts n)
    (hfeed : feed u s = .shift next) : Yields t s (u :: ts) n := by
  obtain ⟨last, htakes, hdone⟩ := h
  exact ⟨last, ⟨next, hfeed, htakes⟩, hdone⟩

theorem Yields.append {s s' : Stack} {ts us : List Token} (h : Yields t s' us n)
    (htakes : Takes ts s s') : Yields t s (ts ++ us) n := by
  obtain ⟨last, hrest, hdone⟩ := h
  exact ⟨last, htakes.append hrest, hdone⟩

/-- A stack that does the same before every token ends with the same node. -/
theorem Yields.of_feed {s s' : Stack} {ts : List Token} (h : Yields t s' ts n)
    (hfeed : ∀ u, feed u s = feed u s') : Yields t s ts n := by
  obtain ⟨last, htakes, hdone⟩ := h
  cases ts with
  | nil =>
    obtain rfl : s' = last := htakes
    exact ⟨s, rfl, (hfeed t).trans hdone⟩
  | cons u ts => exact ⟨last, htakes.of_feed (hfeed u), hdone⟩

/-- Behind `else`, a block that holds an `if` is taken as the `if` is. -/
theorem takes_block {kind : String} {done : List Node} {first : Token} {chain : List Token}
    {m : Node} (hd : d.kind = .keyword .doKw) (he : e.kind = .keyword .endKw)
    (hfirst : first.kind = .keyword .ifKw) (h : Yields e [ifFrom first] chain m) (below : Stack) :
    Takes (d :: first :: chain ++ [e]) (.partly kind done [.choice .alternative] :: below)
      (.partly "codeblock" [.leaf e, .assemble "stmt" .origin [m.inField none], .leaf d] [] ::
        .partly kind done [.hole (some "alternative")] :: below) := by
  obtain ⟨above, htakes, hdone⟩ := h
  have hopen : feed d (.partly kind done [.choice .alternative] :: below) =
      .shift (opened "codeblock" d none [.choice .statements, .word .endKw] ::
        .partly kind done [.hole (some "alternative")] :: below) := by
    simp [feed, Frame.before, settle, Choice.rename?, Choice.expand, Production.begin, requiring,
      hd]
  have hif (base : Stack) :
      feed first (opened "codeblock" d none [.choice .statements, .word .endKw] :: base) =
        .shift ([ifFrom first] ++ .partly "stmt" [] [.hole none] ::
          .partly "codeblock" [.leaf d] [.hole none, .choice .statements, .word .endKw] ::
          base) := by
    have hset : settle "codeblock" first.kind [.choice .statements, .word .endKw] =
        ("codeblock", [.node .stmt none, .choice .statements, .word .endKw]) := by
      rw [hfirst]
      rfl
    have hstmt : stmtFrom first = .ok [ifFrom first, .partly "stmt" [] [.hole none]] := by
      simp [stmtFrom, stmtFrame?, hfirst]
    have hleaf : (Node.leaf d).inField none = .leaf d := rfl
    simp [feed, Frame.before, opened, hset, Production.begin, hstmt, hleaf]
  have hclose (base : Stack) :
      resume e m (.partly "stmt" [] [.hole none] ::
        .partly "codeblock" [.leaf d] [.hole none, .choice .statements, .word .endKw] :: base) =
        .shift (.partly "codeblock"
          [.leaf e, .assemble "stmt" .origin [m.inField none], .leaf d] [] :: base) := by
    have hstmt : (Frame.partly "stmt" [m.inField none] []).before e =
        .complete (.assemble "stmt" .origin [m.inField none]) := rfl
    have hblock : (Frame.partly "codeblock" [.assemble "stmt" .origin [m.inField none], .leaf d]
        [.choice .statements, .word .endKw]).before e = .shift [.partly "codeblock"
          [.leaf e, .assemble "stmt" .origin [m.inField none], .leaf d] []] := by
      simp only [Frame.before, he]
      rfl
    have hfill : (Node.assemble "stmt" .origin [m.inField none]).inField none =
        .assemble "stmt" .origin [m.inField none] := rfl
    simp only [resume, Frame.fill, hstmt, hfill, hblock, List.singleton_append]
  refine ⟨_, hopen, _, hif _, (htakes.above _).append ⟨_, ?_, rfl⟩⟩
  rw [feed_append_done hdone, hclose]

end

/-- A run from the stack over the tokens can be repeated with one `if` in a block of its own, so
that it ends with the other tree.  This `if` is behind, or being read, or still to come. -/
inductive Replays (d e t : Token) (root : Node) : Stack → List Token → Prop
  | behind {s s' : Stack} {ts : List Token} (hs : OneChanged (Frame.Unfolds d e) s s')
      (h : Yields t s' ts root) : Replays d e t root s ts
  | within {above below : Stack} {f : Frame} {chain back : List Token} {m : Node}
      (hf : f.AwaitsAlternative) (hm : m.IsIf) (hchain : Yields e above chain m)
      (hback : Yields t (f.fill (m.block d e) :: below) back root) :
      Replays d e t root (above ++ f :: below) (chain ++ back)
  | ahead {s : Stack} {front chain back : List Token}
      (h : Yields t s (front ++ d :: chain ++ e :: back) root) :
      Replays d e t root s (front ++ chain ++ back)

section
variable {d e t : Token} {root root' : Node}

/-- One step of the run, before the rest of it. -/
theorem Replays.cons (hd : d.kind = .keyword .doKw) (he : e.kind = .keyword .endKw) {u : Token}
    {s next : Stack} {ts : List Token} (hs : Resting s) (hfeed : feed u s = .shift next)
    (h : Replays d e t root next ts) : Replays d e t root s (u :: ts) := by
  have hquiet : Quiet e := by simp [Quiet, Stops, he, Kind.behindOperand?]
  cases h with
  | @behind _ next' _ hnext hrun =>
    have hstep : (feed u s).Unfolds d e (.shift next') := by
      rw [hfeed]
      exact hnext
    rcases feed_unfolds hstep with ⟨s', hs', hfeed'⟩ | ⟨above, f, below, m, rfl, hf, hdone, hm, hr⟩
    · exact .behind hs' (hrun.cons hfeed')
    · have hchain : Yields e above [] m := .nil (feed_quiet hquiet hs hdone)
      exact .within hf hm hchain (hrun.cons hr)
  | @within above below f chain back m hf hm hchain hback =>
    have hp (p : Production) (hused : p.Used) (hbegin : p.begin u = .ok above) : p = .ifElse := by
      obtain ⟨last, htakes, hdone⟩ := hchain
      exact eq_ifElse_of_isIf hused hbegin htakes hdone hm
    rcases feed_origin hs hf hfeed hp with ⟨above', rfl, habove⟩ |
      ⟨kind, done, rfl, rfl, hk, rfl⟩
    · exact .within hf hm (hchain.cons habove) hback
    · -- The block is complete where the `if` was.
      have hblock : Yields t (.partly "codeblock"
          [.leaf e, .assemble "stmt" .origin [m.inField none], .leaf d] [] ::
          .partly kind done [.hole (some "alternative")] :: below) back root :=
        hback.of_feed fun v => feed_of_complete before_nil
      have hrun := hblock.append (takes_block hd he hk hchain below)
      rw [List.append_assoc] at hrun
      have hahead : Yields t (.partly kind done [.choice .alternative] :: below)
          ([] ++ d :: (u :: chain) ++ e :: back) root := hrun
      exact .ahead hahead
  | @ahead _ front chain back hrun =>
    have hrun' : Yields t s ((u :: front) ++ d :: chain ++ e :: back) root := hrun.cons hfeed
    exact .ahead hrun'

/-- **Every run that ends with a tree can be repeated to end with the tree unfolded.**  By induction
from the end of the run, where the tree is all that there is. -/
theorem Yields.replays (hd : d.kind = .keyword .doKw) (he : e.kind = .keyword .endKw)
    {s : Stack} {ts : List Token} (hs : Resting s) (h : Yields t s ts root)
    (hroot : root.Unfolds d e root') : Replays d e t root' s ts := by
  have hquiet : Quiet e := by simp [Quiet, Stops, he, Kind.behindOperand?]
  obtain ⟨last, htakes, hdone⟩ := h
  induction ts generalizing s with
  | nil =>
    obtain rfl : s = last := htakes
    have hstep : (feed t s).Unfolds d e (.done root') := by
      rw [hdone]
      exact hroot
    rcases feed_unfolds hstep with ⟨s', hs', hfeed'⟩ | ⟨above, f, below, m, rfl, hf, hdone, hm, hr⟩
    · exact .behind hs' (.nil hfeed')
    · have hchain : Yields e above [] m := .nil (feed_quiet hquiet hs hdone)
      exact .within hf hm hchain (.nil hr)
  | cons u ts ih =>
    obtain ⟨next, hfeed, hrest⟩ := htakes
    have hnext : Takes [u] s next := ⟨next, hfeed, rfl⟩
    exact (ih (hnext.resting hs).2 hrest).cons hd he hs hfeed

/-- A file that is read is read again with an `if` in a block of its own. -/
theorem exists_replay (hd : d.kind = .keyword .doKw) (he : e.kind = .keyword .endKw)
    {ts : List Token} (h : Yields t [sourceFile] ts root) (hroot : root.Unfolds d e root') :
    ∃ front chain back, ts = front ++ chain ++ back ∧
      Yields t [sourceFile] (front ++ d :: chain ++ e :: back) root' := by
  have hreplays := h.replays hd he resting_sourceFile hroot
  generalize hs : [sourceFile] = s at hreplays
  cases hreplays with
  | behind hs' _ =>
    subst hs
    obtain ⟨f, hf, -⟩ := hs'.singleton
    cases hf with
    | partly hdone => cases hdone
  | @within above below f _ _ _ hf _ _ _ =>
    cases above with
    | nil =>
      obtain ⟨rfl, -⟩ := List.cons.inj hs
      simp [Frame.AwaitsAlternative, sourceFile] at hf
    | cons g above => simp at hs
  | ahead hrun =>
    subst hs
    exact ⟨_, _, _, rfl, hrun⟩

end
end Grammar
end BlockC

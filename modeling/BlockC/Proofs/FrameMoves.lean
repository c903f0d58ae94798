import BlockC.Grammar.SourceFile

/-! # What a frame does before a token

The ways in which a frame is complete before a token (`Frame.Completed`) and in which it takes one
(`Frame.Advances`), and the ways in which expressions and statements begin (`ExprBegins`,
`StmtBegins`).  Whatever is kept from token to token is shown by cases on these.
-/
namespace BlockC
namespace Grammar

variable {t : Token} {frames : List Frame}

/-! ### Beginnings -/

/-- How an expression begins with a token. -/
inductive ExprBegins (above : Level) (t : Token) : List Frame → Prop
  | literal (h : t.kind.isLiteral = true) :
      ExprBegins above t [.operators (wrapped (.leaf t)) above]
  | name (h : t.kind = .identifier) : ExprBegins above t [nameFrom t, .operand above]
  | parenthesized (h : t.kind = .punct .openParen) :
      ExprBegins above t [parenthesizedFrom t, .operand above]
  | signed (h : t.kind.isSign = true) : ExprBegins above t [signedFrom t, .operand above]

theorem exprBegins_of_ok {above : Level} (h : exprFrom above t = .ok frames) :
    ExprBegins above t frames := by
  unfold exprFrom at h
  split at h
  · rename_i hk
    cases h
    exact .literal hk
  split at h
  · rename_i hk
    cases h
    exact .name hk
  split at h
  · rename_i hk
    cases h
    exact .parenthesized hk
  split at h
  · rename_i hk
    cases h
    exact .signed hk
  · cases h

/-- How a statement begins with a token: with a form of its own, or as an expression. -/
inductive StmtBegins (t : Token) : List Frame → Prop
  | form {f : Frame} (h : stmtFrame? t = some f) :
      StmtBegins t [f, .partly "stmt" [] [.hole none]]
  | expr {inner : List Frame} (h : exprFrom .lowest t = .ok inner) :
      StmtBegins t (inner ++ [Frame.partly "stmt" [] [.hole none]])

theorem stmtBegins_of_ok (h : stmtFrom t = .ok frames) : StmtBegins t frames := by
  unfold stmtFrom at h
  split at h
  · rename_i f hf
    cases h
    exact .form hf
  · cases hexpr : exprFrom .lowest t with
    | error request => simp [hexpr, Except.map] at h
    | ok inner =>
      rw [hexpr] at h
      cases h
      exact .expr hexpr

theorem requiring_eq_ok {k : Kind} {chosen : List Frame} (h : requiring k t frames = .ok chosen) :
    t.kind = k ∧ frames = chosen := by
  unfold requiring at h
  split at h
  · exact ⟨‹_›, Except.ok.inj h⟩
  · cases h

/-- A call goes on behind a name only: the wrapper of the name is taken apart. -/
theorem operation?_call_eq_some {left : Node} {level : Level} :
    operation? left t level .call = some frames ↔
      ∃ callee, left.onlyNamedChild? = some callee ∧ callee.kind = "ident_expr" ∧
        frames = [opened "argument_list" t none [.choice .arguments, .mark .closeParen],
          .partly "call_expr" [callee.inField (some "func_name")] [.hole (some "args")]] := by
  constructor
  · intro h
    simp only [operation?] at h
    split at h
    · rename_i callee hcallee
      split at h
      · rename_i hkind
        cases h
        exact ⟨callee, hcallee, beq_iff_eq.mp hkind, rfl⟩
      · cases h
    · cases h
  · rintro ⟨callee, hcallee, hkind, rfl⟩
    simp only [operation?, hcallee, hkind, beq_self_eq_true, if_true]

/-! ### Moves -/

/-- How a frame is complete before a token, and with which node. -/
inductive Frame.Completed (t : Token) : Frame → Node → Prop
  | complete (n : Node) : Completed t (.complete n) n
  | operators {left : Node} {above : Level}
      (h : ∀ level role, t.kind.behindOperand? = some (level, role) → level.rank ≤ above.rank) :
      Completed t (.operators left above) left
  | partly {kind kind' : String} {done : List Node} {todo : List Part}
      (h : settle kind t.kind todo = (kind', [])) :
      Completed t (.partly kind done todo) (.assemble kind' .origin done.reverse)

/-- How a frame takes a token, and which frames it becomes. -/
inductive Frame.Advances (t : Token) : Frame → List Frame → Prop
  | operators {left : Node} {above level : Level} {role : OperatorRole} {frames : List Frame}
      (hop : t.kind.behindOperand? = some (level, role)) (hlt : above.rank < level.rank)
      (h : operation? left t level role = some frames) :
      Advances t (.operators left above) (frames ++ [Frame.operand above])
  | token {kind kind' : String} {done : List Node} {todo rest : List Part} {field : Option String}
      (h : settle kind t.kind todo = (kind', .token t.kind field :: rest)) :
      Advances t (.partly kind done todo)
        [.partly kind' ((Node.leaf t).inField field :: done) rest]
  | node {kind kind' : String} {done : List Node} {todo rest : List Part} {p : Production}
      {field : Option String} {frames : List Frame}
      (h : settle kind t.kind todo = (kind', .node p field :: rest))
      (hp : p.begin t = .ok frames) :
      Advances t (.partly kind done todo)
        (frames ++ [Frame.partly kind' done (.hole field :: rest)])

theorem Frame.before_eq_complete_iff {f : Frame} {n : Node} :
    f.before t = .complete n ↔ f.Completed t n := by
  constructor
  · intro h
    cases f with
    | complete node =>
      cases h
      exact .complete n
    | operand above => cases h
    | operators left above =>
      simp only [Frame.before] at h
      split at h
      · rename_i level role hop
        split at h
        · split at h <;> cases h
        · rename_i hle
          cases h
          refine .operators fun level' role' hop' => ?_
          rw [hop] at hop'
          cases hop'
          exact Nat.le_of_not_lt hle
      · rename_i hnone
        cases h
        exact .operators fun level role hop => by rw [hnone] at hop; cases hop
    | partly kind done todo =>
      simp only [Frame.before] at h
      split at h
      · rename_i kind' hset
        cases h
        exact .partly hset
      · split at h <;> cases h
      · split at h <;> cases h
      · cases h
      · cases h
  · rintro (n | h | h)
    · rfl
    · simp only [Frame.before]
      split
      · rename_i level role hop
        rw [if_neg (Nat.not_lt_of_le (h level role hop))]
      · rfl
    · simp only [Frame.before, h]

theorem Frame.before_eq_shift_iff {f : Frame} :
    f.before t = .shift frames ↔ f.Advances t frames := by
  constructor
  · intro h
    cases f with
    | complete node | operand above => cases h
    | operators left above =>
      simp only [Frame.before] at h
      split at h
      · rename_i level role hop
        split at h
        · rename_i hlt
          split at h
          · rename_i inner hinner
            cases h
            exact .operators hop hlt hinner
          · cases h
        · cases h
      · cases h
    | partly kind done todo =>
      simp only [Frame.before] at h
      split at h
      · cases h
      · rename_i kind' k field rest hset
        split at h
        · rename_i hk
          subst hk
          cases h
          exact .token hset
        · cases h
      · rename_i kind' p field rest hset
        split at h
        · rename_i inner hinner
          cases h
          exact .node hset hinner
        · cases h
      · cases h
      · cases h
  · rintro (⟨hop, hlt, h⟩ | h | ⟨h, hp⟩)
    · simp only [Frame.before, hop, if_pos hlt, h]
    · simp only [Frame.before, h, if_pos]
    · simp only [Frame.before, h, hp]

end Grammar
end BlockC

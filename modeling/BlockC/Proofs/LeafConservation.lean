import BlockC.Proofs.Completion

/-! # Trees keep their tokens

Every token that the parser takes is a leaf of the stack, in the order of the text: of a child that
a frame has, or of a node that is complete.  This is an invariant of the stack (`Carries`), which
says of each frame below the top that it waits for a node, and of the file that it holds statements.
A step adds the token that is taken and loses no leaf (`feed_keeps`), so a run holds the tokens that
it took (`Takes.carries`).
-/
namespace BlockC

namespace Node

/-- The leaves of a tree, whatever their roles. -/
def fringe (n : Node) : List Node :=
  n.leaves.map (·.inField none)

/-- The leaves of trees, whatever their roles. -/
def fringeOf (ns : List Node) : List Node :=
  (leavesOf ns).map (·.inField none)

@[simp] theorem fringeOf_nil : fringeOf [] = [] := rfl

@[simp] theorem fringeOf_cons (n : Node) (ns : List Node) :
    fringeOf (n :: ns) = n.fringe ++ fringeOf ns := by
  simp [fringeOf, leavesOf, fringe]

@[simp] theorem fringeOf_append (ns ms : List Node) :
    fringeOf (ns ++ ms) = fringeOf ns ++ fringeOf ms := by
  induction ns with
  | nil => rfl
  | cons n ns ih => rw [List.cons_append, fringeOf_cons, fringeOf_cons, ih, List.append_assoc]

@[simp] theorem fringe_leaf (t : Token) : (leaf t).fringe = [leaf t] := rfl

@[simp] theorem fringe_inField (n : Node) (field : Option String) :
    (n.inField field).fringe = n.fringe := by
  obtain ⟨head, children⟩ := n
  cases children with
  | nil => rfl
  | cons c cs => rfl

/-- A node that has children has their leaves. -/
theorem fringe_assemble (kind : String) (pos : Position) {cs : List Node} (h : cs ≠ []) :
    (assemble kind pos cs).fringe = fringeOf cs := by
  cases cs with
  | nil => exact absurd rfl h
  | cons c cs => rfl

@[simp] theorem fringe_wrapped (n : Node) : (Grammar.wrapped n).fringe = n.fringe := by
  simp [Grammar.wrapped, fringe_assemble]

end Node

namespace Grammar

open Node (fringeOf fringe_assemble)

/-- The leaves that a frame holds. -/
def Frame.fringe : Frame → List Node
  | .partly _ done _ => fringeOf done.reverse
  | .operand _ => []
  | .operators left _ => left.fringe
  | .complete node => node.fringe

/-- A frame on top of the stack: it has a child, so the node that it becomes is no leaf. -/
def Frame.Begun : Frame → Prop
  | .partly _ done _ => done ≠ []
  | .operand _ => False
  | .operators left _ => ∃ n, left = wrapped n
  | .complete _ => True

/-- A frame below the top of the stack, which has a place for the node above. -/
def Frame.Awaiting : Frame → Prop
  | .partly _ _ (.hole _ :: _) | .operand _ => True
  | _ => False

/-- Frames that wait for a node, down to a statement of the file, and the leaves they hold. -/
inductive Under : Stack → List Node → Prop
  | stmt {done : List Node} (stmts : ∀ n ∈ done, n.kind = "stmt") :
      Under [.partly "stmt" [] [.hole none],
        .partly "source_file" done [.hole none, .choice .topLevel]] (fringeOf done.reverse)
  | frame {f : Frame} {below : Stack} {ns : List Node} (waits : f.Awaiting)
      (rest : Under below ns) : Under (f :: below) (ns ++ f.fringe)

/-- A stack, and the leaves it holds. -/
inductive Carries : Stack → List Node → Prop
  | file {done : List Node} (stmts : ∀ n ∈ done, n.kind = "stmt") :
      Carries [.partly "source_file" done [.choice .topLevel]] (fringeOf done.reverse)
  | frame {f : Frame} {below : Stack} {ns : List Node} (begun : f.Begun)
      (rest : Under below ns) : Carries (f :: below) (ns ++ f.fringe)

/-- Frames that read a node from its first token on. -/
def Starts (t : Token) (frames : List Frame) : Prop :=
  ∀ below ns, Under below ns → Carries (frames ++ below) (ns ++ [.leaf t])

section
variable {t : Token} {frames : List Frame}

theorem starts_opened {kind : String} {field : Option String} {todo : List Part} :
    Starts t [opened kind t field todo] := by
  intro below ns h
  have hframe := Carries.frame (f := opened kind t field todo) (List.cons_ne_nil _ _) h
  simpa [opened, Frame.fringe] using hframe

/-- A frame that waits for what is started. -/
theorem Starts.wrapped {f : Frame} (h : Starts t frames) (hf : f.Awaiting)
    (hnone : f.fringe = []) : Starts t (frames ++ [f]) := by
  intro below ns hbelow
  have hframe := Under.frame hf hbelow
  rw [hnone, List.append_nil] at hframe
  rw [List.append_assoc]
  exact h _ _ hframe

theorem exprFrom_starts {above : Level} (h : exprFrom above t = .ok frames) :
    Starts t frames := by
  have hoperand : ∀ (kind : String) (field : Option String) (todo : List Part),
      Starts t [opened kind t field todo, .operand above] := fun _ _ _ =>
    starts_opened.wrapped trivial rfl
  cases exprBegins_of_ok h with
  | literal hk =>
    intro below ns hbelow
    have hframe := Carries.frame (f := .operators (.leaf t |> wrapped) above) ⟨_, rfl⟩ hbelow
    simpa [Frame.fringe] using hframe
  | name hk | parenthesized hk | signed hk => exact hoperand _ _ _

theorem typeFrom_starts (h : typeFrom t = .ok frames) : Starts t frames := by
  unfold typeFrom at h
  split at h <;> cases h <;> exact starts_opened.wrapped trivial rfl

/-- A statement is read in a frame of its own. -/
theorem stmtFrom_starts (h : stmtFrom t = .ok frames) :
    ∃ inner, frames = inner ++ [Frame.partly "stmt" [] [.hole none]] ∧ Starts t inner := by
  cases stmtBegins_of_ok h with
  | @form f hf =>
    refine ⟨[f], rfl, ?_⟩
    unfold stmtFrame? at hf
    split at hf <;> cases hf <;> exact starts_opened
  | expr hexpr => exact ⟨_, rfl, exprFrom_starts hexpr⟩

theorem begin_starts {p : Production} (h : p.begin t = .ok frames) : Starts t frames := by
  cases p with
  | expr above => exact exprFrom_starts h
  | typeExpr => exact typeFrom_starts h
  | stmt =>
    obtain ⟨inner, rfl, hinner⟩ := stmtFrom_starts h
    exact hinner.wrapped trivial rfl
  | literal =>
    simp only [Production.begin] at h
    split at h
    · cases h
      intro below ns hbelow
      exact .frame (f := .complete (.leaf t)) trivial hbelow
    · cases h
  | name | typeList | typedIdent | params | codeblock =>
    obtain ⟨-, rfl⟩ := requiring_eq_ok h
    exact starts_opened
  | externalVariable =>
    obtain ⟨-, rfl⟩ := requiring_eq_ok h
    exact starts_opened.wrapped trivial rfl
  | signed | parenthesized | pointerType | arrayType | funcType | mod | declare | variadic
  | external | externalFunction | func | typeAlias | whileLoop | ifElse | returned =>
    cases h
    exact starts_opened

/-- What an operator starts with behind its left operand. -/
theorem operation?_carries {n : Node} {level : Level} {role : OperatorRole}
    (h : operation? (wrapped n) t level role = some frames) {below : Stack} {ns : List Node}
    (hbelow : Under below ns) : Carries (frames ++ below) (ns ++ n.fringe ++ [Node.leaf t]) := by
  have hopened : ∀ (kind : String) (field role : Option String) (todo : List Part),
      Carries (.partly kind [(Node.leaf t).inField field, (wrapped n).inField role] todo :: below)
        (ns ++ n.fringe ++ [Node.leaf t]) := by
    intro kind field role todo
    have hframe := Carries.frame (f := .partly kind
      [(Node.leaf t).inField field, (wrapped n).inField role] todo) (List.cons_ne_nil _ _) hbelow
    simpa [Frame.fringe] using hframe
  cases role with
  | binary | assignment | conditional =>
    cases h
    exact hopened _ _ _ _
  | call =>
    obtain ⟨callee, hcallee, -, rfl⟩ := operation?_call_eq_some.mp h
    -- The wrapper is taken apart: its only child has all its leaves.
    have hfringe : callee.fringe = n.fringe := by
      simp only [Node.onlyNamedChild?, Node.namedChildren, wrapped, Node.assemble,
        Node.children_mk] at hcallee
      split at hcallee
      · rename_i child hchild
        cases hcallee
        have hmem : child ∈ [n.inField none].filter (·.named) := by rw [hchild]; simp
        obtain rfl := List.mem_singleton.mp (List.mem_filter.mp hmem).1
        simp
      · cases hcallee
    have hcall := Under.frame (f := .partly "call_expr" [callee.inField (some "func_name")]
      [.hole (some "args")]) trivial hbelow
    have hargs : Carries ([opened "argument_list" t none
        [.choice .arguments, .mark .closeParen]] ++ _) _ := starts_opened _ _ hcall
    simpa [Frame.fringe, hfringe] using hargs

/-- What a frame does before a token keeps its leaves. -/
theorem before_carries {f : Frame} (hf : f.Begun) :
    (∀ n, f.before t = .complete n → n.fringe = f.fringe) ∧
      (∀ frames, f.before t = .shift frames → ∀ below ns, Under below ns →
        Carries (frames ++ below) (ns ++ f.fringe ++ [Node.leaf t])) := by
  constructor
  · intro n hn
    cases Frame.before_eq_complete_iff.mp hn with
    | complete n => rfl
    | operators hle => rfl
    | partly hset => exact fringe_assemble _ _ (by simpa [Frame.Begun] using hf)
  · intro frames hs below ns hbelow
    cases Frame.before_eq_shift_iff.mp hs with
    | @operators _ above _ _ inner hop hlt hinner =>
      obtain ⟨n, rfl⟩ := hf
      have hoperand := Under.frame (f := .operand above) trivial hbelow
      simp only [Frame.fringe, List.append_nil] at hoperand
      rw [List.append_assoc]
      simpa [Frame.fringe] using operation?_carries hinner hoperand
    | @token _ kind' done _ rest field hset =>
      have hframe := Carries.frame (f := .partly kind' ((Node.leaf t).inField field :: done) rest)
        (List.cons_ne_nil _ _) hbelow
      simpa [Frame.fringe] using hframe
    | @node _ kind' done _ rest p field inner hset hinner =>
      have hframe := Under.frame (f := .partly kind' done (.hole field :: rest)) trivial hbelow
      rw [List.append_assoc]
      exact begin_starts hinner _ _ hframe

/-- A frame that gets the node it waits for holds the leaves of the node, too. -/
theorem fill_begun {f : Frame} (hf : f.Awaiting) (n : Node) :
    (f.fill n).Begun ∧ (f.fill n).fringe = f.fringe ++ n.fringe := by
  cases f with
  | complete node | operators left above => exact hf.elim
  | operand above => exact ⟨⟨n, rfl⟩, by simp [Frame.fill, Frame.fringe]⟩
  | partly kind done todo =>
    cases todo with
    | nil => exact hf.elim
    | cons part rest =>
      cases part with
      | token _ _ | node _ _ | choice _ => exact hf.elim
      | hole field => exact ⟨List.cons_ne_nil _ _, by simp [Frame.fill, Frame.fringe]⟩

/-- What a stack does before a token loses no leaf. -/
def Step.Keeps (t : Token) (ns : List Node) : Step → Prop
  | .shift next => Carries next (ns ++ [.leaf t])
  | .stuck _ pending => Carries pending ns
  | .done root => ∃ stmts, root = .assemble "source_file" .origin stmts ∧
      (∀ n ∈ stmts, n.kind = "stmt") ∧ fringeOf stmts = ns

theorem file_keeps {done : List Node} (hdone : ∀ n ∈ done, n.kind = "stmt") :
    (feed t [.partly "source_file" done [.choice .topLevel]]).Keeps t (fringeOf done.reverse) := by
  by_cases heof : t.kind = .eof
  · simp only [feed, Frame.before, heof, settle, Choice.expand, Choice.rename?, Option.getD_none,
      List.append_nil, resume]
    exact ⟨done.reverse, rfl, by simpa using hdone, rfl⟩
  · simp only [feed, Frame.before, settle_topLevel heof]
    cases hbegin : Production.stmt.begin t with
    | error request => exact .file hdone
    | ok frames =>
      obtain ⟨inner, rfl, hinner⟩ := stmtFrom_starts hbegin
      have hstarts := hinner _ _ (.stmt hdone)
      simpa [Step.Keeps] using hstarts

/-- Handing on a node loses no leaf. -/
theorem resume_keeps {below : Stack} {ns : List Node} (h : Under below ns) (n : Node) :
    (resume t n below).Keeps t (ns ++ n.fringe) := by
  induction h generalizing n with
  | @stmt done hdone =>
    -- The statement is complete, and the file goes on behind it.
    have hfile : (feed t [.partly "source_file"
        (.assemble "stmt" .origin [n.inField none] :: done) [.choice .topLevel]]).Keeps t _ :=
      file_keeps (List.forall_mem_cons.mpr ⟨rfl, hdone⟩)
    simp only [List.reverse_cons, Node.fringeOf_append, Node.fringeOf_cons, Node.fringeOf_nil,
      List.append_nil, fringe_assemble _ _ (List.cons_ne_nil _ _), Node.fringe_inField] at hfile
    exact hfile
  | @frame f below ns waits rest ih =>
    obtain ⟨hbegun, hfringe⟩ := fill_begun waits n
    obtain ⟨hcomplete, hshift⟩ := before_carries (t := t) hbegun
    rw [List.append_assoc, ← hfringe]
    unfold resume
    cases hb : (f.fill n).before t with
    | shift frames => exact hshift frames hb _ _ rest
    | complete node =>
      rw [← hcomplete node hb]
      exact ih node
    | stuck request => exact .frame hbegun rest

/-- **What a stack does before a token loses no leaf.** -/
theorem feed_keeps {stack : Stack} {ns : List Node} (h : Carries stack ns) :
    (feed t stack).Keeps t ns := by
  cases h with
  | file hdone => exact file_keeps hdone
  | @frame f below ns begun rest =>
    obtain ⟨hcomplete, hshift⟩ := before_carries (t := t) begun
    simp only [feed]
    cases hb : f.before t with
    | shift frames => exact hshift frames hb _ _ rest
    | complete node =>
      have hnode := resume_keeps (t := t) rest node
      rwa [hcomplete node hb] at hnode
    | stuck request => exact .frame begun rest

end

/-- **Tokens that are taken are the leaves of the stack.** -/
theorem Takes.carries {ts : List Token} {stack next : Stack} {ns : List Node}
    (h : Takes ts stack next) (hs : Carries stack ns) : Carries next (ns ++ ts.map .leaf) := by
  induction ts generalizing stack ns with
  | nil =>
    obtain rfl : stack = next := h
    simpa using hs
  | cons t ts ih =>
    obtain ⟨after, hfeed, hrest⟩ := h
    have hstep := feed_keeps (t := t) hs
    rw [hfeed] at hstep
    simpa using ih hrest hstep

/-- Below everything lies the file, whose leaves come first. -/
theorem Under.file {below : Stack} {ns : List Node} (h : Under below ns) :
    ∃ done todo, below.getLast? = some (.partly "source_file" done todo) ∧
      (∀ n ∈ done, n.kind = "stmt") ∧ fringeOf done.reverse <+: ns := by
  induction h with
  | @stmt done stmts => exact ⟨done, _, rfl, stmts, List.prefix_refl _⟩
  | @frame f below ns waits rest ih =>
    obtain ⟨done, todo, hlast, hdone, hprefix⟩ := ih
    refine ⟨done, todo, ?_, hdone, hprefix.trans (List.prefix_append _ _)⟩
    rw [List.getLast?_cons, hlast]
    rfl

/-- The statements of the file come first among the leaves of a stack. -/
theorem Carries.outermost {stack : Stack} {ns : List Node} (h : Carries stack ns) :
    (∀ n ∈ stack.outermost, n.kind = "stmt") ∧ fringeOf stack.outermost <+: ns := by
  cases h with
  | file hdone => exact ⟨by simpa [Stack.outermost] using hdone, List.prefix_refl _⟩
  | @frame f below ns begun rest =>
    obtain ⟨done, todo, hlast, hdone, hprefix⟩ := rest.file
    have houter : Stack.outermost (f :: below) = done.reverse := by
      simp [Stack.outermost, List.getLast?_cons, hlast]
    rw [houter]
    exact ⟨by simpa using hdone, hprefix.trans (List.prefix_append _ _)⟩

end Grammar
end BlockC

import BlockC.Proofs.FrameMoves

/-! # Invariants of the stack

A stack of frames builds a node bottom up, so a property of the finished nodes is an invariant of
the stack if it survives the ways in which a frame can be started and completed.  This module says
once what these ways are.

A *contract* `C p t n` says that `n` is a complete piece of sort `p` when the next token is `t`.  A
frame is *ready* if every way to fill in its remaining parts meets the contract (`Frame.Ready`), and
*awaits* a piece if it is ready once that piece is in its place (`Frame.Awaits`).  A contract is
*closed* (`Closed`) if what each production starts with is ready, what each operator starts with is
ready, and an operand before a looser token is an expression.  Then the stack stays ready from token
to token, and the node that it ends with meets the contract (`drive_meets`).
-/
namespace BlockC
namespace Grammar

/-- What a frame is on the way to. -/
inductive Piece where
  | expr (above : Level)
  /-- An expression without its wrapper, whose operators hold tighter than the given level. -/
  | operand (above : Level)
  /-- The arguments of a call, with their parentheses. -/
  | arguments
  | typeExpr
  /-- A type without its wrapper. -/
  | typeForm
  | typeList
  | stmt
  /-- A statement without its wrapper. -/
  | form
  | ifElse
  | codeblock
  | typedIdent
  | params
  | variadic
  | externalFunction
  | externalVariable
  | file
  /-- A form that only its first word chooses, and that no part of another asks for. -/
  | loose
deriving DecidableEq, Repr

/-- What a production is on the way to. -/
def Production.piece : Production → Piece
  | .expr above => .expr above
  | .literal | .name => .operand .call
  | .typeExpr => .typeExpr
  | .typeList => .typeList
  | .stmt => .stmt
  | .typedIdent => .typedIdent
  | .params => .params
  | .variadic => .variadic
  | .codeblock => .codeblock
  | .externalFunction => .externalFunction
  | .externalVariable => .externalVariable
  | .ifElse => .ifElse
  | .signed | .parenthesized | .pointerType | .arrayType | .funcType | .mod | .declare
  | .external | .func | .typeAlias | .whileLoop | .returned => .loose

section Contract
variable (C : Piece → Token → Node → Prop) (T : Token → Prop)

/-- The children that may stand for the parts still to come, and the kind that the node ends up
with.  `next` is the token behind the last of them: a piece at the very end is complete before
it. -/
inductive Fits (next : Token) : String → List Part → String → List Node → Prop
  | nil {kind : String} : Fits next kind [] kind []
  | token {kind kind' : String} {k : Kind} {field : Option String} {rest : List Part}
      {cs : List Node} {t : Token} (ht : T t) (hk : t.kind = k)
      (hrest : Fits next kind rest kind' cs) :
      Fits next kind (.token k field :: rest) kind' ((Node.leaf t).inField field :: cs)
  | node {kind kind' : String} {p : Production} {field : Option String} {rest : List Part}
      {cs : List Node} {t : Token} {n : Node} (hn : C p.piece t n) (hlast : cs = [] → next = t)
      (hrest : Fits next kind rest kind' cs) :
      Fits next kind (.node p field :: rest) kind' (n.inField field :: cs)
  | choice {kind kind' : String} {c : Choice} {k : Kind} {rest : List Part} {cs : List Node}
      (hexp : Fits next ((c.rename? k).getD kind) (c.expand k ++ rest) kind' cs) :
      Fits next kind (.choice c :: rest) kind' cs

/-- A frame on top of the stack that is a piece of sort `p` as soon as its parts are filled in.
If nothing is left to fill in, it is complete before `t`. -/
def Frame.Ready (p : Piece) (t : Token) : Frame → Prop
  | .partly kind done todo => ∀ next kind' cs, (cs = [] → next = t) →
      Fits C T next kind todo kind' cs → C p next (.assemble kind' .origin (done.reverse ++ cs))
  | .operators left above => p = .expr above ∧ ∃ n, left = wrapped n ∧ C (.operand above) t n
  | .operand _ => False
  | .complete node => C p t node

/-- A frame below the top that is a piece of sort `p` as soon as it is given one of sort `q` and its
parts are filled in. -/
def Frame.Awaits (q p : Piece) : Frame → Prop
  | .partly kind done (.hole field :: rest) => ∀ t n next kind' cs, C q t n →
      (cs = [] → next = t) → Fits C T next kind rest kind' cs →
      C p next (.assemble kind' .origin (done.reverse ++ n.inField field :: cs))
  | .operand above => q = .operand above ∧ p = .expr above
  | _ => False

/-- Frames that turn a piece of sort `q` into one of sort `p`, each giving what the next awaits. -/
def Passes (q p : Piece) : List Frame → Prop
  | [] => q = p
  | f :: rest => ∃ r, f.Awaits C T q r ∧ Passes r p rest

/-- Frames that are on the way to a piece of sort `p`, whatever token comes next. -/
def Builds (p : Piece) : List Frame → Prop
  | [] => False
  | f :: rest => ∃ q, (∀ t, f.Ready C T q t) ∧ Passes C T q p rest

/-- A contract that is met by whatever the grammar starts, goes on with behind an operand, and wraps
as an expression. -/
structure Closed : Prop where
  start : ∀ {p : Production} {t : Token} {frames : List Frame}, T t →
    p.begin t = .ok frames → Builds C T p.piece frames
  operation : ∀ {n : Node} {t : Token} {above level : Level} {role : OperatorRole}
    {frames : List Frame}, T t → C (.operand above) t n →
    t.kind.behindOperand? = some (level, role) → above.rank < level.rank →
    operation? (wrapped n) t level role = some frames → Builds C T (.operand above) frames
  expr : ∀ {n : Node} {t : Token} {above : Level}, C (.operand above) t n →
    (∀ level role, t.kind.behindOperand? = some (level, role) → level.rank ≤ above.rank) →
    C (.expr above) t (wrapped n)

variable {C T}

/-! ### Taking children apart -/

theorem fits_nil {next : Token} {kind kind' : String} {cs : List Node} :
    Fits C T next kind [] kind' cs ↔ kind' = kind ∧ cs = [] := by
  constructor
  · intro h
    cases h
    exact ⟨rfl, rfl⟩
  · rintro ⟨rfl, rfl⟩
    exact .nil

theorem fits_token {next : Token} {kind kind' : String} {k : Kind} {field : Option String}
    {rest : List Part} {cs : List Node} :
    Fits C T next kind (.token k field :: rest) kind' cs ↔
      ∃ t cs', T t ∧ t.kind = k ∧ cs = (Node.leaf t).inField field :: cs' ∧
        Fits C T next kind rest kind' cs' := by
  constructor
  · intro h
    cases h with
    | token ht hk hrest => exact ⟨_, _, ht, hk, rfl, hrest⟩
  · rintro ⟨t, cs', ht, hk, rfl, hrest⟩
    exact .token ht hk hrest

theorem fits_node {next : Token} {kind kind' : String} {p : Production} {field : Option String}
    {rest : List Part} {cs : List Node} :
    Fits C T next kind (.node p field :: rest) kind' cs ↔
      ∃ t n cs', C p.piece t n ∧ (cs' = [] → next = t) ∧ cs = n.inField field :: cs' ∧
        Fits C T next kind rest kind' cs' := by
  constructor
  · intro h
    cases h with
    | node hn hlast hrest => exact ⟨_, _, _, hn, hlast, rfl, hrest⟩
  · rintro ⟨t, n, cs', hn, hlast, rfl, hrest⟩
    exact .node hn hlast hrest

theorem fits_choice {next : Token} {kind kind' : String} {c : Choice} {rest : List Part}
    {cs : List Node} :
    Fits C T next kind (.choice c :: rest) kind' cs ↔
      ∃ k, Fits C T next ((c.rename? k).getD kind) (c.expand k ++ rest) kind' cs := by
  constructor
  · intro h
    cases h with
    | choice hexp => exact ⟨_, hexp⟩
  · rintro ⟨k, hexp⟩
    exact .choice hexp

/-- The parts that a choice may go on with. -/
def Choice.options : Choice → List Part
  | .segments => [.mark .dot, .token .identifier none, .choice .segments]
  | .arguments => [.node (.expr .lowest) none, .choice .moreArguments]
  | .moreArguments => [.mark .comma, .node (.expr .lowest) none, .choice .moreArguments]
  | .types => [.node .typeExpr none, .choice .moreTypes]
  | .moreTypes => [.mark .comma, .node .typeExpr none, .choice .moreTypes]
  | .size => [.mark .closeBracket, .node .typeExpr (some "element"), .token .number (some "size")]
  | .initial => [.mark .assign, .node (.expr .lowest) (some "initial")]
  | .otherwise => [.word .elseKw, .choice .alternative]
  | .alternative => [.node .ifElse (some "alternative"), .node .codeblock (some "alternative")]
  | .externalForm => [.node .externalFunction none, .node .externalVariable none]
  | .parameters | .parameter =>
    [.node .variadic none, .node .typedIdent none, .choice .moreParameters]
  | .moreParameters => [.mark .comma, .choice .parameter]
  | .statements => [.node .stmt none, .choice .statements]
  | .topLevel => [.node .stmt none, .choice .topLevel]

theorem Choice.expand_subset_options (c : Choice) (k : Kind) : c.expand k ⊆ c.options := by
  cases c <;> unfold Choice.expand <;> split <;> simp_all [Choice.options]

theorem Choice.rename?_eq_none {c : Choice} (h : c ≠ .size) (k : Kind) : c.rename? k = none := by
  cases c <;> first | exact absurd rfl h | rfl

variable (C T) in
/-- A part whose nodes all have a property and that leads to no part outside a list. -/
def Part.Within (P : Node → Prop) (parts : List Part) : Part → Prop
  | .token k field => ∀ t, T t → t.kind = k → P ((Node.leaf t).inField field)
  | .node p field => ∀ t n, C p.piece t n → P (n.inField field)
  | .hole _ => True
  | .choice c => c ≠ .size ∧ c.options ⊆ parts

/-- Where only a few parts can come up, the children are of a few kinds.  This is how lists are
read. -/
theorem fits_all (parts : List Part) {P : Node → Prop}
    (hparts : ∀ part ∈ parts, part.Within C T P parts) {next : Token} {kind kind' : String}
    {todo : List Part} {cs : List Node} (h : Fits C T next kind todo kind' cs)
    (htodo : todo ⊆ parts) : kind' = kind ∧ ∀ c ∈ cs, P c := by
  induction h with
  | nil => exact ⟨rfl, by simp⟩
  | token ht hk _ ih =>
    obtain ⟨hpart, hrest⟩ := List.cons_subset.mp htodo
    obtain ⟨hkind, hall⟩ := ih hrest
    refine ⟨hkind, fun c hc => ?_⟩
    rcases List.mem_cons.mp hc with rfl | hc
    · exact hparts _ hpart _ ht hk
    · exact hall c hc
  | node hn _ _ ih =>
    obtain ⟨hpart, hrest⟩ := List.cons_subset.mp htodo
    obtain ⟨hkind, hall⟩ := ih hrest
    refine ⟨hkind, fun c hc => ?_⟩
    rcases List.mem_cons.mp hc with rfl | hc
    · exact hparts _ hpart _ _ hn
    · exact hall c hc
  | @choice kind _ c k rest _ _ ih =>
    obtain ⟨hpart, hrest⟩ := List.cons_subset.mp htodo
    obtain ⟨hsize, hoptions⟩ := hparts _ hpart
    rw [Choice.rename?_eq_none hsize] at ih
    have hexpand := List.Subset.trans (c.expand_subset_options k) hoptions
    exact ih (List.append_subset.mpr ⟨hexpand, hrest⟩)

/-! ### From token to token -/

theorem passes_append {q r p : Piece} {fs gs : List Frame} (h : Passes C T q r fs)
    (h' : Passes C T r p gs) : Passes C T q p (fs ++ gs) := by
  induction fs generalizing q with
  | nil =>
    obtain rfl : q = r := h
    exact h'
  | cons f fs ih =>
    obtain ⟨s, hf, hs⟩ := h
    exact ⟨s, hf, ih hs⟩

theorem builds_append {q p : Piece} {fs gs : List Frame} (h : Builds C T q fs)
    (h' : Passes C T q p gs) : Builds C T p (fs ++ gs) := by
  cases fs with
  | nil => exact h.elim
  | cons f fs =>
    obtain ⟨r, hf, hr⟩ := h
    exact ⟨r, hf, passes_append hr h'⟩

/-- A frame that is given what it awaits is ready. -/
theorem Frame.Awaits.fill {q p : Piece} {t : Token} {n : Node} {f : Frame}
    (hf : f.Awaits C T q p) (hn : C q t n) : (f.fill n).Ready C T p t := by
  match f, hf with
  | .partly kind done (.hole field :: rest), hf =>
    intro next kind' cs hlast hfits
    simpa [Frame.fill] using hf t n next kind' cs hn hlast hfits
  | .operand above, hf =>
    obtain ⟨rfl, rfl⟩ := hf
    exact ⟨rfl, n, rfl, hn⟩

/-- Opening a choice leaves a frame ready. -/
theorem ready_settle {p : Piece} {t : Token} {kind : String} {done : List Node}
    {todo : List Part} (h : (Frame.partly kind done todo).Ready C T p t) (k : Kind) :
    (Frame.partly (settle kind k todo).1 done (settle kind k todo).2).Ready C T p t := by
  match todo with
  | [] | .token _ _ :: _ | .node _ _ :: _ | .hole _ :: _ => exact h
  | .choice c :: rest =>
    intro next kind' cs hlast hfits
    exact h next kind' cs hlast (.choice hfits)

/-- What a ready frame does before a token: it completes a piece, or becomes frames that build
one. -/
theorem Frame.Ready.before (hC : Closed C T) {p : Piece} {t : Token} {f : Frame}
    (hf : f.Ready C T p t) :
    (∀ n, f.before t = .complete n → C p t n) ∧
      (∀ frames, f.before t = .shift frames → T t → Builds C T p frames) := by
  constructor
  · intro n hn
    cases Frame.before_eq_complete_iff.mp hn with
    | complete n => exact hf
    | operators hle =>
      obtain ⟨rfl, left, rfl, hleft⟩ := hf
      exact hC.expr hleft hle
    | partly hset =>
      have hready := ready_settle hf t.kind
      rw [hset] at hready
      simpa using hready t _ [] (fun _ => rfl) .nil
  · intro frames hs ht
    cases Frame.before_eq_shift_iff.mp hs with
    | operators hop hlt hinner =>
      obtain ⟨rfl, left, rfl, hleft⟩ := hf
      exact builds_append (hC.operation ht hleft hop hlt hinner) ⟨_, ⟨rfl, rfl⟩, rfl⟩
    | token hset =>
      have hready := ready_settle hf t.kind
      rw [hset] at hready
      refine ⟨p, fun t' next kind cs _ hfits => ?_, rfl⟩
      simpa using hready next kind _ (by simp) (.token ht rfl hfits)
    | node hset hinner =>
      have hready := ready_settle hf t.kind
      rw [hset] at hready
      refine builds_append (hC.start ht hinner) ⟨p, ?_, rfl⟩
      intro t' n next kind cs hn hlast hfits
      exact hready next kind _ (by simp) (.node hn hlast hfits)

/-- What a stack does once a piece is handed to it. -/
theorem resume_meets (hC : Closed C T) {q p : Piece} {t : Token} {n : Node} {stack : Stack}
    (hn : C q t n) (hp : Passes C T q p stack) :
    (∀ m, resume t n stack = .done m → C p t m) ∧
      (∀ next, resume t n stack = .shift next → T t → Builds C T p next) := by
  induction stack generalizing q n with
  | nil =>
    obtain rfl : q = p := hp
    refine ⟨fun m hm => ?_, fun _ hs => by cases hs⟩
    cases hm
    exact hn
  | cons f rest ih =>
    obtain ⟨r, hf, hr⟩ := hp
    obtain ⟨hcomplete, hshift⟩ := (hf.fill hn).before hC
    unfold resume
    cases hb : (f.fill n).before t with
    | shift frames =>
      refine ⟨fun m hm => (by cases hm), fun next hs ht => ?_⟩
      cases hs
      exact builds_append (hshift frames hb ht) hr
    | complete node => exact ih (hcomplete node hb) hr
    | stuck request => exact ⟨fun m hm => (by cases hm), fun _ hs => by cases hs⟩

/-- What a stack that is on the way to a piece does before a token. -/
theorem feed_meets (hC : Closed C T) {p : Piece} {t : Token} {stack : Stack}
    (hs : Builds C T p stack) :
    (∀ m, feed t stack = .done m → C p t m) ∧
      (∀ next, feed t stack = .shift next → T t → Builds C T p next) := by
  cases stack with
  | nil => exact hs.elim
  | cons f rest =>
    obtain ⟨q, hf, hq⟩ := hs
    obtain ⟨hcomplete, hshift⟩ := (hf t).before hC
    simp only [feed]
    cases hb : f.before t with
    | shift frames =>
      refine ⟨fun m hm => (by cases hm), fun next hs ht => ?_⟩
      cases hs
      exact builds_append (hshift frames hb ht) hq
    | complete node => exact resume_meets hC (hcomplete node hb) hq
    | stuck request => exact ⟨fun m hm => (by cases hm), fun _ hs => by cases hs⟩

/-- **What a stack reads meets a closed contract before the token that the reading ends at.**  The
invariant from token to token is that the stack builds the piece. -/
theorem drive_meets (hC : Closed C T) {p : Piece} {s : Stream} {stack : Stack}
    {ahead : List Token} {n : Node} (hs : Builds C T p stack) (hT : ∀ t ∈ ahead, T t)
    (h : (drive s stack ahead).result = .ok n) : C p (drive s stack ahead).stream.current n := by
  induction ahead generalizing s stack with
  | nil =>
    obtain ⟨hdone, -⟩ := feed_meets hC (t := .eof s.stop) hs
    unfold drive at h ⊢
    cases hf : feed (.eof s.stop) stack with
    | done node =>
      simp only [hf] at h ⊢
      obtain rfl := Except.ok.inj h
      exact hdone node hf
    | stuck request pending => simp [hf] at h
    | shift pending => simp [hf] at h
  | cons t rest ih =>
    obtain ⟨hdone, hshift⟩ := feed_meets hC (t := t) hs
    unfold drive at h ⊢
    cases hf : feed t stack with
    | done node =>
      simp only [hf] at h ⊢
      obtain rfl := Except.ok.inj h
      exact hdone node hf
    | stuck request pending => simp [hf] at h
    | shift next =>
      simp only [hf] at h ⊢
      exact ih (hshift next hf (hT t (by simp))) (fun u hu => hT u (by simp [hu])) h

end Contract

end Grammar
end BlockC

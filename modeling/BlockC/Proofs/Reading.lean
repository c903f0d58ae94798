import BlockC.Grammar.SourceFile
import BlockC.Proofs.TreeReading

/-! # Reading productions

How a stack of frames gets through the tokens of a production.  A stack *takes* tokens if it shifts
them one after the other (`Takes`).  Tokens *read* a production (`Reads`) if every frame that asks
for it takes them and then goes on, before any token that may follow, as if the finished node had
been there at once; they *fill* a list of parts (`Fills`) if a frame takes them for these parts.
The lemmas here put readings together along the grammar, with one lemma for each kind of part.
-/
namespace BlockC
namespace Grammar

/-! ### Taking tokens -/

/-- The stack takes the tokens, one after the other, and becomes the other stack. -/
def Takes : List Token → Stack → Stack → Prop
  | [], s, s' => s = s'
  | t :: ts, s, s' => ∃ next, feed t s = .shift next ∧ Takes ts next s'

theorem Takes.append {ts us : List Token} {a b c : Stack} (h : Takes ts a b) (h' : Takes us b c) :
    Takes (ts ++ us) a c := by
  induction ts generalizing a with
  | nil =>
    obtain rfl : a = b := h
    exact h'
  | cons t ts ih =>
    obtain ⟨next, hfeed, hrest⟩ := h
    exact ⟨next, hfeed, ih hrest⟩

/-- A stack that does the same before the next token takes the same tokens. -/
theorem Takes.of_feed {t : Token} {ts : List Token} {a a' b : Stack} (hfeed : feed t a = feed t a')
    (h : Takes (t :: ts) a' b) : Takes (t :: ts) a b := by
  obtain ⟨next, hnext, hrest⟩ := h
  exact ⟨next, hfeed.trans hnext, hrest⟩

/-- Reading goes on from the stack that the first tokens lead to. -/
theorem drive_of_takes {ts : List Token} {a b : Stack} (h : Takes ts a b) (rest : List Token)
    (s : Stream) : ∃ s', s'.stop = s.stop ∧ drive s a (ts ++ rest) = drive s' b rest := by
  induction ts generalizing a s with
  | nil =>
    obtain rfl : a = b := h
    exact ⟨s, rfl, rfl⟩
  | cons t ts ih =>
    obtain ⟨next, hfeed, hrest⟩ := h
    obtain ⟨s', hstop, hdrive⟩ := ih hrest { s with index := s.index + 1, last := some t }
    refine ⟨s', hstop, ?_⟩
    rw [List.cons_append, drive, hfeed]
    exact hdrive

/-- A production is read from a text if the stack takes all its tokens and its end completes the
node. -/
theorem read_of_takes {source : String} {p : Production} {first : Token} {rest : List Token}
    {frames stack : Stack} {n : Node} (htokens : tokens source = first :: rest)
    (hbegin : p.begin first = .ok frames) (htakes : Takes rest frames stack)
    (hdone : ∀ stop, feed (.eof stop) stack = .done n) :
    ∃ place, (Stream.ofString source).read p = ⟨.ok n, place, []⟩ ∧ place.ahead = [] := by
  have hstart : (Stream.ofString source).current = first ∧
      (Stream.ofString source).next = ⟨1, some first, rest, endOfText source⟩ := by
    simp [Stream.ofString, Stream.current, Stream.next, htokens]
  obtain ⟨s, -, hdrive⟩ := drive_of_takes htakes [] ⟨1, some first, rest, endOfText source⟩
  rw [List.append_nil] at hdrive
  refine ⟨{ s with ahead := [] }, ?_, rfl⟩
  rw [Stream.read, hstart.1, hstart.2, hbegin]
  simp only [hdrive, drive, hdone]

theorem feed_of_shift {t : Token} {f : Frame} {base : Stack} {frames : List Frame}
    (h : f.before t = .shift frames) : feed t (f :: base) = .shift (frames ++ base) := by
  rw [feed, h]

/-- A complete frame hands its node to the frame below. -/
theorem feed_of_complete {t : Token} {f g : Frame} {base : Stack} {n : Node}
    (h : f.before t = .complete n) : feed t (f :: g :: base) = feed t (g.fill n :: base) := by
  rw [feed, h]
  rfl

/-- A frame with nothing left to read is complete. -/
theorem before_nil {t : Token} {kind : String} {done : List Node} :
    (Frame.partly kind done []).before t = .complete (.assemble kind .origin done.reverse) := rfl

theorem before_token {t : Token} {kind : String} {done : List Node} {k : Kind}
    {field : Option String} {rest : List Part} (h : t.kind = k) :
    (Frame.partly kind done (.token k field :: rest)).before t =
      .shift [.partly kind ((Node.leaf t).inField field :: done) rest] := by
  simp [Frame.before, settle, h]

theorem before_node {t : Token} {kind : String} {done : List Node} {p : Production}
    {field : Option String} {rest : List Part} {frames : List Frame}
    (h : p.begin t = .ok frames) :
    (Frame.partly kind done (.node p field :: rest)).before t =
      .shift (frames ++ [Frame.partly kind done (.hole field :: rest)]) := by
  simp [Frame.before, settle, h]

/-- Whether the next part is decided by the next token. -/
def startsOpen : List Part → Bool
  | .choice _ :: _ => true
  | _ => false

theorem settle_of_not_open {kind : String} {k : Kind} {parts : List Part}
    (h : startsOpen parts = false) : settle kind k parts = (kind, parts) := by
  cases parts with
  | nil => rfl
  | cons part rest => cases part <;> first | rfl | cases h

/-- A choice is opened before a token. -/
theorem before_choice {t : Token} {kind : String} {done : List Node} {c : Choice}
    {rest : List Part} (hc : c.rename? t.kind = none)
    (hrest : startsOpen (c.expand t.kind ++ rest) = false) :
    (Frame.partly kind done (.choice c :: rest)).before t =
      (Frame.partly kind done (c.expand t.kind ++ rest)).before t := by
  simp only [Frame.before, settle_of_not_open hrest]
  rw [settle, hc, Option.getD_none]

theorem feed_choice {t : Token} {kind : String} {done : List Node} {c : Choice}
    {rest : List Part} {base : Stack} (hc : c.rename? t.kind = none)
    (hrest : startsOpen (c.expand t.kind ++ rest) = false)
    (h : ∀ request stack,
      feed t (.partly kind done (c.expand t.kind ++ rest) :: base) ≠ .stuck request stack) :
    feed t (.partly kind done (.choice c :: rest) :: base) =
      feed t (.partly kind done (c.expand t.kind ++ rest) :: base) := by
  simp only [feed] at h ⊢
  rw [before_choice hc hrest]
  cases hb : (Frame.partly kind done (c.expand t.kind ++ rest)).before t with
  | shift frames => rfl
  | complete node => rfl
  | stuck request => exact absurd (by rw [hb]) (h request _)

/-- The end of a text. -/
def EndOfText (t : Token) : Prop :=
  t.kind = .eof

/-! ### Productions and their parts -/

/-- Frames take the tokens, and before every token in `next` they go on as if the node had been
there at once. -/
def Completes (frames : List Frame) (next : Token → Prop) (ts : List Token) (n : Node) : Prop :=
  ∀ base, ∃ stack, Takes ts (frames ++ base) stack ∧
    ∀ t, next t → feed t stack = feed t (.complete n :: base)

/-- The tokens are read as a node of the production. -/
def Reads (p : Production) (next : Token → Prop) (ts : List Token) (n : Node) : Prop :=
  ∃ first rest frames, ts = first :: rest ∧ p.begin first = .ok frames ∧
    Completes frames next rest n

/-- A frame takes the tokens for all the parts that it still has to read. -/
def Fills (kind : String) (parts : List Part) (next : Token → Prop) (ts : List Token)
    (cs : List Node) : Prop :=
  ∀ done base, ∃ stack, Takes ts (.partly kind done parts :: base) stack ∧
    ∀ t, next t → feed t stack = feed t (.partly kind (cs.reverse ++ done) [] :: base)

section
variable {kind : String} {parts : List Part} {next next' : Token → Prop} {ts us : List Token}
  {cs : List Node} {n : Node} {p : Production} {field : Option String}

theorem Completes.mono {frames : List Frame} (h : Completes frames next ts n)
    (hnext : ∀ t, next' t → next t) : Completes frames next' ts n := by
  intro base
  obtain ⟨stack, htakes, hsettles⟩ := h base
  exact ⟨stack, htakes, fun t ht => hsettles t (hnext t ht)⟩

theorem Reads.mono (h : Reads p next ts n) (hnext : ∀ t, next' t → next t) :
    Reads p next' ts n := by
  obtain ⟨first, rest, frames, hts, hbegin, hread⟩ := h
  exact ⟨first, rest, frames, hts, hbegin, hread.mono hnext⟩

theorem feed_complete {t : Token} {f : Frame} {base : Stack} :
    feed t (.complete n :: f :: base) = feed t (f.fill n :: base) := rfl

/-- A frame that asks for the production takes the tokens and goes on with the node. -/
theorem Reads.takes (h : Reads p next ts n) (done : List Node) (todo : List Part) (base : Stack) :
    ∃ stack, Takes ts (.partly kind done (.node p field :: todo) :: base) stack ∧
      ∀ t, next t →
        feed t stack = feed t (.partly kind (n.inField field :: done) todo :: base) := by
  obtain ⟨first, rest, frames, rfl, hbegin, hread⟩ := h
  obtain ⟨stack, htakes, hsettles⟩ := hread (.partly kind done (.hole field :: todo) :: base)
  refine ⟨stack, ⟨_, feed_of_shift (before_node hbegin), ?_⟩, hsettles⟩
  rw [List.append_assoc]
  exact htakes

theorem Fills.mono (h : Fills kind parts next ts cs) (hnext : ∀ t, next' t → next t) :
    Fills kind parts next' ts cs := by
  intro done base
  obtain ⟨stack, htakes, hsettles⟩ := h done base
  exact ⟨stack, htakes, fun t ht => hsettles t (hnext t ht)⟩

theorem Fills.nil : Fills kind [] next [] [] :=
  fun _ _ => ⟨_, rfl, fun _ _ => rfl⟩

theorem Fills.token {t : Token} {k : Kind} (hk : t.kind = k) (h : Fills kind parts next ts cs) :
    Fills kind (.token k field :: parts) next (t :: ts) ((Node.leaf t).inField field :: cs) := by
  intro done base
  obtain ⟨stack, htakes, hsettles⟩ := h ((Node.leaf t).inField field :: done) base
  refine ⟨stack, ⟨_, feed_of_shift (before_token hk), htakes⟩, fun u hu => ?_⟩
  rw [hsettles u hu, List.reverse_cons, List.append_assoc, List.singleton_append]

/-- A node, and behind it the token that shows that the node ends. -/
theorem Fills.node {u : Token} (h : Reads p next' ts n) (hu : next' u)
    (hs : Fills kind parts next (u :: us) cs) :
    Fills kind (.node p field :: parts) next (ts ++ u :: us) (n.inField field :: cs) := by
  intro done base
  obtain ⟨stack, htakes, hsettles⟩ := h.takes done parts base
  obtain ⟨stack', htakes', hsettles'⟩ := hs (n.inField field :: done) base
  refine ⟨stack', htakes.append (htakes'.of_feed (hsettles u hu)), fun t ht => ?_⟩
  rw [hsettles' t ht, List.reverse_cons, List.append_assoc, List.singleton_append]

/-- A node with no tokens behind it. -/
theorem Fills.lastNode (h : Reads p next' ts n) (hnext : ∀ t, next t → next' t)
    (hs : Fills kind parts next [] cs) :
    Fills kind (.node p field :: parts) next ts (n.inField field :: cs) := by
  intro done base
  obtain ⟨stack, htakes, hsettles⟩ := h.takes done parts base
  obtain ⟨stack', rfl, hsettles'⟩ := hs (n.inField field :: done) base
  refine ⟨stack, htakes, fun t ht => ?_⟩
  rw [hsettles t (hnext t ht), hsettles' t ht, List.reverse_cons, List.append_assoc,
    List.singleton_append]

/-- A node as the only part that is left. -/
theorem Reads.lastPart (h : Reads p next ts n) :
    Fills kind [.node p field] next ts [n.inField field] :=
  .lastNode h (fun _ hu => hu) .nil

/-- A node that can be followed by anything. -/
theorem Fills.closedNode (h : Reads p (fun _ => True) ts n) (hs : Fills kind parts next us cs) :
    Fills kind (.node p field :: parts) next (ts ++ us) (n.inField field :: cs) := by
  cases us with
  | nil =>
    rw [List.append_nil]
    exact .lastNode h (fun _ _ => trivial) hs
  | cons u us => exact .node h trivial hs

/-- A choice that the first token decides. -/
theorem Fills.choice {c : Choice} {t : Token} {chosen : List Part}
    (hc : c.rename? t.kind = none) (hchosen : c.expand t.kind = chosen)
    (hopen : startsOpen (chosen ++ parts) = false)
    (h : Fills kind (chosen ++ parts) next (t :: ts) cs) :
    Fills kind (.choice c :: parts) next (t :: ts) cs := by
  subst hchosen
  intro done base
  obtain ⟨stack, ⟨after, hfeed, htakes⟩, hsettles⟩ := h done base
  refine ⟨stack, ⟨after, ?_, htakes⟩, hsettles⟩
  rw [feed_choice hc hopen (by simp [hfeed]), hfeed]

/-- A choice that nothing is taken for. -/
theorem Fills.noChoice {c : Choice}
    (hc : ∀ t, next t → c.rename? t.kind = none ∧ c.expand t.kind = []) :
    Fills kind [.choice c] next [] [] := by
  intro done base
  refine ⟨_, rfl, fun t ht => ?_⟩
  obtain ⟨hrename, hexpand⟩ := hc t ht
  have hsame : (Frame.partly kind done [.choice c]).before t =
      (Frame.partly kind done []).before t := by
    rw [before_choice hrename (by rw [hexpand]; rfl), hexpand]
    rfl
  rw [feed, feed, hsame, before_nil]
  rfl

theorem Fills.completes (h : Fills kind parts next ts cs) (done : List Node) :
    Completes [.partly kind done parts] next ts
      (.assemble kind .origin (done.reverse ++ cs)) := by
  intro base
  obtain ⟨stack, htakes, hsettles⟩ := h done base
  refine ⟨stack, htakes, fun t ht => ?_⟩
  rw [hsettles t ht, feed, before_nil, List.reverse_append, List.reverse_reverse]
  rfl

/-- A node whose first token is there already. -/
theorem Fills.opened {t : Token} (h : Fills kind parts next ts cs) :
    Completes [opened kind t field parts] next ts
      (.assemble kind .origin ((Node.leaf t).inField field :: cs)) :=
  h.completes [(Node.leaf t).inField field]

/-- A node that is wrapped in another one. -/
theorem Completes.wrapped {frames : List Frame} (h : Completes frames next ts n)
    (wrapper : String) :
    Completes (frames ++ [Frame.partly wrapper [] [.hole field]]) next ts
      (.assemble wrapper .origin [n.inField field]) := by
  intro base
  obtain ⟨stack, htakes, hsettles⟩ := h (.partly wrapper [] [.hole field] :: base)
  refine ⟨stack, ?_, fun u hu => ?_⟩
  · rw [List.append_assoc]
    exact htakes
  · rw [hsettles u hu, feed_complete]
    rfl

theorem Completes.reads {frames : List Frame} {t : Token} (h : Completes frames next ts n)
    (hp : p.begin t = .ok frames) : Reads p next (t :: ts) n :=
  ⟨t, ts, frames, rfl, hp, h⟩

end

/-! ### Lists -/

/-- Tokens that read a production several times, with commas between them. -/
inductive ReadsItems (p : Production) (next : Token → Prop) : List Token → List Node → Prop
  | last {ts : List Token} {n : Node} (h : Reads p next ts n) :
      ReadsItems p next ts [n.inField none]
  | more {ts us : List Token} {comma : Token} {n : Node} {ns : List Node} (h : Reads p next ts n)
      (hc : comma.kind = .punct .comma) (hs : ReadsItems p next us ns) :
      ReadsItems p next (ts ++ comma :: us)
        (n.inField none :: (Node.leaf comma).inField none :: ns)

/-- A choice between a further item, behind a comma, and the end of a list. -/
structure Choice.Continues (c : Choice) (p : Production) : Prop where
  rename : ∀ k, c.rename? k = none
  comma : c.expand (.punct .comma) = [.mark .comma, .node p none, .choice c]
  close : c.expand (.punct .closeParen) = []

/-- The items of a list and the parenthesis that closes it. -/
theorem fills_items {p : Production} {c : Choice} (hc : c.Continues p) {next next' : Token → Prop}
    (hcomma : ∀ t : Token, t.kind = .punct .comma → next t)
    (hclose : ∀ t : Token, t.kind = .punct .closeParen → next t) {kind : String}
    {ts : List Token} {ns : List Node} {closing : Token} (h : ReadsItems p next ts ns)
    (hk : closing.kind = .punct .closeParen) :
    Fills kind [.node p none, .choice c, .mark .closeParen] next' (ts ++ [closing])
      (ns ++ [(Node.leaf closing).inField none]) := by
  induction h with
  | last h =>
    exact .node h (hclose closing hk)
      (.choice (hc.rename _) (by rw [hk, hc.close]) rfl (.token hk .nil))
  | @more ts us comma n ns h hk' _ ih =>
    have hrest : Fills kind [.choice c, .mark .closeParen] next' (comma :: (us ++ [closing]))
        ((Node.leaf comma).inField none :: (ns ++ [(Node.leaf closing).inField none])) :=
      .choice (hc.rename _) (by rw [hk', hc.comma]) rfl (.token hk' ih)
    rw [List.append_assoc, List.cons_append]
    exact .node h (hcomma comma hk') hrest

/-! ### Operands and operations -/

/-- A token that goes on with no expression read at the level. -/
def Level.Ends (level : Level) (t : Token) : Prop :=
  ∀ l role, t.kind.behindOperand? = some (l, role) → l.rank ≤ level.rank

/-- The tokens are read as an operand or an operation: before every token in `next`, the parser goes
on as if its node had been there at once, with an operator or without. -/
def ReadsOperand (above : Level) (next : Token → Prop) (ts : List Token) (n : Node) : Prop :=
  ∃ first rest frames, ts = first :: rest ∧ exprFrom above first = .ok frames ∧
    ∀ base, ∃ stack, Takes rest (frames ++ base) stack ∧
      ∀ t, next t → feed t stack = feed t (.operators (wrapped n) above :: base)

section
variable {above level : Level} {next next' : Token → Prop} {ts us : List Token} {n : Node}
  {t : Token}

theorem ReadsOperand.mono (h : ReadsOperand above next ts n) (hnext : ∀ t, next' t → next t) :
    ReadsOperand above next' ts n := by
  obtain ⟨first, rest, frames, hts, hfrom, hread⟩ := h
  refine ⟨first, rest, frames, hts, hfrom, fun base => ?_⟩
  obtain ⟨stack, htakes, hsettles⟩ := hread base
  exact ⟨stack, htakes, fun t ht => hsettles t (hnext t ht)⟩

/-- An operand is complete before a token that does not hold tighter than its level. -/
theorem before_operators {left : Node} (h : Level.Ends above t) :
    (Frame.operators left above).before t = .complete left := by
  cases hop : t.kind.behindOperand? with
  | none => simp [Frame.before, hop]
  | some op =>
    obtain ⟨level, role⟩ := op
    have hle := h level role hop
    simp [Frame.before, hop, Nat.not_lt.mpr hle]

/-- An expression is an operand with nothing tighter behind it. -/
theorem ReadsOperand.reads (h : ReadsOperand level next ts n) :
    Reads (.expr level) (fun t => next t ∧ Level.Ends level t) ts (wrapped n) := by
  obtain ⟨first, rest, frames, rfl, hfrom, hread⟩ := h
  refine ⟨first, rest, frames, rfl, hfrom, fun base => ?_⟩
  obtain ⟨stack, htakes, hsettles⟩ := hread base
  refine ⟨stack, htakes, fun t ht => ?_⟩
  rw [hsettles t ht.1, feed, before_operators ht.2]
  rfl

theorem readsOperand_literal (hk : t.kind.isLiteral = true) :
    ReadsOperand above next [t] (.leaf t) :=
  ⟨t, [], [.operators (wrapped (.leaf t)) above], rfl, by simp [exprFrom, hk],
    fun _ => ⟨_, rfl, fun _ _ => rfl⟩⟩

/-- An operand that is one frame from its first token on. -/
theorem Completes.operand {f : Frame} (h : Completes [f] next ts n)
    (ht : exprFrom above t = .ok [f, .operand above]) : ReadsOperand above next (t :: ts) n := by
  refine ⟨t, ts, _, rfl, ht, fun base => ?_⟩
  obtain ⟨stack, htakes, hsettles⟩ := h (.operand above :: base)
  exact ⟨stack, htakes, hsettles⟩

/-- An operand goes on with an operator. -/
theorem feed_operator {left : Node} {role : OperatorRole} {frames : List Frame} {base : Stack}
    (ht : t.kind.behindOperand? = some (level, role)) (hlevel : above.rank < level.rank)
    (hop : operation? left t level role = some frames) :
    feed t (.operators left above :: base) = .shift (frames ++ Frame.operand above :: base) := by
  have hbefore : (Frame.operators left above).before t =
      .shift (frames ++ [Frame.operand above]) := by
    simp [Frame.before, ht, hlevel, hop]
  rw [feed_of_shift hbefore, List.append_assoc, List.singleton_append]

/-- An operand with an operator behind it, and what the operator asks for. -/
theorem ReadsOperand.operation {role : OperatorRole} {f : Frame} {left : Node}
    (h : ReadsOperand above next ts left) (ht : next t)
    (hop : t.kind.behindOperand? = some (level, role)) (hlevel : above.rank < level.rank)
    (hframes : operation? (wrapped left) t level role = some [f]) (hs : Completes [f] next' us n) :
    ReadsOperand above next' (ts ++ t :: us) n := by
  obtain ⟨first, rest, frames, rfl, hfrom, hread⟩ := h
  refine ⟨first, rest ++ t :: us, frames, rfl, hfrom, fun base => ?_⟩
  obtain ⟨before, hbefore, hoperand⟩ := hread base
  obtain ⟨stack, hstack, hsettles⟩ := hs (.operand above :: base)
  exact ⟨stack, hbefore.append ⟨_, (hoperand t ht).trans (feed_operator hop hlevel hframes),
    hstack⟩, hsettles⟩

theorem ReadsOperand.binary {left right : Node} (h : ReadsOperand above next ts left)
    (ht : next t) (hop : t.kind.behindOperand? = some (level, .binary))
    (hlevel : above.rank < level.rank) (hr : Reads (.expr level) next' us right) :
    ReadsOperand above next' (ts ++ t :: us) (.assemble "binary_expr" .origin
      [(wrapped left).inField (some "left"), (Node.leaf t).inField (some "operator"),
        right.inField (some "right")]) :=
  h.operation ht hop hlevel rfl (hr.lastPart.completes _)

theorem ReadsOperand.assignment {left right : Node} (h : ReadsOperand above next ts left)
    (ht : next t) (hop : t.kind.behindOperand? = some (level, .assignment))
    (hlevel : above.rank < level.rank) (hr : Reads (.expr .lowest) next' us right) :
    ReadsOperand above next' (ts ++ t :: us) (.assemble "assignment_expr" .origin
      [(wrapped left).inField (some "left"), (Node.leaf t).inField (some "operator"),
        right.inField (some "right")]) :=
  h.operation ht hop hlevel rfl (hr.lastPart.completes _)

theorem ReadsOperand.condition {colon : Token} {vs : List Token} {test yes no : Node}
    {next'' : Token → Prop} (h : ReadsOperand above next ts test) (ht : next t)
    (hk : t.kind = .punct .question) (hlevel : above.rank < Level.conditional.rank)
    (hyes : Reads (.expr .lowest) next' us yes) (hcolon : next' colon)
    (hc : colon.kind = .punct .colon) (hno : Reads (.expr .assignment) next'' vs no) :
    ReadsOperand above next'' (ts ++ t :: (us ++ colon :: vs)) (.assemble "cond_expr" .origin
      [(wrapped test).inField (some "condition"), .leaf t, yes.inField (some "consequence"),
        (Node.leaf colon).inField none, no.inField (some "alternative")]) := by
  have hop : t.kind.behindOperand? = some (.conditional, .conditional) := by
    rw [hk]
    rfl
  have hrest : Fills "cond_expr" [.node (.expr .lowest) (some "consequence"), .mark .colon,
      .node (.expr .assignment) (some "alternative")] next'' (us ++ colon :: vs) _ :=
    .node hyes hcolon (.token hc hno.lastPart)
  exact h.operation ht hop hlevel rfl (hrest.completes _)

/-- A name with arguments behind it. -/
theorem ReadsOperand.call {callee args : Node} (h : ReadsOperand above next ts callee)
    (hk : t.kind = .punct .openParen) (ht : next t) (hlevel : above.rank < Level.call.rank)
    (hn : callee.named = true) (hident : callee.kind = "ident_expr")
    (hs : Completes [opened "argument_list" t none [.choice .arguments, .mark .closeParen]] next'
      us args) :
    ReadsOperand above next' (ts ++ t :: us) (.assemble "call_expr" .origin
      [(callee.inField none).inField (some "func_name"), args.inField (some "args")]) := by
  have hop : t.kind.behindOperand? = some (.call, .call) := by
    rw [hk]
    rfl
  have honly : (wrapped callee).onlyNamedChild? = some (callee.inField none) := by
    simp [wrapped, Node.onlyNamedChild?, Node.namedChildren, hn]
    rfl
  have hframes : operation? (wrapped callee) t .call .call = some
      [opened "argument_list" t none [.choice .arguments, .mark .closeParen],
        .partly "call_expr" [(callee.inField none).inField (some "func_name")]
          [.hole (some "args")]] := by
    simp only [operation?, honly, Node.kind_inField, hident, beq_self_eq_true, if_true]
  obtain ⟨first, rest, frames, rfl, hfrom, hread⟩ := h
  refine ⟨first, rest ++ t :: us, frames, rfl, hfrom, fun base => ?_⟩
  obtain ⟨before, hbefore, hoperand⟩ := hread base
  obtain ⟨stack, hstack, hsettles⟩ := hs (.partly "call_expr"
    [(callee.inField none).inField (some "func_name")] [.hole (some "args")] ::
      .operand above :: base)
  refine ⟨stack, hbefore.append ⟨_, (hoperand t ht).trans (feed_operator hop hlevel hframes),
    hstack⟩, fun u hu => ?_⟩
  rw [hsettles u hu, feed_complete]
  exact feed_of_complete before_nil

end

/-! ### Names -/

/-- The tokens behind the first segment of a name: dots and further segments. -/
inductive Segments : List Token → Prop
  | nil : Segments []
  | cons {dot segment : Token} {rest : List Token} (hd : dot.kind = .punct .dot)
      (hs : segment.kind = .identifier) (h : Segments rest) : Segments (dot :: segment :: rest)

/-- A token that does not go on with a name. -/
def NoDot (t : Token) : Prop :=
  t.kind ≠ .punct .dot

/-- The nodes of tokens in no role. -/
def leafNodes (ts : List Token) : List Node :=
  ts.map fun t => (Node.leaf t).inField none

/-- The node of a name with these tokens. -/
def nameNode (ts : List Token) : Node :=
  .assemble "ident_expr" .origin (leafNodes ts)

theorem fills_segments {ts : List Token} (h : Segments ts) :
    Fills "ident_expr" [.choice .segments] NoDot ts (leafNodes ts) := by
  induction h with
  | nil =>
    refine .noChoice fun t ht => ⟨rfl, ?_⟩
    unfold Choice.expand
    split <;> simp_all [NoDot]
  | cons hd hs _ ih => exact .choice rfl (by rw [hd]) rfl (.token hd (.token hs ih))

theorem readsOperand_name {above : Level} {t : Token} {ts : List Token}
    (hk : t.kind = .identifier) (h : Segments ts) :
    ReadsOperand above NoDot (t :: ts) (nameNode (t :: ts)) :=
  (fills_segments h).opened.operand (by simp [exprFrom, hk, Kind.isLiteral, nameFrom])

end Grammar
end BlockC

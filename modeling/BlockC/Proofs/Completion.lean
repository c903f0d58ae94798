import BlockC.Proofs.Lockstep
import BlockC.Proofs.ProgramReading
import BlockC.Proofs.Relexing

/-! # Every stack can be completed

Between two tokens, the stack of the parser has a certain form (`Resting`), which every token that
is taken keeps (`feed_resting`).  From every such stack there are tokens that lead to the end of the
file (`Resting.finish`): each part that is still to be read has tokens for it, chosen so that what
stands behind a node never goes on with it (`Closing`).
-/
namespace BlockC

/-- A kind of token that can stand in a text. -/
def Kind.Known (k : Kind) : Prop :=
  k ≠ .eof ∧ k ≠ .unknown

/-- A kind of token that a part can ask for.  None asks for a slash, which only ever stands between
two operands, or for a value, which is an expression. -/
def Kind.Required : Kind → Prop
  | .identifier | .number => True
  | .punct p => p ≠ .slash
  | .keyword k => k.isLiteral = false
  | .eof | .unknown | .string => False

theorem Kind.Required.known {k : Kind} (h : k.Required) : k.Known := by
  constructor <;> rintro rfl <;> exact h

theorem Kind.Required.ne_slash {k : Kind} (h : k.Required) : k ≠ .punct .slash := by
  rintro rfl
  exact h rfl

namespace Grammar

/-- The tokens that end whatever is being read. -/
def closingKinds : List Kind :=
  [.punct .closeParen, .punct .colon, .punct .arrow, .keyword .doKw, .keyword .endKw, .eof]

def Closing (t : Token) : Prop :=
  t.kind ∈ closingKinds

/-! ### The form of a stack -/

/-- The productions that a part asks for without a look at the next token. -/
def Production.Asked : Production → Prop
  | .expr _ | .typeExpr | .typeList | .params | .stmt | .typedIdent | .codeblock
  | .externalVariable => True
  | _ => False

/-- The productions that some part asks for. -/
def Production.Used (p : Production) : Prop :=
  p.Asked ∨ p ∈ [.ifElse, .externalFunction, .variadic]

/-- The parts that always stand behind a choice. -/
def Choice.behind : Choice → List Part
  | .segments | .size | .initial | .otherwise | .alternative | .externalForm | .topLevel => []
  | .arguments | .moreArguments | .types | .moreTypes | .parameters | .moreParameters
  | .parameter => [.mark .closeParen]
  | .statements => [.word .endKw]

/-- Parts that can stand behind a node: what is read for them starts with a closing token. -/
def Closes : List Part → Prop
  | [] => True
  | .token k _ :: _ => k ∈ closingKinds
  | .node p _ :: _ => p = .codeblock
  | .hole _ :: _ => False
  | .choice c :: _ =>
    c ∈ [.moreArguments, .moreTypes, .moreParameters, .statements, .initial, .otherwise]

/-- Parts that a frame inside the file has to read next. -/
def Regular : List Part → Prop
  | [] => True
  | .token k _ :: rest => k.Required ∧ Regular rest
  | .node p _ :: rest => p.Asked ∧ Closes rest ∧ Regular rest
  | .hole _ :: _ => False
  | .choice c :: rest => c ≠ .topLevel ∧ rest = c.behind

/-- Frames that wait for a node, down to the file. -/
inductive Waiting : Stack → Prop
  | file {done : List Node} :
      Waiting [.partly "source_file" done [.hole none, .choice .topLevel]]
  | partly {kind : String} {done : List Node} {field : Option String} {rest : List Part}
      {below : Stack} (hc : Closes rest) (hr : Regular rest) (h : Waiting below) :
      Waiting (.partly kind done (.hole field :: rest) :: below)
  | operand {above : Level} {below : Stack} (h : Waiting below) :
      Waiting (.operand above :: below)

/-- The stack between two tokens. -/
inductive Resting : Stack → Prop
  | file {done : List Node} : Resting [.partly "source_file" done [.choice .topLevel]]
  | partly {kind : String} {done : List Node} {todo : List Part} {below : Stack}
      (hr : Regular todo) (h : Waiting below) : Resting (.partly kind done todo :: below)
  | operators {left : Node} {above : Level} {below : Stack} (h : Waiting below) :
      Resting (.operators left above :: below)

/-- Frames that can be put on a stack that waits for them. -/
def Building (frames : List Frame) : Prop :=
  ∀ below, Waiting below → Resting (frames ++ below)

/-! ### Every token keeps the form -/

section
variable {t : Token} {frames : List Frame}

theorem building_opened {kind : String} {field : Option String} {todo : List Part}
    (h : Regular todo) : Building [opened kind t field todo] :=
  fun _ hbelow => .partly h hbelow

theorem building_wrapped {kind wrapper : String} {field role : Option String} {todo : List Part}
    (h : Regular todo) :
    Building [opened kind t field todo, .partly wrapper [] [.hole role]] :=
  fun _ hbelow => .partly h (.partly trivial trivial hbelow)

theorem exprFrom_building {above : Level} (h : exprFrom above t = .ok frames) :
    t.kind.Known ∧ ∀ below, Waiting below → Resting (frames ++ below) := by
  cases exprBegins_of_ok h with
  | literal hk =>
    refine ⟨?_, fun _ hbelow => .operators hbelow⟩
    constructor <;> intro hk' <;> simp [hk', Kind.isLiteral] at hk
  | name hk =>
    exact ⟨by simp [hk, Kind.Known], fun _ hbelow =>
      .partly ⟨by simp, rfl⟩ (.operand hbelow)⟩
  | parenthesized hk =>
    exact ⟨by simp [hk, Kind.Known], fun _ hbelow =>
      .partly (by simp [Regular, Production.Asked, Closes, closingKinds, Part.mark, Kind.Required])
        (.operand hbelow)⟩
  | signed hk =>
    refine ⟨?_, fun _ hbelow => .partly ⟨trivial, trivial, trivial⟩ (.operand hbelow)⟩
    constructor <;> intro hk' <;> simp [hk', Kind.isSign] at hk

theorem typeFrom_building (h : typeFrom t = .ok frames) : t.kind.Known ∧ Building frames := by
  unfold typeFrom at h
  split at h
  case h_5 => cases h
  all_goals
    rename_i hk
    cases h
    refine ⟨by simp [hk, Kind.Known], building_wrapped ?_⟩
    simp [Regular, Production.Asked, Closes, closingKinds, Part.mark, Kind.Required,
      Choice.behind]

theorem stmtFrom_building (h : stmtFrom t = .ok frames) : t.kind.Known ∧ Building frames := by
  cases stmtBegins_of_ok h with
  | form hf =>
    unfold stmtFrame? at hf
    split at hf
    case h_10 => cases hf
    all_goals
      rename_i hk
      cases hf
      refine ⟨by simp [hk, Kind.Known], building_wrapped ?_⟩
      simp [Regular, Production.Asked, Closes, closingKinds, Part.mark, Kind.Required,
        Choice.behind]
  | expr hexpr =>
    obtain ⟨hknown, hbuild⟩ := exprFrom_building hexpr
    refine ⟨hknown, fun below hbelow => ?_⟩
    rw [List.append_assoc]
    exact hbuild _ (.partly trivial trivial hbelow)

/-- What a production starts with, and that it starts with a token that can stand in a text, if the
token was not looked at before. -/
theorem begin_building {p : Production} (hp : p.Used) (h : p.begin t = .ok frames) :
    (p.Asked → t.kind.Known) ∧ Building frames := by
  cases p with
  | expr above =>
    obtain ⟨hknown, hbuild⟩ := exprFrom_building h
    exact ⟨fun _ => hknown, hbuild⟩
  | typeExpr =>
    obtain ⟨hknown, hbuild⟩ := typeFrom_building h
    exact ⟨fun _ => hknown, hbuild⟩
  | stmt =>
    obtain ⟨hknown, hbuild⟩ := stmtFrom_building h
    exact ⟨fun _ => hknown, hbuild⟩
  | typeList | params | typedIdent | codeblock =>
    obtain ⟨hk, rfl⟩ := requiring_eq_ok h
    refine ⟨fun _ => by simp [hk, Kind.Known], building_opened ?_⟩
    simp [Regular, Production.Asked, Closes, Part.mark, Part.word, Kind.Required, Choice.behind]
  | externalVariable =>
    obtain ⟨hk, rfl⟩ := requiring_eq_ok h
    refine ⟨fun _ => by simp [hk, Kind.Known], building_wrapped ?_⟩
    simp [Regular, Production.Asked, Closes, Part.mark, Kind.Required]
  | ifElse | externalFunction | variadic =>
    cases h
    refine ⟨fun hasked => hasked.elim, building_opened ?_⟩
    simp [Regular, Production.Asked, Closes, closingKinds, Part.mark, Kind.Required,
      Choice.behind]
  | literal | name | signed | parenthesized | pointerType | arrayType | funcType | mod | declare
  | external | func | typeAlias | whileLoop | returned =>
    simp [Production.Used, Production.Asked] at hp

theorem operation?_building {left : Node} {level : Level} {role : OperatorRole}
    (h : operation? left t level role = some frames) :
    ∀ below, Waiting below → Resting (frames ++ below) := by
  cases role with
  | binary | assignment =>
    cases h
    exact fun _ hbelow => .partly ⟨trivial, trivial, trivial⟩ hbelow
  | conditional =>
    cases h
    refine fun _ hbelow => .partly ?_ hbelow
    simp [Regular, Production.Asked, Closes, closingKinds, Part.mark, Kind.Required]
  | call =>
    obtain ⟨callee, -, -, rfl⟩ := operation?_call_eq_some.mp h
    refine fun _ hbelow => .partly ?_ (.partly trivial trivial hbelow)
    simp [Regular, Choice.behind]

/-- What can be next once a choice is opened before a token. -/
inductive Settled (k : Kind) : List Part → Prop
  | nil : Settled k []
  | token {k' : Kind} {field : Option String} {rest : List Part} (hk : k'.Known)
      (h : Regular rest) : Settled k (.token k' field :: rest)
  | node {p : Production} {field : Option String} {rest : List Part} (hp : p.Used)
      (hk : p.Asked ∨ k.Known) (hc : Closes rest) (h : Regular rest) :
      Settled k (.node p field :: rest)

theorem settled_of_regular {todo : List Part} (h : Regular todo) (kind : String) (k : Kind) :
    Settled k (settle kind k todo).2 := by
  cases todo with
  | nil => exact .nil
  | cons part rest =>
    cases part with
    | token k' field => exact .token h.1.known h.2
    | node p field => exact .node (Or.inl h.1) (Or.inl h.1) h.2.1 h.2.2
    | hole field => exact h.elim
    | choice c =>
      obtain ⟨hfile, rfl⟩ := h
      simp only [settle]
      cases c
      case topLevel => exact absurd rfl hfile
      all_goals
        unfold Choice.expand
        split <;> simp only [Choice.behind, List.nil_append, List.cons_append, Part.mark, Part.word]
      all_goals first
        | contradiction
        | exact .nil
        | exact .token (by simp [Kind.Known])
            (by simp [Regular, Choice.behind, Production.Asked, Closes, Kind.Required, Part.mark])
        | exact .node (by simp [Production.Used, Production.Asked])
            (by simp [Production.Asked, Kind.Known])
            (by simp [Closes, closingKinds])
            (by simp [Regular, Choice.behind, Part.mark, Part.word, Kind.Required])

/-- A frame that takes a token. -/
theorem partly_shift {kind : String} {done : List Node} {todo : List Part} (h : Regular todo)
    (hs : (Frame.partly kind done todo).before t = .shift frames) :
    t.kind.Known ∧ Building frames := by
  have hsettled := settled_of_regular h kind t.kind
  cases Frame.before_eq_shift_iff.mp hs with
  | token hset =>
    rw [hset] at hsettled
    cases hsettled with
    | token hk hrest => exact ⟨hk, fun _ hbelow => .partly hrest hbelow⟩
  | node hset hinner =>
    rw [hset] at hsettled
    cases hsettled with
    | node hp hk hc hrest =>
      obtain ⟨hknown, hbuild⟩ := begin_building hp hinner
      refine ⟨hk.elim hknown id, fun below hbelow => ?_⟩
      rw [List.append_assoc]
      exact hbuild _ (.partly hc hrest hbelow)

theorem operators_shift {left : Node} {above : Level}
    (hs : (Frame.operators left above).before t = .shift frames) :
    t.kind.Known ∧ Building frames := by
  cases Frame.before_eq_shift_iff.mp hs with
  | operators hop hlt hinner =>
    refine ⟨?_, fun below hbelow => ?_⟩
    · constructor <;> intro hk <;> simp [hk, Kind.behindOperand?] at hop
    · rw [List.append_assoc]
      exact operation?_building hinner _ (.operand hbelow)

/-- A file asks for a statement before every token. -/
theorem settle_topLevel {k : Kind} (h : k ≠ .eof) :
    settle "source_file" k [.choice .topLevel] =
      ("source_file", [.node .stmt none, .choice .topLevel]) := by
  simp [settle, Choice.rename?, Choice.expand]

/-- The file takes the first token of a statement. -/
theorem file_shift {done : List Node}
    (hs : (Frame.partly "source_file" done [.choice .topLevel]).before t = .shift frames) :
    t.kind.Known ∧ Resting frames := by
  by_cases heof : t.kind = .eof
  · simp [Frame.before, settle, Choice.expand, heof] at hs
  · simp only [Frame.before, settle_topLevel heof] at hs
    split at hs
    · rename_i inner hinner
      cases hs
      obtain ⟨hknown, hbuild⟩ := stmtFrom_building hinner
      exact ⟨hknown, hbuild _ .file⟩
    · cases hs

theorem shift_resting {f : Frame} {below : Stack} (h : Resting (f :: below))
    (hs : f.before t = .shift frames) : t.kind.Known ∧ Resting (frames ++ below) := by
  cases h with
  | file =>
    rw [List.append_nil]
    exact file_shift hs
  | partly hr hbelow =>
    obtain ⟨hknown, hbuild⟩ := partly_shift hr hs
    exact ⟨hknown, hbuild below hbelow⟩
  | operators hbelow =>
    obtain ⟨hknown, hbuild⟩ := operators_shift hs
    exact ⟨hknown, hbuild below hbelow⟩

/-- A stack that waits for a node rests once it has it. -/
theorem Waiting.fill {f : Frame} {below : Stack} (h : Waiting (f :: below)) (n : Node) :
    Resting (f.fill n :: below) := by
  cases h with
  | file => exact .file
  | partly _ hr hbelow => exact .partly hr hbelow
  | operand hbelow => exact .operators hbelow

theorem Resting.waiting {f g : Frame} {below : Stack} (h : Resting (f :: g :: below)) :
    Waiting (g :: below) := by
  cases h with
  | partly _ hbelow => exact hbelow
  | operators hbelow => exact hbelow

/-- What the file has is not lost when a frame below the top gets its node. -/
theorem Waiting.outermost_fill {g : Frame} {below : Stack} (h : Waiting (g :: below)) (n : Node) :
    Stack.outermost (g :: below) <+: Stack.outermost (g.fill n :: below) := by
  cases below with
  | cons g' below =>
    simp only [Stack.outermost, List.getLast?_cons_cons]
    exact List.prefix_rfl
  | nil =>
    cases h with
    | @file done => exact ⟨[n.inField none], by simp [Stack.outermost, Frame.fill]⟩
    | partly _ _ h => cases h
    | operand h => cases h

/-- **Before a token, complete frames hand their nodes down** until the top is not complete or is
the file.  The stack that is left does the same, and nothing that the file has is lost. -/
theorem feed_top (t : Token) {f : Frame} {below : Stack} (h : Resting (f :: below)) :
    ∃ f' below', Resting (f' :: below') ∧ feed t (f :: below) = feed t (f' :: below') ∧
      Stack.outermost (f :: below) <+: Stack.outermost (f' :: below') ∧
      ∀ n, f'.before t = .complete n → below' = [] := by
  induction below generalizing f with
  | nil => exact ⟨f, [], h, rfl, List.prefix_rfl, fun _ _ => rfl⟩
  | cons g below ih =>
    cases hb : f.before t with
    | complete node =>
      obtain ⟨f', below', hrest, hfeed, houter, htop⟩ := ih (h.waiting.fill node)
      refine ⟨f', below', hrest, (feed_of_complete hb).trans hfeed, ?_, htop⟩
      have hfill := h.waiting.outermost_fill node
      have hsame : Stack.outermost (f :: g :: below) = Stack.outermost (g :: below) := by
        simp only [Stack.outermost, List.getLast?_cons_cons]
      rw [hsame]
      exact hfill.trans houter
    | shift frames =>
      exact ⟨f, g :: below, h, rfl, List.prefix_rfl, fun n hn => by simp [hb] at hn⟩
    | stuck request =>
      exact ⟨f, g :: below, h, rfl, List.prefix_rfl, fun n hn => by simp [hb] at hn⟩

/-- A token is taken by a frame of a stack that rests. -/
theorem feed_shift {f : Frame} {below next : Stack} (h : Resting (f :: below))
    (hs : feed t (f :: below) = .shift next) :
    ∃ f' below' frames, Resting (f' :: below') ∧ f'.before t = .shift frames ∧
      next = frames ++ below' ∧
      Stack.outermost (f :: below) <+: Stack.outermost (f' :: below') := by
  obtain ⟨f', below', hrest, hfeed, houter, htop⟩ := feed_top t h
  rw [hfeed, feed] at hs
  cases hb : f'.before t with
  | shift frames =>
    rw [hb] at hs
    cases hs
    exact ⟨f', below', frames, hrest, hb, rfl, houter⟩
  | complete node =>
    obtain rfl := htop node hb
    simp [hb, resume] at hs
  | stuck request => simp [hb] at hs

/-- **A token that is taken can stand in a text, and keeps the form of the stack.** -/
theorem feed_resting {f : Frame} {below next : Stack} (h : Resting (f :: below))
    (hs : feed t (f :: below) = .shift next) : t.kind.Known ∧ Resting next := by
  obtain ⟨f', below', frames, hrest, hb, rfl, -⟩ := feed_shift h hs
  exact shift_resting hrest hb

/-- Only the end of the text completes the file, with what it has by then. -/
theorem feed_done {f : Frame} {below : Stack} {root : Node} (h : Resting (f :: below))
    (hdone : feed t (f :: below) = .done root) :
    t.kind = .eof ∧ Stack.outermost (f :: below) <+: root.children := by
  obtain ⟨f', below', hrest, hfeed, houter, htop⟩ := feed_top t h
  rw [hfeed, feed] at hdone
  cases hb : f'.before t with
  | shift frames => simp [hb] at hdone
  | stuck request => simp [hb] at hdone
  | complete node =>
    obtain rfl := htop node hb
    rw [hb] at hdone
    cases hdone
    cases hrest with
    | partly _ h => cases h
    | operators h => cases h
    | @file done =>
      by_cases heof : t.kind = .eof
      · simp only [Frame.before, settle, Choice.rename?, Choice.expand, heof] at hb
        cases hb
        exact ⟨heof, houter⟩
      · simp only [Frame.before, settle_topLevel heof] at hb
        cases hbegin : Production.stmt.begin t <;> simp [hbegin] at hb

theorem Takes.resting {ts : List Token} {stack next : Stack} (h : Takes ts stack next)
    (hs : Resting stack) : (∀ t ∈ ts, t.kind.Known) ∧ Resting next := by
  induction ts generalizing stack with
  | nil =>
    obtain rfl : stack = next := h
    exact ⟨by simp, hs⟩
  | cons t ts ih =>
    obtain ⟨after, hfeed, hrest⟩ := h
    cases stack with
    | nil => cases hs
    | cons f below =>
    obtain ⟨hknown, hafter⟩ := feed_resting hs hfeed
    obtain ⟨hall, hnext⟩ := ih hrest hafter
    exact ⟨List.forall_mem_cons.mpr ⟨hknown, hall⟩, hnext⟩

end

theorem resting_sourceFile : Resting [sourceFile] := .file

/-! ### Tokens for every part -/

/-- Tokens that can stand in a text. -/
def SpelledTokens (ts : List Token) : Prop :=
  ∀ t ∈ ts, t.word.Spelled

@[simp] theorem spelledTokens_nil : SpelledTokens [] := by simp [SpelledTokens]

@[simp] theorem spelledTokens_cons {t : Token} {ts : List Token} :
    SpelledTokens (t :: ts) ↔ t.word.Spelled ∧ SpelledTokens ts := by simp [SpelledTokens]

@[simp] theorem spelledTokens_append {ts us : List Token} :
    SpelledTokens (ts ++ us) ↔ SpelledTokens ts ∧ SpelledTokens us := by
  simp only [SpelledTokens, List.mem_append, or_imp, forall_and]

/-- There is a token of every kind that can stand in a text. -/
theorem exists_token {k : Kind} (h : k.Known) : ∃ t : Token, t.kind = k ∧ t.word.Spelled := by
  have htoken : ∀ w : Word, w.Spelled → ∃ t : Token, t.kind = w.1 ∧ t.word.Spelled :=
    fun w hw => ⟨⟨w.1, w.2, ⟨.origin, .origin⟩⟩, rfl, hw⟩
  cases k with
  | eof => exact absurd rfl h.1
  | unknown => exact absurd rfl h.2
  | number => exact htoken _ (Plain.spelled_decimal 1)
  | string => exact htoken (.string, "\"\"") ⟨⟨[], rfl, .nil⟩, by simp⟩
  | identifier => exact htoken (.identifier, "a") (Plain.spelled_name (by decide))
  | punct p => exact htoken _ (Plain.spelled_punct p)
  | keyword k => exact htoken _ (Plain.spelled_keyword k)

theorem exists_punct (p : Punct) : ∃ t : Token, t.kind = .punct p ∧ t.word.Spelled :=
  exists_token (by simp [Kind.Known])

theorem exists_keyword (k : Keyword) : ∃ t : Token, t.kind = .keyword k ∧ t.word.Spelled :=
  exists_token (by simp [Kind.Known])

theorem exists_name : ∃ t : Token, t.kind = .identifier ∧ t.word.Spelled :=
  exists_token (by simp [Kind.Known])

section
variable {t : Token}

/-- A token that goes on with nothing that may end before it. -/
def Quiet (t : Token) : Prop :=
  Stops t ∧ t.kind ≠ .keyword .elseKw

theorem Closing.quiet (h : Closing t) : Quiet t := by
  simp only [Closing, closingKinds, List.mem_cons, List.not_mem_nil, or_false] at h
  rcases h with h | h | h | h | h | h <;>
    simp [Quiet, Stops, h, Kind.behindOperand?, Punct.behindOperand?]

theorem Closing.noDot (h : Closing t) : NoDot t :=
  h.quiet.1.1

theorem Closing.ends (h : Closing t) (level : Level) : Level.Ends level t :=
  h.quiet.1.ends level

/-- A choice that nothing is read for before any quiet token. -/
theorem Quiet.expand (h : Quiet t) {c : Choice}
    (hc : c = .segments ∨ c = .initial ∨ c = .otherwise) :
    c.rename? t.kind = none ∧ c.expand t.kind = [] := by
  obtain ⟨⟨hdot, hop⟩, helse⟩ := h
  have hassign : t.kind ≠ .punct .assign := by
    intro hk
    simp [hk, Kind.behindOperand?, Punct.behindOperand?] at hop
  rcases hc with rfl | rfl | rfl
  · exact ⟨rfl, by simp [Choice.expand]⟩
  · exact ⟨rfl, by simp [Choice.expand]⟩
  · exact ⟨rfl, by simp [Choice.expand]⟩

/-! ### Tokens for every production -/

theorem sample_type : ∃ t n, t.word.Spelled ∧ Reads .typeExpr Closing [t] n := by
  obtain ⟨t, hk, hs⟩ := exists_name
  have hfrom : Production.typeExpr.begin t =
      .ok ([nameFrom t] ++ [Frame.partly "type_expr" [] [.hole none]]) := by
    simp [Production.begin, typeFrom, hk]
  have hname : Completes [nameFrom t] Closing [] _ :=
    ((fills_segments .nil).mono fun _ => Closing.noDot).opened
  exact ⟨t, _, hs, (hname.wrapped "type_expr").reads hfrom⟩

theorem sample_block : ∃ first ts n, first.kind = .keyword .doKw ∧ SpelledTokens (first :: ts) ∧
    Reads .codeblock Closing (first :: ts) n := by
  obtain ⟨first, hf, hsf⟩ := exists_keyword .doKw
  obtain ⟨last, hl, hsl⟩ := exists_keyword .endKw
  have hbegin : Production.codeblock.begin first = .ok
      [opened "codeblock" first none [.choice .statements, .word .endKw]] := by
    simp [Production.begin, requiring, hf]
  have hfills : Fills "codeblock" [.choice .statements, .word .endKw] Closing [last] _ :=
    .choice rfl (by rw [hl]) rfl (.token hl .nil)
  exact ⟨first, [last], _, hf, by simp [hsf, hsl], hfills.opened.reads hbegin⟩

theorem sample_binding : ∃ name ts n, name.kind = .identifier ∧ SpelledTokens (name :: ts) ∧
    Completes [typedIdentFrom name] Closing ts n := by
  obtain ⟨name, hn, hsn⟩ := exists_name
  obtain ⟨colon, hc, hsc⟩ := exists_punct .colon
  obtain ⟨type, n, hst, hread⟩ := sample_type
  have hfills : Fills "typed_ident" [.mark .colon, .node .typeExpr (some "typing")] Closing
      [colon, type] _ := .token hc hread.lastPart
  exact ⟨name, [colon, type], _, hn, by simp [hsn, hsc, hst], hfills.opened⟩

/-- A list that is empty between its parentheses. -/
theorem sample_list {p : Production} (kind : String) (c : Choice)
    (hbegin : ∀ t : Token, t.kind = .punct .openParen → p.begin t = .ok
      [opened kind t none [.choice c, .mark .closeParen]])
    (hname : c.rename? (.punct .closeParen) = none) (hc : c.expand (.punct .closeParen) = []) :
    ∃ ts n, SpelledTokens ts ∧ Reads p Closing ts n := by
  obtain ⟨opening, ho, hso⟩ := exists_punct .openParen
  obtain ⟨closing, hk, hsk⟩ := exists_punct .closeParen
  have hfills : Fills kind [.choice c, .mark .closeParen] Closing [closing] _ :=
    .choice (by rw [hk, hname]) (by rw [hk, hc]) rfl (.token hk .nil)
  exact ⟨[opening, closing], _, by simp [hso, hsk], hfills.opened.reads (hbegin opening ho)⟩

theorem sample_production {p : Production} (hp : p.Asked) :
    ∃ ts n, SpelledTokens ts ∧ Reads p Closing ts n := by
  cases p with
  | expr above =>
    obtain ⟨t, hk, hs⟩ := exists_name
    have hread : Reads (.expr above) _ [t] _ := (readsOperand_name hk .nil).reads
    exact ⟨[t], _, by simp [hs], hread.mono fun u hu => ⟨hu.noDot, hu.ends above⟩⟩
  | typeExpr =>
    obtain ⟨t, n, hs, hread⟩ := sample_type
    exact ⟨[t], n, by simp [hs], hread⟩
  | typeList =>
    exact sample_list "type_list" .types
      (fun t ht => by simp [Production.begin, requiring, ht]) rfl rfl
  | params =>
    exact sample_list "params" .parameters
      (fun t ht => by simp [Production.begin, requiring, ht]) rfl rfl
  | stmt =>
    obtain ⟨t, hk, hs⟩ := exists_punct .semicolon
    exact ⟨[t], _, by simp [hs], (reads_semicolon hk).mono fun _ _ => trivial⟩
  | typedIdent =>
    obtain ⟨name, ts, n, hk, hs, hread⟩ := sample_binding
    have hbegin : Production.typedIdent.begin name = .ok [typedIdentFrom name] := by
      simp [Production.begin, requiring, hk]
    exact ⟨name :: ts, n, hs, hread.reads hbegin⟩
  | codeblock =>
    obtain ⟨first, ts, n, -, hs, hread⟩ := sample_block
    exact ⟨first :: ts, n, hs, hread⟩
  | externalVariable =>
    obtain ⟨name, ts, n, hk, hs, hread⟩ := sample_binding
    have hbegin : Production.externalVariable.begin name = .ok ([typedIdentFrom name] ++
        [Frame.partly "external_variable" [] [.hole (some "typed_ident")]]) := by
      simp [Production.begin, requiring, hk]
    exact ⟨name :: ts, _, hs, (hread.wrapped "external_variable").reads hbegin⟩
  | literal | name | signed | parenthesized | pointerType | arrayType | funcType | mod | declare
  | variadic | external | externalFunction | func | typeAlias | whileLoop | ifElse | returned =>
    exact hp.elim

/-! ### Tokens for the parts of a frame -/

/-- What is read for the parts, and that it can stand behind a node. -/
def Finishes (kind : String) (todo : List Part) : Prop :=
  ∃ ts cs, SpelledTokens ts ∧ Fills kind todo Closing ts cs ∧
    (Closes todo → ∀ t, ts.head? = some t → Closing t)

theorem Finishes.node {kind : String} {p : Production} {field : Option String}
    {rest : List Part} {us : List Token} {n : Node} (h : Finishes kind rest) (hc : Closes rest)
    (hs : SpelledTokens us) (hread : Reads p Closing us n) :
    Finishes kind (.node p field :: rest) := by
  obtain ⟨ts, cs, hts, hfills, hclose⟩ := h
  have hall : Fills kind (.node p field :: rest) Closing (us ++ ts) (n.inField field :: cs) := by
    cases ts with
    | nil =>
      rw [List.append_nil]
      exact .lastNode hread (fun _ hu => hu) hfills
    | cons u ts => exact .node hread (hclose hc u rfl) hfills
  refine ⟨us ++ ts, _, by simp [hs, hts], hall, fun hblock t ht => ?_⟩
  -- Only a block closes what stands before it, with its first word.
  obtain rfl : p = .codeblock := hblock
  obtain ⟨first, behind, frames, rfl, hbegin, -⟩ := hread
  obtain rfl := Option.some.inj ht
  rw [Closing, (requiring_eq_ok hbegin).1]
  decide

theorem finishes_skip {kind : String} {c : Choice} {k : Kind} {field : Option String}
    (hk : k ∈ closingKinds) (hknown : k.Known) (hname : c.rename? k = none)
    (hc : c.expand k = []) : Finishes kind [.choice c, .token k field] := by
  obtain ⟨t, rfl, hs⟩ := exists_token hknown
  refine ⟨[t], _, by simp [hs], .choice hname hc rfl (.token rfl .nil), fun _ u hu => ?_⟩
  obtain rfl := Option.some.inj hu
  exact hk

/-- **There are tokens for all that a frame has to read.** -/
theorem finishes_regular (kind : String) : ∀ todo, Regular todo → Finishes kind todo
  | [], _ => ⟨[], [], by simp, .nil, by simp⟩
  | .token k field :: rest, h => by
    obtain ⟨ts, cs, hts, hfills, -⟩ := finishes_regular kind rest h.2
    obtain ⟨t, rfl, hs⟩ := exists_token h.1.known
    refine ⟨t :: ts, _, by simp [hs, hts], .token rfl hfills, fun hk u hu => ?_⟩
    obtain rfl := Option.some.inj hu
    exact hk
  | .node p field :: rest, h => by
    obtain ⟨us, n, hus, hread⟩ := sample_production h.1
    exact (finishes_regular kind rest h.2.2).node h.2.1 hus hread
  | .hole _ :: _, h => h.elim
  | .choice c :: rest, h => by
    obtain ⟨hfile, rfl⟩ := h
    cases c with
    | topLevel => exact absurd rfl hfile
    | segments =>
      exact ⟨[], [], by simp, .noChoice fun _ ht => ht.quiet.expand (Or.inl rfl), by simp⟩
    | initial =>
      exact ⟨[], [], by simp, .noChoice fun _ ht => ht.quiet.expand (Or.inr (Or.inl rfl)), by simp⟩
    | otherwise =>
      exact ⟨[], [], by simp, .noChoice fun _ ht => ht.quiet.expand (Or.inr (Or.inr rfl)), by simp⟩
    | arguments | moreArguments | types | moreTypes | parameters | moreParameters =>
      exact finishes_skip (k := .punct .closeParen) (by decide) (by simp [Kind.Known]) rfl rfl
    | statements =>
      exact finishes_skip (k := .keyword .endKw) (by decide) (by simp [Kind.Known]) rfl rfl
    | parameter =>
      obtain ⟨dots, hd, hsd⟩ := exists_punct .ellipsis
      obtain ⟨closing, hc, hsc⟩ := exists_punct .closeParen
      have hread : Reads .variadic (fun _ => True) [dots] _ := Fills.nil.opened.reads rfl
      have hfills : Fills kind [.choice .parameter, .mark .closeParen] Closing [dots, closing] _ :=
        .choice rfl (by rw [hd]) rfl (.node hread trivial (.token hc .nil))
      exact ⟨[dots, closing], _, by simp [hsd, hsc], hfills, by simp [Closes]⟩
    | size =>
      obtain ⟨size, hn, hsn⟩ := exists_token (k := .number) (by simp [Kind.Known])
      obtain ⟨closing, hc, hsc⟩ := exists_punct .closeBracket
      obtain ⟨type, n, hst, hread⟩ := sample_type
      have hfills : Fills kind [.choice .size] Closing [size, closing, type] _ :=
        .choice (by rw [hn]; rfl) (by rw [hn]) rfl (.token hn (.token hc hread.lastPart))
      exact ⟨[size, closing, type], _, by simp [hsn, hsc, hst], hfills, by simp [Closes]⟩
    | alternative =>
      obtain ⟨first, ts, n, hf, hs, hread⟩ := sample_block
      have hfills : Fills kind [.choice .alternative] Closing (first :: ts) _ :=
        .choice rfl (by rw [hf]) rfl hread.lastPart
      exact ⟨first :: ts, _, hs, hfills, by simp [Closes]⟩
    | externalForm =>
      obtain ⟨name, ts, n, hk, hs, hread⟩ := sample_binding
      have hbegin : Production.externalVariable.begin name = .ok ([typedIdentFrom name] ++
          [Frame.partly "external_variable" [] [.hole (some "typed_ident")]]) := by
        simp [Production.begin, requiring, hk]
      have hvariable : Reads .externalVariable Closing (name :: ts) _ :=
        (hread.wrapped "external_variable").reads hbegin
      have hfills : Fills kind [.choice .externalForm] Closing (name :: ts) _ :=
        .choice rfl (by rw [hk]) rfl hvariable.lastPart
      exact ⟨name :: ts, _, hs, hfills, by simp [Closes]⟩

/-! ### Tokens for the whole stack -/

/-- Tokens that lead from a stack to the end of the file. -/
def Finished (ts : List Token) (stack : Stack) : Prop :=
  ∃ last, Takes ts stack last ∧ ∀ t, EndOfText t → ∃ root, feed t last = .done root

theorem EndOfText.closing (h : EndOfText t) : Closing t := by
  rw [Closing, show t.kind = .eof from h]
  decide

/-- A stack that does the same before every closing token as another one is finished by what
finishes the other one. -/
theorem Finished.of_feed {ts us : List Token} {stack last other : Stack}
    (hother : Finished ts other) (h : Takes us stack last)
    (hsame : ∀ t, Closing t → feed t last = feed t other)
    (hclosing : ∀ t, ts.head? = some t → Closing t) :
    Finished (us ++ ts) stack := by
  obtain ⟨final, htakes, hdone⟩ := hother
  cases ts with
  | nil =>
    obtain rfl : other = final := htakes
    rw [List.append_nil]
    refine ⟨last, h, fun t ht => ?_⟩
    rw [hsame t ht.closing]
    exact hdone t ht
  | cons u ts => exact ⟨final, h.append (htakes.of_feed (hsame u (hclosing u rfl))), hdone⟩

theorem Finished.of_same {ts : List Token} {stack other : Stack}
    (hother : Finished ts other) (hsame : ∀ t, Closing t → feed t stack = feed t other)
    (hclosing : ∀ t, ts.head? = some t → Closing t) : Finished ts stack := by
  have htakes : Takes [] stack stack := rfl
  exact hother.of_feed htakes hsame hclosing

theorem feed_file {done : List Node} (h : EndOfText t) :
    feed t [.partly "source_file" done [.choice .topLevel]] =
      .done (.assemble "source_file" .origin done.reverse) := by
  have hset : settle "source_file" t.kind [.choice .topLevel] = ("source_file", []) := by
    rw [show t.kind = .eof from h]
    rfl
  simp [feed, Frame.before, hset, resume]

/-- Tokens lead to the end of the file, whatever node is handed to the stack. -/
def Finishable (below : Stack) : Prop :=
  ∀ n, ∃ ts, SpelledTokens ts ∧ (∀ t, ts.head? = some t → Closing t) ∧
    Finished ts (.complete n :: below)

theorem finish_partly (kind : String) (done : List Node) {todo : List Part} {below : Stack}
    (hr : Regular todo) (h : Finishable below) :
    ∃ ts, SpelledTokens ts ∧ (Closes todo → ∀ t, ts.head? = some t → Closing t) ∧
      Finished ts (.partly kind done todo :: below) := by
  obtain ⟨us, cs, hus, hfills, hfirst⟩ := finishes_regular kind todo hr
  obtain ⟨last, htakes, hsettles⟩ := hfills.completes done below
  obtain ⟨ts, hts, hclosing, hfinished⟩ := h (.assemble kind .origin (done.reverse ++ cs))
  refine ⟨us ++ ts, by simp [hus, hts], fun hc t ht => ?_,
    hfinished.of_feed htakes hsettles hclosing⟩
  cases us with
  | nil => exact hclosing t ht
  | cons u us => exact hfirst hc t ht

theorem finish_operators (left : Node) (above : Level) {below : Stack} (h : Finishable below) :
    ∃ ts, SpelledTokens ts ∧ (∀ t, ts.head? = some t → Closing t) ∧
      Finished ts (.operators left above :: below) := by
  obtain ⟨ts, hts, hclosing, hfinished⟩ := h left
  refine ⟨ts, hts, hclosing, hfinished.of_same (fun t ht => ?_) hclosing⟩
  rw [feed, before_operators (ht.ends above)]
  rfl

theorem Waiting.finishable {below : Stack} (h : Waiting below) : Finishable below := by
  induction h with
  | file =>
    intro n
    exact ⟨[], by simp, by simp, _, rfl, fun t ht => ⟨_, feed_complete.trans (feed_file ht)⟩⟩
  | @operand above _ _ ih =>
    intro n
    obtain ⟨ts, hts, hclosing, hfinished⟩ := finish_operators (wrapped n) above ih
    exact ⟨ts, hts, hclosing, hfinished.of_same (fun _ _ => rfl) hclosing⟩
  | @partly kind done field _ _ hc hr _ ih =>
    intro n
    obtain ⟨ts, hts, hclosing, hfinished⟩ := finish_partly kind (n.inField field :: done) hr ih
    exact ⟨ts, hts, hclosing hc, hfinished.of_same (fun _ _ => rfl) (hclosing hc)⟩

/-- **From every stack between two tokens, there are tokens that lead to the end of the file.** -/
theorem Resting.finish {stack : Stack} (h : Resting stack) :
    ∃ ts, SpelledTokens ts ∧ Finished ts stack := by
  cases h with
  | file => exact ⟨[], by simp, _, rfl, fun t ht => ⟨_, feed_file ht⟩⟩
  | @partly kind done _ _ hr hbelow =>
    obtain ⟨ts, hts, -, hfinished⟩ := finish_partly kind done hr hbelow.finishable
    exact ⟨ts, hts, hfinished⟩
  | @operators left above _ hbelow =>
    obtain ⟨ts, hts, -, hfinished⟩ := finish_operators left above hbelow.finishable
    exact ⟨ts, hts, hfinished⟩

end
end Grammar
end BlockC

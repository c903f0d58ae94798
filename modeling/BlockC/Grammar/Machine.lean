import BlockC.Grammar.Production
import BlockC.Token.Scan

/-! # Reading tokens

A stack of frames, innermost first, reads tokens one at a time.  Before a token, complete frames
hand their node to the frame below; then the token is taken, or it fits nowhere and the reading is
stuck.  Each token is taken once and never looked at again.
-/
namespace BlockC
namespace Grammar

/-- The productions under way, innermost first. -/
abbrev Stack := List Frame

/-- What a frame does before a token. -/
inductive Move where
  /-- It takes the token and becomes these frames, innermost first. -/
  | shift (frames : List Frame)
  /-- It is complete without the token. -/
  | complete (node : Node)
  /-- It requires something else. -/
  | stuck (request : Request)

/-- The frames that go on behind a complete operand with an operator; none if only a name can stand
before it. -/
def operation? (left : Node) (t : Token) (level : Level) : OperatorRole → Option (List Frame)
  | .binary =>
    some [.partly "binary_expr"
      [(Node.leaf t).inField (some "operator"), left.inField (some "left")]
      [.node (.expr level) (some "right")]]
  | .assignment =>
    some [.partly "assignment_expr"
      [(Node.leaf t).inField (some "operator"), left.inField (some "left")]
      [.node (.expr .lowest) (some "right")]]
  | .conditional =>
    some [.partly "cond_expr" [Node.leaf t, left.inField (some "condition")]
      [.node (.expr .lowest) (some "consequence"), .mark .colon,
       .node (.expr .assignment) (some "alternative")]]
  | .call =>
    match left.onlyNamedChild? with
    | some callee =>
      if callee.kind == "ident_expr" then
        some [opened "argument_list" t none [.choice .arguments, .mark .closeParen],
          .partly "call_expr" [callee.inField (some "func_name")] [.hole (some "args")]]
      else none
    | none => none

/-- Opens the choice in front of the parts, if there is one, before a token of the given kind. -/
def settle (kind : String) (k : Kind) : List Part → String × List Part
  | .choice c :: rest => ((c.rename? k).getD kind, c.expand k ++ rest)
  | parts => (kind, parts)

/-- What a frame on top of the stack does before a token. -/
def Frame.before (t : Token) : Frame → Move
  | .complete node => .complete node
  | .operand _ => .stuck .expr
  | .operators left above =>
    match t.kind.behindOperand? with
    | some (level, role) =>
      if above.rank < level.rank then
        match operation? left t level role with
        | some frames => .shift (frames ++ [.operand above])
        | none => .stuck .expr
      else .complete left
    | none => .complete left
  | .partly kind done todo =>
    match settle kind t.kind todo with
    | (kind, []) => .complete (.assemble kind .origin done.reverse)
    | (kind, .token k field :: rest) =>
      if t.kind = k then .shift [.partly kind ((Node.leaf t).inField field :: done) rest]
      else .stuck (.token k)
    | (kind, .node p field :: rest) =>
      match p.begin t with
      | .ok frames => .shift (frames ++ [.partly kind done (.hole field :: rest)])
      | .error request => .stuck request
    | (kind, .hole _ :: _) => .stuck ⟨kind, true⟩
    | (kind, .choice _ :: _) => .stuck ⟨kind, true⟩

/-- A frame that was waiting for a node, with the node in its place. -/
def Frame.fill (n : Node) : Frame → Frame
  | .partly kind done (.hole field :: rest) => .partly kind (n.inField field :: done) rest
  | .operand above => .operators (wrapped n) above
  | f => f

/-- What a stack does before a token. -/
inductive Step where
  /-- The token is taken. -/
  | shift (stack : Stack)
  /-- The stack is complete without the token. -/
  | done (node : Node)
  /-- Neither; the stack is the one that requires something else. -/
  | stuck (request : Request) (stack : Stack)

/-- Hands a node to the frames that wait for it, up to the first that is not complete with it. -/
def resume (t : Token) (n : Node) : Stack → Step
  | [] => .done n
  | f :: rest =>
    match (f.fill n).before t with
    | .shift frames => .shift (frames ++ rest)
    | .complete node => resume t node rest
    | .stuck request => .stuck request (f.fill n :: rest)

/-- What a stack does before a token. -/
def feed (t : Token) : Stack → Step
  | [] => .stuck .expr []
  | f :: rest =>
    match f.before t with
    | .shift frames => .shift (frames ++ rest)
    | .complete node => resume t node rest
    | .stuck request => .stuck request (f :: rest)

/-- Why a production could not be read to its end. -/
inductive Fault where
  /-- The first token that does not fit, by its place in the list. -/
  | unexpected (index : Nat)
  /-- The tokens ended where something was required. -/
  | missing (kind : String) (named : Bool) (pos : Position)
deriving DecidableEq, Repr

/-- A place in a list of tokens. -/
structure Stream where
  /-- How many tokens are behind it. -/
  index : Nat
  /-- The last token behind it. -/
  last : Option Token
  /-- The tokens before it. -/
  ahead : List Token
  /-- The place of the end of the text. -/
  stop : Position
deriving DecidableEq, Repr

namespace Stream

/-- The start of the tokens of a text. -/
def ofString (source : String) : Stream :=
  ⟨0, none, tokens source, endOfText source⟩

/-- The next token; the end of the text behind the last one. -/
def current (s : Stream) : Token :=
  s.ahead.head?.getD (.eof s.stop)

/-- Whether there are more tokens. -/
def hasTokens (s : Stream) : Bool :=
  !s.ahead.isEmpty

/-- The end of the last token behind the place, or the start of the next one. -/
def lastEnd (s : Stream) : Position :=
  match s.last with
  | some t => t.span.stop
  | none => s.current.span.start

/-- The place behind the next token; the end of the text is never passed. -/
def next (s : Stream) : Stream :=
  match s.ahead with
  | [] => s
  | t :: rest => ⟨s.index + 1, some t, rest, s.stop⟩

/-- The fault of a place where something else is required. -/
def fault (s : Stream) (r : Request) : Fault :=
  match s.ahead with
  | [] => .missing r.kind r.named s.lastEnd
  | _ :: _ => .unexpected s.index

end Stream

/-- What reading a production leads to. -/
structure Outcome where
  result : Except Fault Node
  /-- The place where the reading ended. -/
  stream : Stream
  /-- The productions still under way there. -/
  pending : Stack

/-- Lets a stack read the tokens that are `ahead`, from the place that `s` gives otherwise. -/
def drive (s : Stream) (stack : Stack) : List Token → Outcome
  | [] =>
    let place := { s with ahead := [] }
    match feed (.eof s.stop) stack with
    | .done node => ⟨.ok node, place, []⟩
    | .stuck request pending => ⟨.error (place.fault request), place, pending⟩
    | .shift pending => ⟨.error (place.fault (.token .eof)), place, pending⟩
  | t :: rest =>
    let place := { s with ahead := t :: rest }
    match feed t stack with
    | .done node => ⟨.ok node, place, []⟩
    | .stuck request pending => ⟨.error (place.fault request), place, pending⟩
    | .shift next => drive { s with index := s.index + 1, last := some t } next rest

/-- Reads a production. -/
def Stream.read (s : Stream) (p : Production) : Outcome :=
  match p.begin s.current with
  | .error request => ⟨.error (s.fault request), s, []⟩
  | .ok frames => drive s.next frames s.next.ahead

/-- Takes the next token, whatever it is. -/
def Stream.take (s : Stream) : Outcome :=
  ⟨.ok (.leaf s.current), s.next, []⟩

/-- Takes the next token if it is of the given kind. -/
def Stream.expect (s : Stream) (k : Kind) : Outcome :=
  if s.current.kind = k then s.take else ⟨.error (s.fault (.token k)), s, []⟩

end Grammar
end BlockC

import BlockC.Token.Kind

/-! # Concrete trees

A node has a kind, a span, children in reading order, and possibly a field name under its parent.
Trees come from the grammar of this library or from anywhere else: nothing here assumes that the
kinds, fields or spans fit together.
-/
namespace BlockC

/-- What a node says about itself. -/
structure NodeHead where
  /-- What the node is, such as `declare` or `(`. -/
  kind : String
  /-- Its role under its parent. -/
  field : Option String
  /-- False for punctuation and most reserved words. -/
  named : Bool
  /-- True for the placeholder of something that never came. -/
  missing : Bool
  /-- True for text that fits nowhere. -/
  error : Bool
  span : Span
deriving DecidableEq, Repr, Inhabited

/-- A concrete tree. -/
inductive Node where
  | mk (head : NodeHead) (children : List Node)
deriving Repr, Inhabited

namespace Node

def head : Node → NodeHead
  | mk head _ => head

def children : Node → List Node
  | mk _ children => children

@[simp] theorem head_mk (h : NodeHead) (cs : List Node) : (mk h cs).head = h := rfl

@[simp] theorem children_mk (h : NodeHead) (cs : List Node) : (mk h cs).children = cs := rfl

/-- The kind of the node. -/
def kind (n : Node) : String := n.head.kind

/-- Its role under its parent. -/
def field (n : Node) : Option String := n.head.field

/-- Whether it is more than punctuation. -/
def named (n : Node) : Bool := n.head.named

/-- Where it lies. -/
def span (n : Node) : Span := n.head.span

/-- Where it starts. -/
def start (n : Node) : Position := n.head.span.start

/-- The same node in another role. -/
def inField (n : Node) (field : Option String) : Node :=
  mk { n.head with field } n.children

/-- The kind of a node that holds text which fits nowhere. -/
def errorKind : String := "ERROR"

/-- A node without children for a token. -/
def leaf (t : Token) : Node :=
  mk ⟨t.kind.tag, none, t.kind.isNamed, false, t.kind.tag == errorKind, t.span⟩ []

/-- The placeholder for something that was required at `pos` and never came. -/
def absent (kind : String) (named : Bool) (pos : Position) : Node :=
  mk ⟨kind, none, named, true, kind == errorKind, ⟨pos, pos⟩⟩ []

/-- From the start of the first node to the end of the last; at `pos` if there is none. -/
def extent (pos : Position) (children : List Node) : Span :=
  ⟨(children.head?.map (·.span.start)).getD pos, (children.getLast?.map (·.span.stop)).getD pos⟩

/-- A node that holds the given children, and lies at `pos` if there are none. -/
def assemble (kind : String) (pos : Position) (children : List Node) : Node :=
  mk ⟨kind, none, true, false, kind == errorKind, extent pos children⟩ children

/-- The first child in the given role. -/
def child? (n : Node) (field : String) : Option Node :=
  n.children.find? (·.field == some field)

/-- The children that are more than punctuation. -/
def namedChildren (n : Node) : List Node :=
  n.children.filter (·.named)

/-- The only named child, if there is exactly one. -/
def onlyNamedChild? (n : Node) : Option Node :=
  match n.namedChildren with
  | [child] => some (child.inField none)
  | _ => none

mutual

/-- The named structure of a tree in parentheses, each child after its role. -/
def outline : Node → String
  | mk head children =>
    if head.missing then "(MISSING " ++ head.kind ++ ")"
    else "(" ++ head.kind ++ outlines children ++ ")"

/-- The outlines of the named nodes, each after a blank and its role. -/
def outlines : List Node → String
  | [] => ""
  | child :: rest =>
    if child.named then
      " " ++ (match child.field with | some f => f ++ ": " | none => "") ++ outline child ++
        outlines rest
    else outlines rest

end

mutual

/-- The nodes without children, in reading order. -/
def leaves : Node → List Node
  | mk head [] => [mk head []]
  | mk _ (child :: rest) => leaves child ++ leavesOf rest

/-- The nodes without children in a list of trees, in reading order. -/
def leavesOf : List Node → List Node
  | [] => []
  | child :: rest => leaves child ++ leavesOf rest

end

end Node
end BlockC

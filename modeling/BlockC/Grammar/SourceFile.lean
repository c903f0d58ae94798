import BlockC.Grammar.Machine

/-! # Source files

A text is read as a list of statements.  Reading never fails: at the first token that fits nowhere
the rest of the tokens become one error node, and something that is required at the end of the text
becomes a placeholder.  Either stands behind the statements that were complete before it.
-/
namespace BlockC
namespace Grammar

/-- A source file before its first token. -/
def sourceFile : Frame :=
  .partly "source_file" [] [.choice .topLevel]

/-- The children that the outermost production under way has so far. -/
def Stack.outermost (stack : Stack) : List Node :=
  match stack.getLast? with
  | some (.partly _ done _) => done.reverse
  | _ => []

/-- The node that records a fault, given all tokens of the text. -/
def Fault.record (all : List Token) : Fault → Node
  | .unexpected index =>
    let rest := all.drop index
    .assemble Node.errorKind .origin (rest.map Node.leaf)
  | .missing kind named pos => .absent kind named pos

/-- The tree of a text. -/
def parse (source : String) : Node :=
  let s := Stream.ofString source
  let outcome := drive s [sourceFile] s.ahead
  match outcome.result with
  | .ok root => root
  | .error fault =>
    .assemble "source_file" .origin (Stack.outermost outcome.pending ++ [fault.record s.ahead])

end Grammar
end BlockC

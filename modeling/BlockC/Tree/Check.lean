import BlockC.Diagnostic.Cause
import BlockC.Text.Blank
import BlockC.Text.Utf8
import BlockC.Tree.Node

/-! # Checking trees

A tree is in order if it has neither placeholders nor errors.  Of those that it has, the first in
reading order is reported, a parent before its children.
-/
namespace BlockC
namespace Node

/-- The first word of the text under a node, as far as it can be read. -/
def firstWord (source : ByteArray) (span : Span) : String :=
  match Utf8.slice? source span.start.offset span.stop.offset with
  | none => ""
  | some bytes => String.ofList (Text.firstWord (Utf8.lossy bytes).toList)

/-- What is wrong with a node itself. -/
def defect? (source : ByteArray) (head : NodeHead) : Option Diagnostic :=
  if head.missing then some ⟨.missingSyntax head.kind, head.span.start⟩
  else if head.error then some ⟨.invalidSyntax (firstWord source head.span), head.span.start⟩
  else none

/-- Trees put one behind the other take up no more room than apart. -/
theorem sizeOf_append_le (xs ys : List Node) : sizeOf (xs ++ ys) ≤ sizeOf xs + sizeOf ys := by
  induction xs with
  | nil => simp
  | cons x xs ih =>
    simp only [List.cons_append, List.cons.sizeOf_spec]
    omega

/-- Walks through trees in reading order, each node before its children, up to the first thing that
is wrong.  Every round takes one node off what is still to be seen. -/
def firstDefect? (source : ByteArray) : List Node → Option Diagnostic
  | [] => none
  | mk head children :: rest =>
    match defect? source head with
    | some d => some d
    | none => firstDefect? source (children ++ rest)
termination_by pending => sizeOf pending
decreasing_by
  simp only [List.cons.sizeOf_spec, mk.sizeOf_spec]
  have := sizeOf_append_le children rest
  omega

/-- Refuses a tree that is not in order. -/
def check (n : Node) (source : ByteArray) : Except Diagnostic Unit :=
  match firstDefect? source [n] with
  | some d => .error d
  | none => .ok ()

end Node
end BlockC

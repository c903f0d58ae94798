import BlockC.Bound.Binder
import BlockC.Code.Emit
import BlockC.Grammar.SourceFile
import BlockC.Tree.Check

/-! # Compiling

The whole way from a source text to C: read it as a tree, check the tree, bind its names, write it.
-/
namespace BlockC

/-- The compilation unit of a source text. -/
def analyze (source : String) : Except Diagnostic Bound.CompilationUnit := do
  let root := Grammar.parse source
  root.check source.toUTF8
  bindTree root source.toUTF8

/-- The C text of a source text. -/
def compile (source : String) (withPrelude : Bool) : Except Diagnostic String := do
  Code.unit (← analyze source) withPrelude

end BlockC

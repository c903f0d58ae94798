import BlockC.CommandLine.Folder
import BlockC.Compile
import BlockC.Diagnostic.Report

/-! # Commands

What a command line asks for, and what becomes of it.  A command reads one file; then it is done, or
it has a file to write first.
-/
namespace BlockC

/-- What a command line asks for. -/
structure Command where
  /-- The source file. -/
  input : String
  /-- Where the code goes; to the standard output if not given. -/
  output : Option String
  /-- Whether the prelude stands before the code. -/
  withPrelude : Bool
  /-- Whether only the tree is shown. -/
  dumpTree : Bool
deriving DecidableEq, Repr

namespace Command

/-- What is known of a command while its arguments are read. -/
structure Draft where
  input : Option String
  output : Option String
  withPrelude : Bool
  dumpTree : Bool

/-- The text behind `front`, if a text starts with it. -/
def behind? (front arg : String) : Option String :=
  if front.toList.isPrefixOf arg.toList then
    some (String.ofList (arg.toList.drop front.toList.length))
  else none

/-- Takes a path for the source file. -/
def Draft.withInput (d : Draft) (path : String) : Option Draft :=
  match d.input with
  | none => some { d with input := some path }
  | some _ => none

/-- Takes a path for the code. -/
def Draft.withOutput (d : Draft) (path : String) : Option Draft :=
  match d.output with
  | none => some { d with output := some path }
  | some _ => none

/-- The path for the code that stands in the same argument as its option. -/
def attached? (arg : String) : Option String :=
  match behind? "--output=" arg with
  | some path => some path
  | none =>
    match behind? "-o=" arg with
    | some path => some path
    | none => behind? "-o" arg

/-- Whether an argument is an option, or the mark behind the options. -/
def isOption (arg : String) : Bool :=
  arg.toList.head? == some '-' && arg != "-"

/-- Takes a flag, which may be given once. -/
def once (given : Bool) (d : Draft) : Option Draft :=
  if given then none else some d

/-- Reads the arguments.  After `--` all of them are paths. -/
def draft (d : Draft) (pathsOnly : Bool) : List String → Option Draft
  | [] => some d
  | arg :: rest =>
    if pathsOnly then d.withInput arg >>= (draft · true rest)
    else if arg = "--" then draft d true rest
    else if arg = "--prelude" then
      once d.withPrelude { d with withPrelude := true } >>= (draft · false rest)
    else if arg = "--dump-tree" then
      once d.dumpTree { d with dumpTree := true } >>= (draft · false rest)
    else if arg = "-o" ∨ arg = "--output" then
      match rest with
      | path :: rest =>
        if isOption path then none else d.withOutput path >>= (draft · false rest)
      | [] => none
    else
      match attached? arg with
      | some path => d.withOutput path >>= (draft · false rest)
      | none =>
        if isOption arg then none
        else d.withInput arg >>= (draft · false rest)

/-- The command that arguments ask for. -/
def ofArgs? (args : List String) : Option Command := do
  let d ← draft ⟨none, none, false, false⟩ false args
  let input ← d.input
  return ⟨input, d.output, d.withPrelude, d.dumpTree⟩

/-- How a command ends: its status, and what it says. -/
structure Ending where
  status : Nat
  out : String
  err : String
deriving DecidableEq, Repr

/-- What a command does once its source file is read. -/
inductive Plan where
  | finish (ending : Ending)
  /-- It writes this text to this path. -/
  | write (path text : String)
deriving DecidableEq, Repr

/-- An ending with nothing but a message. -/
def failure (message : String) : Ending :=
  ⟨1, "", message⟩

/-- The ending of a command that has said `out` and then meets a diagnostic.  A report that cannot
be drawn breaks off before its arrow. -/
def refusal (cmd : Command) (out : String) (d : Diagnostic) (content : String) : Ending :=
  match Report.render? d cmd.input content with
  | some report => ⟨1, out, report⟩
  | none => ⟨101, out, Report.opening d cmd.input content⟩

/-- Shows the tree of a source text. -/
def showTree (cmd : Command) (content : String) : Ending :=
  let root := Grammar.parse content
  match root.check content.toUTF8 with
  | .ok _ => ⟨0, root.outline ++ "\n", ""⟩
  | .error d => cmd.refusal (root.outline ++ "\n") d content

/-- What a command does once its source file is read, or could not be. -/
def plan (cmd : Command) : Except FileFault String → Plan
  | .error fault =>
    .finish (failure ("Error: cannot read " ++ cmd.input ++ ": " ++ fault.message ++ "\n"))
  | .ok content =>
    if cmd.dumpTree then .finish (cmd.showTree content)
    else
      match compile content cmd.withPrelude with
      | .error d => .finish (cmd.refusal "" d content)
      | .ok code =>
        match cmd.output with
        | some path => .write path code
        | none => .finish ⟨0, code ++ "\n", ""⟩

/-- How a command ends that had a file to write. -/
def afterWrite (path : String) : Option FileFault → Ending
  | none => ⟨0, "", ""⟩
  | some fault => failure ("Error: cannot write " ++ path ++ ": " ++ fault.message ++ "\n")

/-- The text of a file whose bytes are given. -/
def asText (bytes : Except FileFault ByteArray) : Except FileFault String :=
  match bytes with
  | .error fault => .error fault
  | .ok bytes =>
    match String.fromUTF8? bytes with
    | some s => .ok s
    | none => .error .notText

/-- Runs a command in a folder in memory. -/
def runIn (cmd : Command) (folder : Folder) : Ending × Folder :=
  match cmd.plan (asText (folder.read cmd.input)) with
  | .finish ending => (ending, folder)
  | .write path text =>
    match folder.write path text.toUTF8 with
    | .ok folder => (afterWrite path none, folder)
    | .error fault => (afterWrite path (some fault), folder)

end Command
end BlockC

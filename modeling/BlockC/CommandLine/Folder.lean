/-! # Folders

The files that a command can reach, in memory.  A path is walked step by step: every step but the
last has to lead to a folder, and only then does the last one count.  The faults are those of the
walk, in the order in which it meets them.
-/
namespace BlockC

/-- Why a file cannot be read or written. -/
inductive FileFault where
  | notFound
  | notDirectory
  | isDirectory
  | nameTooLong
  /-- The bytes of the file are not text. -/
  | notText
  /-- Anything else, in the words of the system. -/
  | other (message : String)
deriving DecidableEq, Repr

namespace FileFault

/-- The words for a fault. -/
def message : FileFault → String
  | .notFound => "No such file or directory (os error 2)"
  | .notDirectory => "Not a directory (os error 20)"
  | .isDirectory => "Is a directory (os error 21)"
  | .nameTooLong => "File name too long (os error 36)"
  | .notText => "stream did not contain valid UTF-8"
  | .other message => message

/-- The fault that a system gives this number. -/
def ofCode? (code : Nat) : Option FileFault :=
  match code with
  | 2 => some .notFound
  | 20 => some .notDirectory
  | 21 => some .isDirectory
  | 36 => some .nameTooLong
  | _ => none

end FileFault

/-- A step along a path. -/
inductive PathStep where
  /-- A single dot. -/
  | stay
  /-- Two dots. -/
  | up
  | down (name : String)
deriving DecidableEq, Repr

namespace PathStep

/-- The step that a piece of a path stands for; none for an empty piece. -/
def ofPiece? (piece : String) : Option PathStep :=
  if piece = "" then none
  else if piece = "." then some .stay
  else if piece = ".." then some .up
  else some (.down piece)

end PathStep

/-- Where a walk can start, and where it can get by going up. -/
inductive Base where
  /-- So many levels above the working folder. -/
  | above (levels : Nat)
  /-- The topmost folder. -/
  | top
deriving DecidableEq, Repr

/-- A file or folder, by the names that lead to it. -/
structure Place where
  base : Base
  /-- The names from the base on, the last one first. -/
  names : List String
deriving DecidableEq, Repr

namespace Place

/-- What has the given name in a folder. -/
def child (p : Place) (name : String) : Place :=
  ⟨p.base, name :: p.names⟩

/-- The folder around a place; the topmost folder is its own. -/
def parent (p : Place) : Place :=
  match p.base, p.names with
  | base, _ :: names => ⟨base, names⟩
  | .above levels, [] => ⟨.above (levels + 1), []⟩
  | .top, [] => p

end Place

/-- A path as it is written. -/
structure Path where
  start : Base
  steps : List PathStep
  /-- Whether a slash stands behind the last step. -/
  closed : Bool
deriving DecidableEq, Repr

namespace Path

/-- A text cut at its slashes. -/
def pieces : List Char → List (List Char)
  | [] => [[]]
  | c :: cs =>
    if c = '/' then [] :: pieces cs
    else
      match pieces cs with
      | [] => [[c]]
      | piece :: rest => (c :: piece) :: rest

/-- The number of bytes from which on a path is too long. -/
def limit : Nat := 4096

/-- The number of bytes that a name may have. -/
def longestName : Nat := 255

/-- The path that a text stands for.  The empty text stands for none. -/
def ofString (text : String) : Except FileFault Path :=
  let cs := text.toList
  if text.isEmpty then .error .notFound
  else if limit ≤ text.utf8ByteSize then .error .nameTooLong
  else .ok {
    start := if cs.head? = some '/' then .top else .above 0
    steps := (pieces cs).filterMap fun piece => PathStep.ofPiece? (String.ofList piece)
    closed := cs.getLast? = some '/' }

/-- Whether a name is longer than names may be. -/
def isTooLong (name : String) : Bool :=
  longestName < name.utf8ByteSize

end Path

/-- Folders and files around a working folder. -/
structure Folder where
  /-- The folders that are not the base of a place. -/
  folders : List Place
  /-- The files and their bytes. -/
  files : List (Place × ByteArray)
  /-- Files that are always empty, whatever is written to them. -/
  sinks : List Place

namespace Folder

/-- A folder at the top, as most systems have it. -/
def topFolder (name : String) : Place :=
  (⟨.top, []⟩ : Place).child name

/-- An empty working folder in a system with the usual folders at its top. -/
def empty : Folder where
  folders := ["bin", "dev", "etc", "home", "lib", "proc", "root", "sys", "tmp", "usr", "var"].map
    topFolder
  files := []
  sinks := [(topFolder "dev").child "null"]

/-- Whether a place is a folder. -/
def hasFolder (f : Folder) (p : Place) : Bool :=
  p.names.isEmpty || f.folders.contains p

/-- The bytes of the file at a place. -/
def file? (f : Folder) (p : Place) : Option ByteArray :=
  if f.sinks.contains p then some ByteArray.empty else f.files.lookup p

/-- The folder that a step leads to. -/
def enter (f : Folder) (p : Place) : PathStep → Except FileFault Place
  | .stay => .ok p
  | .up => .ok p.parent
  | .down name =>
    if Path.isTooLong name then .error .nameTooLong
    else if f.hasFolder (p.child name) then .ok (p.child name)
    else if (f.file? (p.child name)).isSome then .error .notDirectory
    else .error .notFound

/-- The folder that steps lead to. -/
def walk (f : Folder) (start : Base) (steps : List PathStep) : Except FileFault Place :=
  steps.foldlM f.enter ⟨start, []⟩

/-- The folder that a path leads into and the name of its last step.  There is no name if the path
leads to a folder whatever that holds. -/
def locate (f : Folder) (path : Path) : Except FileFault (Place × Option String) :=
  match path.steps.getLast? with
  | some (.down name) => (f.walk path.start path.steps.dropLast).map fun p => (p, some name)
  | _ => (f.walk path.start path.steps).map fun p => (p, none)

/-- The bytes of a file. -/
def read (f : Folder) (path : String) : Except FileFault ByteArray := do
  let path ← Path.ofString path
  match ← f.locate path with
  | (_, none) => throw .isDirectory
  | (p, some name) =>
    if Path.isTooLong name then throw .nameTooLong
    else if f.hasFolder (p.child name) then throw .isDirectory
    else
      match f.file? (p.child name) with
      | none => throw .notFound
      | some bytes => if path.closed then throw .notDirectory else return bytes

/-- The folder with a file in the place of what was there. -/
def write (f : Folder) (path : String) (bytes : ByteArray) : Except FileFault Folder := do
  let path ← Path.ofString path
  match ← f.locate path with
  | (_, none) => throw .isDirectory
  | (p, some name) =>
    if path.closed then throw .isDirectory
    else if Path.isTooLong name then throw .nameTooLong
    else if f.hasFolder (p.child name) then throw .isDirectory
    else if f.sinks.contains (p.child name) then return f
    else
      let others := f.files.filter (·.1 != p.child name)
      return { f with files := (p.child name, bytes) :: others }

end Folder
end BlockC

import BlockC.Symbol.Typing

/-! # Symbol tables

The symbols of a compilation unit in the order of their creation, the first of which is the root.
A symbol knows its parent from the start; the parent knows it as a child only once it is published
there.  The built-in types are symbols too, the same for every unit, and are never changed.
-/
namespace BlockC

/-- What a symbol stands for. -/
inductive SymbolKind where
  | var | typeName | func | mod | root | block | param
deriving DecidableEq, Repr

/-- Something that has a name, or a scope. -/
structure Symbol where
  name : String
  kind : SymbolKind
  /-- Absent for built-in types and for scopes. -/
  typing : Option Typing
  parent : Option SymbolId
  /-- The symbols published here, by name. -/
  children : List (String × SymbolId)
  /-- Whether the symbol is declared elsewhere. -/
  isExternal : Bool

namespace Symbol

/-- A symbol without type and children. -/
def fresh (name : String) (kind : SymbolKind) (parent : Option SymbolId) : Symbol :=
  ⟨name, kind, none, parent, [], false⟩

/-- The child of the given name. -/
def child? (s : Symbol) (name : String) : Option SymbolId :=
  s.children.lookup name

end Symbol

/-- The names of the built-in types. -/
def builtinNames : List String :=
  ["bool", "i8", "u8", "i16", "u16", "i32", "u32", "i64", "u64", "f32", "f64", "string"]

/-- The built-in type of the given name. -/
def builtin? (name : String) : Option SymbolId :=
  (builtinNames.idxOf? name).map .builtin

/-- The symbols of a compilation unit. -/
structure Table where
  symbols : Array Symbol

namespace Table

/-- The name of the root. -/
def rootName : String := "global"

/-- A table that holds its root only. -/
def empty : Table :=
  ⟨#[.fresh rootName .root none]⟩

/-- The handle of the root. -/
def root : SymbolId := .unit 0

/-- The symbol that a handle refers to. -/
def get? (t : Table) : SymbolId → Option Symbol
  | .builtin i => (builtinNames[i]?).map (.fresh · .typeName none)
  | .unit i => t.symbols[i]?

/-- The symbol that a handle refers to, which it has to. -/
def get (t : Table) (id : SymbolId) : Except Cause Symbol :=
  match t.get? id with
  | some s => .ok s
  | none => .error (.danglingSymbol id)

/-- A table with a further symbol, and its handle.  The symbol is not published. -/
def create (t : Table) (name : String) (kind : SymbolKind) (parent : SymbolId) :
    SymbolId × Table :=
  (.unit t.symbols.size, ⟨t.symbols.push (.fresh name kind (some parent))⟩)

/-- Why a handle cannot be written to, if it does not refer to a symbol of the unit. -/
def readOnly (i : Nat) : Cause :=
  match builtinNames[i]? with
  | some name => .malformedTree ("builtin `" ++ name ++ "` is read-only")
  | none => .danglingSymbol (.builtin i)

/-- Changes a symbol of the unit. -/
def update (t : Table) (id : SymbolId) (f : Symbol → Except Cause Symbol) : Except Cause Table :=
  match id with
  | .builtin i => .error (readOnly i)
  | .unit i =>
    match t.symbols[i]? with
    | some s => (f s).map fun s' => ⟨t.symbols.setIfInBounds i s'⟩
    | none => .error (.malformedTree ("no symbol with handle " ++ Numeral.decimal i))

/-- Gives a symbol its type. -/
def setTyping (t : Table) (id : SymbolId) (typing : Typing) : Except Cause Table :=
  t.update id fun s => .ok { s with typing := some typing }

/-- Marks a symbol as declared elsewhere. -/
def markExternal (t : Table) (id : SymbolId) : Except Cause Table :=
  t.update id fun s => .ok { s with isExternal := true }

/-- Publishes a child under its name, unless the parent has a child of that name. -/
def addChild (t : Table) (parent child : SymbolId) : Except Cause Table := do
  let name := (← t.get child).name
  t.update parent fun s =>
    match s.child? name with
    | some _ => .error (.redefinition name)
    | none => .ok { s with children := s.children ++ [(name, child)] }

end Table
end BlockC

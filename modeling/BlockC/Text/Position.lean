import BlockC.Text.Numeral

/-! # Positions

A place in a text: its line, and its distance in UTF-8 bytes from the start of the line and of the
text.  All three count from zero, and only a line feed ends a line.
-/
namespace BlockC

/-- A place between two characters of a text. -/
structure Position where
  line : Nat
  column : Nat
  offset : Nat
deriving DecidableEq, Repr, Inhabited

namespace Position

/-- The start of a text. -/
def origin : Position := ⟨0, 0, 0⟩

/-- The place behind character `c`, if `p` is the place before it. -/
def step (p : Position) (c : Char) : Position :=
  if c = '\n' then ⟨p.line + 1, 0, p.offset + 1⟩
  else ⟨p.line, p.column + c.utf8Size, p.offset + c.utf8Size⟩

/-- The place behind all of `cs`. -/
def after (p : Position) (cs : List Char) : Position :=
  cs.foldl step p

@[simp] theorem after_nil (p : Position) : p.after [] = p := rfl

@[simp] theorem after_cons (p : Position) (c : Char) (cs : List Char) :
    p.after (c :: cs) = (p.step c).after cs := rfl

theorem after_append (p : Position) (cs ds : List Char) :
    p.after (cs ++ ds) = (p.after cs).after ds := by
  simp [after]

/-- The place as messages show it: line and column, counted from one.  There is nothing to show if
one of them does not fit in 64 bits. -/
def shown? (p : Position) : Option String :=
  if p.line + 1 < Numeral.limit ∧ p.column + 1 < Numeral.limit then
    some (Numeral.decimal (p.line + 1) ++ ":" ++ Numeral.decimal (p.column + 1))
  else none

end Position

/-- A stretch of text. -/
structure Span where
  start : Position
  stop : Position
deriving DecidableEq, Repr, Inhabited

end BlockC

/-! # Lines

A text cut behind each of its line feeds.
-/
namespace BlockC
namespace Text

/-- The lines of a text, each with its line feed. -/
def lines : List Char → List (List Char)
  | [] => []
  | c :: cs =>
    if c = '\n' then [c] :: lines cs
    else
      match lines cs with
      | [] => [[c]]
      | l :: ls => (c :: l) :: ls

/-- Line `n` of a text, counted from zero; empty if there is none. -/
def line (cs : List Char) (n : Nat) : List Char :=
  ((lines cs)[n]?).getD []

end Text
end BlockC

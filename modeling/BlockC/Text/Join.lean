/-! # Joining and cutting

Texts joined with a mark between them, and a text cut at its dots.
-/
namespace BlockC
namespace Text

/-- The texts with `mark` between neighbours. -/
def joined (mark : String) : List String → String
  | [] => ""
  | [s] => s
  | s :: rest => s ++ mark ++ joined mark rest

/-- The pieces between the dots; one piece if there is no dot. -/
def cutAtDots : List Char → List (List Char)
  | [] => [[]]
  | c :: cs =>
    if c = '.' then [] :: cutAtDots cs
    else
      match cutAtDots cs with
      | [] => [[c]]
      | piece :: rest => (c :: piece) :: rest

/-- The segments of a dotted name. -/
def segments (name : String) : List String :=
  (cutAtDots name.toList).map String.ofList

end Text
end BlockC

/-! # Patterns

Regular patterns over characters, matched at the front of a text.  Alternatives are tried from left
to right and repetition takes as much as it can; of all the ways to match, the first in this order
counts.  `Pattern.run` explores the ways in that order, handing each to a continuation that may
refuse it.
-/
namespace BlockC

/-- A pattern over characters. -/
inductive Pattern where
  /-- One character of a class. -/
  | one (belongs : Char → Bool)
  /-- One pattern, then the other. -/
  | seq (first second : Pattern)
  /-- The first pattern, or else the second. -/
  | alt (first second : Pattern)
  /-- Any number of repetitions, as many as possible. -/
  | many (body : Pattern)

namespace Pattern

/-- A text cut in two: what has been taken from its front, the last character first, and what is
left. -/
structure Cut where
  taken : List Char
  rest : List Char
deriving DecidableEq, Repr

/-- Repeats `body` before `k` as often as possible, but not more often than `bound` is long. -/
def repeatAlong (body : (Cut → Option Cut) → Cut → Option Cut) (k : Cut → Option Cut) :
    List Char → Cut → Option Cut
  | [], s => k s
  | _ :: bound, s =>
    match body (repeatAlong body k bound) s with
    | some r => some r
    | none => k s

/-- Takes a match from the front of the rest so that `k` accepts the cut behind it, and answers with
what `k` says.  A repetition need not go on for longer than there are characters, since its body
takes some: the rest itself bounds it. -/
def run : Pattern → (Cut → Option Cut) → Cut → Option Cut
  | one _, _, ⟨_, []⟩ => none
  | one belongs, k, ⟨taken, c :: rest⟩ => if belongs c then k ⟨c :: taken, rest⟩ else none
  | seq a b, k, s => a.run (b.run k) s
  | alt a b, k, s =>
    match a.run k s with
    | some r => some r
    | none => b.run k s
  | many a, k, s => repeatAlong a.run k s.rest s

/-- The match at the front of a text, and what is left behind it. -/
def split? (p : Pattern) (s : List Char) : Option (List Char × List Char) :=
  (p.run some ⟨[], s⟩).map fun cut => (cut.taken.reverse, cut.rest)

/-- One given character. -/
def char (c : Char) : Pattern :=
  one (· == c)

/-- One of the given characters. -/
def among (cs : List Char) : Pattern :=
  one (cs.contains ·)

/-- Any character but the given ones. -/
def except (cs : List Char) : Pattern :=
  one (fun c => !cs.contains c)

/-- One repetition or more. -/
def many1 (p : Pattern) : Pattern :=
  seq p (many p)

/-- A fixed text, which is the character `c` followed by `cs`. -/
def text (c : Char) : List Char → Pattern
  | [] => char c
  | d :: cs => seq (char c) (text d cs)

/-- One or more of `p`, in groups divided by `mark`. -/
def grouped (p : Pattern) (mark : Char) : Pattern :=
  seq (many1 p) (many (seq (char mark) (many1 p)))

end Pattern
end BlockC

import BlockC.Token.Rules

/-! # Scanning

From text to tokens.  A cursor stands before what is left of the text and knows its place; each
round takes one lexeme, which is what the first matching rule takes, or a single character that no
rule takes.
-/
namespace BlockC

/-- A place in a text, with the text that follows it. -/
structure Cursor where
  rest : List Char
  pos : Position
deriving DecidableEq, Repr

namespace Cursor

/-- The start of a text. -/
def ofString (source : String) : Cursor :=
  ⟨source.toList, .origin⟩

/-- The first characters that take up exactly `n` bytes, and the text behind them.  There are none
if the text is shorter, or if `n` ends inside a character. -/
def splitBytes? : Nat → List Char → Option (List Char × List Char)
  | 0, cs => some ([], cs)
  | _ + 1, [] => none
  | n + 1, c :: cs =>
    if c.utf8Size ≤ n + 1 then
      (splitBytes? (n + 1 - c.utf8Size) cs).map fun (front, rest) => (c :: front, rest)
    else none
termination_by structural _ cs => cs

/-- The span of the next `n` bytes. -/
def span? (cur : Cursor) (n : Nat) : Option Span :=
  (splitBytes? n cur.rest).map fun (front, _) => ⟨cur.pos, cur.pos.after front⟩

/-- The cursor behind the next `n` bytes. -/
def advance? (cur : Cursor) (n : Nat) : Option Cursor :=
  (splitBytes? n cur.rest).map fun (front, rest) => ⟨rest, cur.pos.after front⟩

/-- Whether no text is left. -/
def atEnd (cur : Cursor) : Bool :=
  cur.rest.isEmpty

end Cursor

namespace Lexical

/-- The first rule of the table that takes something from the front of the text, what it takes, and
what it leaves. -/
def firstMatch? (table : List Rule) (s : List Char) : Option (Rule × List Char × List Char) :=
  table.findSome? fun r =>
    match r.pattern.split? s with
    | some (c :: front, rest) => some (r, c :: front, rest)
    | _ => none

/-- A piece of text and what is to be done with it; `none` for a character that no rule takes. -/
structure Lexeme where
  action : Option Action
  text : List Char
deriving DecidableEq, Repr

/-- The lexeme at the front of the text `c :: cs`, and the text behind it. -/
def nextLexeme (c : Char) (cs : List Char) : Lexeme × List Char :=
  match firstMatch? rules (c :: cs) with
  | some (r, front, rest) => (⟨some r.action, front⟩, rest)
  | none => (⟨none, [c]⟩, cs)

/-- The kind of token that a lexeme is; `none` if it is dropped. -/
def Lexeme.kind? (l : Lexeme) : Option Kind :=
  match l.action with
  | none => some .unknown
  | some .skip => none
  | some .word =>
    match Keyword.ofText? (String.ofList l.text) with
    | some k => some (.keyword k)
    | none => some .identifier
  | some (.token kind) => some kind

/-- The lexemes of a text, each with its place.  Each takes a character or more, so there are at
most as many as the text is long: the text itself is a `bound`. -/
def lexemes : List Char → Cursor → List (Lexeme × Span)
  | [], _ => []
  | _ :: _, ⟨[], _⟩ => []
  | _ :: bound, ⟨c :: cs, pos⟩ =>
    let (l, rest) := nextLexeme c cs
    (l, ⟨pos, pos.after l.text⟩) :: lexemes bound ⟨rest, pos.after l.text⟩

/-- The token that a lexeme at a place is, if it is one. -/
def toToken? (l : Lexeme × Span) : Option Token :=
  l.1.kind?.map fun kind => ⟨kind, String.ofList l.1.text, l.2⟩

end Lexical

/-- The tokens of a text, without the end of the text. -/
def tokens (source : String) : List Token :=
  (Lexical.lexemes source.toList (.ofString source)).filterMap Lexical.toToken?

/-- The place of the end of a text. -/
def endOfText (source : String) : Position :=
  Position.origin.after source.toList

/-- The tokens of a text; the last one is its end. -/
def tokenize (source : String) : List Token :=
  tokens source ++ [.eof (endOfText source)]

end BlockC

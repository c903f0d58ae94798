import BlockC.Text.Blank
import BlockC.Text.Numeral
import BlockC.Token.Kind
import BlockC.Token.Pattern

/-! # Lexical rules

What each kind of token looks like.  The rules are tried in the order of the table, and the first
whose pattern matches decides.
-/
namespace BlockC
namespace Lexical

/-- What becomes of the text that a rule matches. -/
inductive Action where
  /-- It is dropped. -/
  | skip
  /-- It is a word: a reserved one, or an identifier. -/
  | word
  /-- It is a token of this kind. -/
  | token (kind : Kind)
deriving DecidableEq, Repr

/-- A pattern and what becomes of its matches. -/
structure Rule where
  pattern : Pattern
  action : Action

/-- Letters and the underscore. -/
def isWordStart (c : Char) : Bool :=
  ('a' ≤ c && c ≤ 'z') || ('A' ≤ c && c ≤ 'Z') || c == '_'

/-- Decimal digits. -/
def isDigit (c : Char) : Bool :=
  '0' ≤ c && c ≤ '9'

/-- Letters, digits and the underscore. -/
def isWordPart (c : Char) : Bool :=
  isWordStart c || isDigit c

/-- Hexadecimal digits. -/
def isHexDigit (c : Char) : Bool :=
  isDigit c || ('a' ≤ c && c ≤ 'f') || ('A' ≤ c && c ≤ 'F')

/-- Binary digits. -/
def isBinaryDigit (c : Char) : Bool :=
  c == '0' || c == '1'

open Pattern

/-- An identifier or a reserved word. -/
def word : Pattern :=
  seq (one isWordStart) (many (one isWordPart))

/-- A number in base sixteen, two or ten, its digits in groups. -/
def number : Pattern :=
  alt (seq (char '0') (seq (among ['x', 'X']) (grouped (one isHexDigit) Numeral.separator)))
    (alt (seq (char '0') (seq (among ['b', 'B']) (grouped (one isBinaryDigit) Numeral.separator)))
      (grouped (one isDigit) Numeral.separator))

/-- A run of blanks. -/
def blanks : Pattern :=
  many1 (one Text.isBlank)

/-- A string on one line; a backslash takes the next character along. -/
def string : Pattern :=
  seq (char '"')
    (seq (many (alt (except ['"', '\\', '\n']) (seq (char '\\') (except ['\n'])))) (char '"'))

/-- A comment up to the end of the line. -/
def lineComment : Pattern :=
  seq (char '/') (seq (char '/') (many (except ['\n'])))

/-- A comment up to the first `*/`: runs of stars, none but the last before a slash. -/
def blockComment : Pattern :=
  seq (char '/') (seq (char '*') (seq (many (except ['*'])) (seq (many1 (char '*'))
    (seq (many (seq (except ['/', '*']) (seq (many (except ['*'])) (many1 (char '*')))))
      (char '/')))))

/-- The rule for a piece of punctuation. -/
def Rule.ofPunct (p : Punct) : Rule where
  pattern :=
    match p.text.toList with
    | [] => one (fun _ => false)
    | c :: cs => text c cs
  action := .token (.punct p)

/-- The table of rules. -/
def rules : List Rule :=
  [⟨word, .word⟩, ⟨number, .token .number⟩, ⟨blanks, .skip⟩, ⟨string, .token .string⟩,
   ⟨lineComment, .skip⟩, ⟨blockComment, .skip⟩] ++ Punct.all.map Rule.ofPunct

end Lexical
end BlockC

import BlockC.Text.Position

/-! # Tokens of the language

The kinds of token: punctuation and operators, reserved words, and the kinds whose text is free.
-/
namespace BlockC

/-- Punctuation and operators, longer ones before those they start with. -/
inductive Punct where
  | openBracket | closeBracket | openParen | closeParen | equals | notEquals | bang | assign
  | shiftLeftEquals | shiftLeft | lessEquals | less | shiftRightEquals | shiftRight
  | greaterEquals | greater | barBar | barEquals | bar | ampAmp | ampEquals | amp | caretEquals
  | caret | tilde | ellipsis | dot | semicolon | colon | question | comma | arrow | plusEquals
  | dashEquals | starEquals | slashEquals | percentEquals | plus | dash | slash | star
  | percent
deriving DecidableEq, Repr, Inhabited

/-- Reserved words. -/
inductive Keyword where
  | mod | letKw | external | fnKw | typeKw | whileKw | ifKw | elseKw | returnKw | doKw | endKw
  | trueKw | falseKw | nullKw
deriving DecidableEq, Repr, Inhabited

namespace Punct

/-- Every piece of punctuation, in the order in which the text is tried against them. -/
def all : List Punct :=
  [.openBracket, .closeBracket, .openParen, .closeParen, .equals, .notEquals, .bang, .assign,
   .shiftLeftEquals, .shiftLeft, .lessEquals, .less, .shiftRightEquals, .shiftRight,
   .greaterEquals, .greater, .barBar, .barEquals, .bar, .ampAmp, .ampEquals, .amp,
   .caretEquals, .caret, .tilde, .ellipsis, .dot, .semicolon, .colon, .question, .comma,
   .arrow, .plusEquals, .dashEquals, .starEquals, .slashEquals, .percentEquals, .plus, .dash,
   .slash, .star, .percent]

/-- How it is written. -/
def text : Punct → String
  | .openBracket => "["
  | .closeBracket => "]"
  | .openParen => "("
  | .closeParen => ")"
  | .equals => "=="
  | .notEquals => "!="
  | .bang => "!"
  | .assign => "="
  | .shiftLeftEquals => "<<="
  | .shiftLeft => "<<"
  | .lessEquals => "<="
  | .less => "<"
  | .shiftRightEquals => ">>="
  | .shiftRight => ">>"
  | .greaterEquals => ">="
  | .greater => ">"
  | .barBar => "||"
  | .barEquals => "|="
  | .bar => "|"
  | .ampAmp => "&&"
  | .ampEquals => "&="
  | .amp => "&"
  | .caretEquals => "^="
  | .caret => "^"
  | .tilde => "~"
  | .ellipsis => "..."
  | .dot => "."
  | .semicolon => ";"
  | .colon => ":"
  | .question => "?"
  | .comma => ","
  | .arrow => "->"
  | .plusEquals => "+="
  | .dashEquals => "-="
  | .starEquals => "*="
  | .slashEquals => "/="
  | .percentEquals => "%="
  | .plus => "+"
  | .dash => "-"
  | .slash => "/"
  | .star => "*"
  | .percent => "%"

/-- What a listing calls it. -/
def name : Punct → String
  | .openBracket => "OpenBracket"
  | .closeBracket => "CloseBracket"
  | .openParen => "OpenParen"
  | .closeParen => "CloseParen"
  | .equals => "Equals"
  | .notEquals => "NotEquals"
  | .bang => "Not"
  | .assign => "Assignment"
  | .shiftLeftEquals => "ShiftLeftEquals"
  | .shiftLeft => "ShiftLeft"
  | .lessEquals => "LessEquals"
  | .less => "Less"
  | .shiftRightEquals => "ShiftRightEquals"
  | .shiftRight => "ShiftRight"
  | .greaterEquals => "GreaterEquals"
  | .greater => "Greater"
  | .barBar => "Or"
  | .barEquals => "PipeEquals"
  | .bar => "Pipe"
  | .ampAmp => "And"
  | .ampEquals => "AmpersandEquals"
  | .amp => "Ampersand"
  | .caretEquals => "CaretEquals"
  | .caret => "Caret"
  | .tilde => "Tilde"
  | .ellipsis => "Ellipsis"
  | .dot => "Dot"
  | .semicolon => "Semicolon"
  | .colon => "Colon"
  | .question => "Question"
  | .comma => "Comma"
  | .arrow => "Arrow"
  | .plusEquals => "PlusEquals"
  | .dashEquals => "MinusEquals"
  | .starEquals => "StarEquals"
  | .slashEquals => "SlashEquals"
  | .percentEquals => "PercentEquals"
  | .plus => "Plus"
  | .dash => "Dash"
  | .slash => "Slash"
  | .star => "Star"
  | .percent => "Percent"

end Punct

namespace Keyword

/-- Every reserved word. -/
def all : List Keyword :=
  [.mod, .letKw, .external, .fnKw, .typeKw, .whileKw, .ifKw, .elseKw, .returnKw, .doKw, .endKw,
   .trueKw, .falseKw, .nullKw]

/-- How it is written. -/
def text : Keyword → String
  | .mod => "mod"
  | .letKw => "let"
  | .external => "external"
  | .fnKw => "fn"
  | .typeKw => "type"
  | .whileKw => "while"
  | .ifKw => "if"
  | .elseKw => "else"
  | .returnKw => "return"
  | .doKw => "do"
  | .endKw => "end"
  | .trueKw => "true"
  | .falseKw => "false"
  | .nullKw => "null"

/-- What a listing calls it. -/
def name : Keyword → String
  | .mod => "Mod"
  | .letKw => "Let"
  | .external => "External"
  | .fnKw => "Fn"
  | .typeKw => "Type"
  | .whileKw => "While"
  | .ifKw => "If"
  | .elseKw => "Else"
  | .returnKw => "Return"
  | .doKw => "Do"
  | .endKw => "End"
  | .trueKw => "True"
  | .falseKw => "False"
  | .nullKw => "Null"

/-- The reserved word that a word is, if it is one. -/
def ofText? (word : String) : Option Keyword :=
  all.find? (·.text == word)

/-- Whether the word stands for a value. -/
def isLiteral : Keyword → Bool
  | .trueKw | .falseKw | .nullKw => true
  | _ => false

end Keyword

/-- The kind of a token. -/
inductive Kind where
  /-- The end of the text. -/
  | eof
  /-- A character that starts no token. -/
  | unknown
  | number
  | string
  | identifier
  | punct (p : Punct)
  | keyword (k : Keyword)
deriving DecidableEq, Repr, Inhabited

namespace Kind

/-- What a listing calls the kind. -/
def name : Kind → String
  | .eof => "EOF"
  | .unknown => "Unknown"
  | .number => "Number"
  | .string => "String"
  | .identifier => "Identifier"
  | .punct p => p.name
  | .keyword k => k.name

/-- The tag of a token of this kind in a tree.  Punctuation and most reserved words are tagged with
their own text. -/
def tag : Kind → String
  | .eof => "EOF"
  | .unknown => "ERROR"
  | .number => "number_literal"
  | .string => "string_literal"
  | .identifier => "ident"
  | .punct p => p.text
  | .keyword .trueKw => "true_lit"
  | .keyword .falseKw => "false_lit"
  | .keyword .nullKw => "null_lit"
  | .keyword k => k.text

/-- Whether a token of this kind is a named node of a tree: those whose text matters, and the words
that stand for values. -/
def isNamed : Kind → Bool
  | .number | .string | .identifier => true
  | .keyword k => k.isLiteral
  | _ => false

end Kind

/-- A piece of text with its kind and its place. -/
structure Token where
  kind : Kind
  value : String
  span : Span
deriving DecidableEq, Repr, Inhabited

namespace Token

/-- The token as a listing shows it. -/
def shown (t : Token) : String :=
  "Token \x7b\nkind: " ++ t.kind.name ++ ",\nvalue: " ++ t.value ++ "\x7d"

/-- The token that ends every token list. -/
def eof (p : Position) : Token :=
  ⟨.eof, "EOF", ⟨p, p⟩⟩

end Token
end BlockC

import BlockC.Text.Hidden

/-! # Quoted text

Text between double quotes, as error messages show it.  Quotes, backslashes and hidden characters
are escaped, so the text stays on one line and can be read.
-/
namespace BlockC
namespace Text

/-- Lower case hexadecimal digits of `n`. -/
def hex (n : Nat) : List Char :=
  Nat.toDigits 16 n

/-- A character as it stands between quotes. -/
def escape (c : Char) : List Char :=
  match c with
  | '\x00' => ['\\', '0']
  | '\t' => ['\\', 't']
  | '\n' => ['\\', 'n']
  | '\r' => ['\\', 'r']
  | '"' => ['\\', '"']
  | '\\' => ['\\', '\\']
  | c => if isHidden c then ['\\', 'u', '\x7b'] ++ hex c.toNat ++ ['\x7d'] else [c]

/-- The text between double quotes. -/
def quoted (s : String) : String :=
  String.ofList ('"' :: s.toList.flatMap escape ++ ['"'])

end Text
end BlockC

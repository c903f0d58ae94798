/-! # Numerals

Decimal text of a natural number, and the reading of an unsigned 64-bit number from the digits of a
literal.  A literal may group its digits with `'`, and may start with `0x` or `0b` for base sixteen
or two.
-/
namespace BlockC
namespace Numeral

/-- The least number that does not fit in 64 bits. -/
def limit : Nat := UInt64.size

/-- Decimal text, without leading zeros. -/
def decimal (n : Nat) : String :=
  String.ofList (Nat.toDigits 10 n)

/-- The value of a digit in a base of at most sixteen; letters count in either case. -/
def digit? (base : Nat) (c : Char) : Option Nat :=
  let value :=
    if '0' ≤ c ∧ c ≤ '9' then some (c.toNat - '0'.toNat)
    else if 'a' ≤ c ∧ c ≤ 'f' then some (c.toNat - 'a'.toNat + 10)
    else if 'A' ≤ c ∧ c ≤ 'F' then some (c.toNat - 'A'.toNat + 10)
    else none
  value.filter (· < base)

/-- The digits read from the most significant one on, after those already worth `value`. -/
def digits? (base : Nat) (value : Nat) : List Char → Option Nat
  | [] => some value
  | c :: cs => (digit? base c).bind fun d => digits? base (value * base + d) cs

/-- At least one digit, after an optional plus sign. -/
def unsigned? (base : Nat) : List Char → Option Nat
  | [] => none
  | '+' :: c :: cs => digits? base 0 (c :: cs)
  | cs => digits? base 0 cs

/-- The base that the start of a literal announces, and the digits that follow. -/
def split : List Char → Nat × List Char
  | '0' :: 'x' :: cs => (16, cs)
  | '0' :: 'X' :: cs => (16, cs)
  | '0' :: 'b' :: cs => (2, cs)
  | '0' :: 'B' :: cs => (2, cs)
  | cs => (10, cs)

/-- The mark between groups of digits. -/
def separator : Char := '\x27'

/-- The value of a number literal, if it fits in 64 bits. -/
def read? (literal : String) : Option UInt64 :=
  let (base, digits) := split (literal.toList.filter (· != separator))
  match unsigned? base digits with
  | some n => if n < limit then some (UInt64.ofNat n) else none
  | none => none

end Numeral
end BlockC

/-! # Bytes and text

A source buffer is a byte array that need not be text.  A slice of it is read strictly, or with the
replacement character in place of every maximal piece that no character can start with.
-/
namespace BlockC
namespace Utf8

/-- The bytes from `start` up to `stop`, if both lie in the buffer in this order. -/
def slice? (buffer : ByteArray) (start stop : Nat) : Option ByteArray :=
  if start ≤ stop ∧ stop ≤ buffer.size then some (buffer.extract start stop) else none

/-- The replacement character. -/
def replacement : Char := '�'

/-- The number of bytes after a leading byte, and the bounds of the first of them; `none` for a byte
that starts no character. -/
def lead? (b : UInt8) : Option (Nat × UInt8 × UInt8) :=
  if b < 0x80 then some (0, 0x80, 0xBF)
  else if 0xC2 ≤ b ∧ b ≤ 0xDF then some (1, 0x80, 0xBF)
  else if b = 0xE0 then some (2, 0xA0, 0xBF)
  else if b = 0xED then some (2, 0x80, 0x9F)
  else if 0xE1 ≤ b ∧ b ≤ 0xEF then some (2, 0x80, 0xBF)
  else if b = 0xF0 then some (3, 0x90, 0xBF)
  else if 0xF1 ≤ b ∧ b ≤ 0xF3 then some (3, 0x80, 0xBF)
  else if b = 0xF4 then some (3, 0x80, 0x8F)
  else none

/-- The payload of a leading byte that `more` bytes follow. -/
def leadBits (more : Nat) (b : UInt8) : Nat :=
  match more with
  | 0 => b.toNat
  | 1 => b.toNat % 0x20
  | 2 => b.toNat % 0x10
  | _ => b.toNat % 0x08

/-- Reads the bytes after a leading byte, the first of them between `low` and `high`.  The second
part is what follows; the first is `none` if the character breaks off. -/
def tail (value : Nat) : Nat → UInt8 → UInt8 → List UInt8 → Option Nat × List UInt8
  | 0, _, _, bytes => (some value, bytes)
  | _ + 1, _, _, [] => (none, [])
  | more + 1, low, high, b :: bytes =>
    if low ≤ b ∧ b ≤ high then tail (value * 0x40 + b.toNat % 0x40) more 0x80 0xBF bytes
    else (none, b :: bytes)

/-- Reads bytes as text, with a replacement character for each piece that is no character.  Every
round uses up a byte, so their number bounds the rounds. -/
def repair : Nat → List UInt8 → List Char
  | 0, _ => []
  | _ + 1, [] => []
  | n + 1, b :: bytes =>
    match lead? b with
    | none => replacement :: repair n bytes
    | some (more, low, high) =>
      match tail (leadBits more b) more low high bytes with
      | (some value, rest) => Char.ofNat value :: repair n rest
      | (none, rest) => replacement :: repair n rest

/-- Text as it is, anything else repaired. -/
def lossy (bytes : ByteArray) : String :=
  match String.fromUTF8? bytes with
  | some s => s
  | none => String.ofList (repair bytes.size bytes.toList)

end Utf8
end BlockC

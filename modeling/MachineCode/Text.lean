/-!
# Texts of numbers and bytes

The texts in which numbers appear in rendered operands and messages are read off one list of digits,
most significant first (`Numeral.digits`): decimal, hexadecimal behind `0x`, binary behind `0b`, and
binary filled up with zeros to a fixed width.

A byte list is written with two lower-case digits per byte, high digit first, and read back from
exactly such texts: `Hex.decode?` refuses an odd number of digits, capital digits and any other
character.
-/
namespace MachineCode

namespace Numeral

/-- The digits of `n` in base `base`, most significant first and without leading zeros; zero is
the single digit `0`. Below base two there is no positional numeral and `n` is one digit. -/
def digits (base n : Nat) : List Char :=
  if 2 ≤ base ∧ base ≤ n then
    digits base (n / base) ++ [Nat.digitChar (n % base)]
  else
    [Nat.digitChar n]
termination_by n
decreasing_by
  rename_i h
  exact Nat.div_lt_self (Nat.lt_of_lt_of_le (by omega) h.2) h.1

/-- A natural number in base ten. -/
def decimal (n : Nat) : String := String.ofList (digits 10 n)

/-- An integer in base ten, negative numbers behind a minus sign. -/
def integer (i : Int) : String :=
  if i < 0 then "-" ++ decimal i.natAbs else decimal i.natAbs

/-- A natural number in base sixteen, in lower case behind `0x`. -/
def hex (n : Nat) : String := "0x" ++ String.ofList (digits 16 n)

/-- A natural number in base two behind `0b`. -/
def binary (n : Nat) : String := "0b" ++ String.ofList (digits 2 n)

/-- A natural number in base two, filled up with leading zeros to `width` digits. -/
def paddedBinary (width n : Nat) : String :=
  String.ofList (List.replicate (width - (digits 2 n).length) '0' ++ digits 2 n)

end Numeral

namespace Hex

/-- The two digits of a byte, high digit first. -/
def digitPair (b : UInt8) : List Char :=
  [Nat.digitChar (b.toNat / 16), Nat.digitChar (b.toNat % 16)]

/-- Two digits per byte, in the order of the bytes. -/
def encode (bs : List UInt8) : List Char := bs.flatMap digitPair

/-- The text of a byte list. -/
def text (bs : List UInt8) : String := String.ofList (encode bs)

/-- The value of a lower-case digit. -/
def digitValue? (c : Char) : Option Nat :=
  if '0' ≤ c ∧ c ≤ '9' then some (c.toNat - '0'.toNat)
  else if 'a' ≤ c ∧ c ≤ 'f' then some (c.toNat - 'a'.toNat + 10)
  else none

/-- The bytes of a list of digits, two digits per byte. -/
def decode? : List Char → Option (List UInt8)
  | [] => some []
  | [_] => none
  | high :: low :: rest => do
    let h ← digitValue? high
    let l ← digitValue? low
    let bs ← decode? rest
    return UInt8.ofNat (16 * h + l) :: bs

end Hex

end MachineCode

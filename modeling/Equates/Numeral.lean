/-
Numerals: the two notations that addresses and names are written in.

* `hex n` — the lower-case hexadecimal digits of `n`, without padding;
* `ofDigits? cs` — the number that the decimal digits `cs` denote, if `cs` is a
  nonempty list of ASCII digits.  Leading zeros are allowed; signs and blanks
  are not.
-/
namespace Equates.Numeral

def hex (n : Nat) : String :=
  String.ofList (Nat.toDigits 16 n)

/-- The value of an ASCII digit. -/
def digit? (c : Char) : Option Nat :=
  if c.isDigit then some (c.toNat - '0'.toNat) else none

/-- Reads further digits behind the number `n`. -/
def extend? (n : Nat) : List Char → Option Nat
  | [] => some n
  | c :: cs => do extend? (10 * n + (← digit? c)) cs

def ofDigits? : List Char → Option Nat
  | [] => none
  | cs => extend? 0 cs

end Equates.Numeral

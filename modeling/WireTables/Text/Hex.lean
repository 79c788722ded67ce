/-!
# Hexadecimal text

Digits in both cases, the marked form `0x…`, and the pairs of digits of bytes.
-/

namespace WireTables.Text

/-- The lower-case hexadecimal digits of a number. -/
def hexLower (n : Nat) : String :=
  String.ofList (Nat.toDigits 16 n)

/-- The upper-case hexadecimal digits of a number. -/
def hexUpper (n : Nat) : String :=
  String.ofList ((Nat.toDigits 16 n).map Char.toUpper)

/-- A 64-bit signed number as `0x…`, a negative one by its two's complement. -/
def hexWord (n : Int) : String :=
  "0x" ++ hexLower (n % 0x10000000000000000).toNat

/-- The two digits of a byte. -/
def hexByte (b : UInt8) : String :=
  let digits := hexLower b.toNat
  if b.toNat < 16 then "0" ++ digits else digits

/-- The digits of a byte string. -/
def hexBytes (bytes : List UInt8) : String :=
  String.join (bytes.map hexByte)

/-- The value of a hexadecimal digit of either case. -/
def hexDigit? (c : Char) : Option Nat :=
  if '0' ≤ c && c ≤ '9' then some (c.toNat - '0'.toNat)
  else if 'a' ≤ c && c ≤ 'f' then some (c.toNat - 'a'.toNat + 10)
  else if 'A' ≤ c && c ≤ 'F' then some (c.toNat - 'A'.toNat + 10)
  else none

/-- The number that digits of a base write, most significant first. -/
def ofDigits (base : Nat) (digits : List Nat) : Nat :=
  digits.foldl (fun n d => n * base + d) 0

/-- The number that decimal characters write. -/
def ofDecimal (cs : List Char) : Nat :=
  ofDigits 10 (cs.map fun c => c.toNat - '0'.toNat)

/-- The number that hexadecimal characters write. -/
def ofHex (cs : List Char) : Nat :=
  ofDigits 16 (cs.map fun c => (hexDigit? c).getD 0)

end WireTables.Text

import WasmMachine.Text.Hex

/-! Hexadecimal text of binary floating point numbers, read off their bits.

A finite number is `0x1.` with the fraction in hexadecimal, then `p` and the binary exponent, so the
text is exact. Subnormal numbers are shifted until the leading bit is one. A NaN shows its
significand unless only the quiet bit is set. -/

namespace WasmMachine.HexFloat

/-- The widths of the fields of an interchange format. -/
structure Format where
  exponentBits : Nat
  fractionBits : Nat

def binary32 : Format := ⟨8, 23⟩

def binary64 : Format := ⟨11, 52⟩

namespace Format

variable (f : Format)

def bias : Nat := 1 <<< (f.exponentBits - 1) - 1

def fraction (bits : Nat) : Nat := bits % (1 <<< f.fractionBits)

def exponent (bits : Nat) : Nat := (bits >>> f.fractionBits) % (1 <<< f.exponentBits)

def isNegative (bits : Nat) : Bool := (bits >>> (f.fractionBits + f.exponentBits)) % 2 = 1

end Format

/-- Hexadecimal digits of a number, at most `count` of them, the highest first. -/
def digits : (count n : Nat) → List Char
  | 0, _ => []
  | count + 1, n => digits count (n / 16) ++ [Hex.digit (n % 16)]

/-- The fraction behind the point, without trailing zeros; a fraction of zero has no point. -/
def fractionText (f : Format) (fraction : Nat) : String :=
  let nibbles := (f.fractionBits + 3) / 4
  let aligned := fraction <<< (4 * nibbles - f.fractionBits)
  let shown := ((digits nibbles aligned).reverse.dropWhile (· == '0')).reverse
  if shown.isEmpty then "" else "." ++ String.ofList shown

def exponentText (e : Int) : String := "p" ++ (if e < 0 then "" else "+") ++ toString e

def nanText (f : Format) (fraction : Nat) : String :=
  if fraction = 1 <<< (f.fractionBits - 1) then "nan"
  else "nan:0x" ++ String.ofList ((digits 16 fraction).dropWhile (· == '0'))

def subnormalText (f : Format) (fraction : Nat) : String :=
  let zeros := f.fractionBits - 1 - Nat.log2 fraction
  let shifted := f.fraction (fraction <<< (zeros + 1))
  "0x1" ++ fractionText f shifted ++ exponentText (-(f.bias : Int) - zeros)

def magnitudeText (f : Format) (bits : Nat) : String :=
  let fraction := f.fraction bits
  let exponent := f.exponent bits
  if exponent = 1 <<< f.exponentBits - 1 then
    if fraction = 0 then "inf" else nanText f fraction
  else if exponent = 0 then
    if fraction = 0 then "0x0p+0" else subnormalText f fraction
  else "0x1" ++ fractionText f fraction ++ exponentText ((exponent : Int) - f.bias)

/-- The text of the number with the given bits. -/
def text (f : Format) (bits : Nat) : String :=
  (if f.isNegative bits then "-" else "") ++ magnitudeText f bits

end WasmMachine.HexFloat

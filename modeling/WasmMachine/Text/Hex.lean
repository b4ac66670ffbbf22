/-! Hexadecimal text of bytes, two lower-case digits for each byte. -/

namespace WasmMachine.Hex

/-- The lower-case digit for a number below 16. -/
def digit (n : Nat) : Char := Nat.digitChar n

def byteDigits (b : UInt8) : List Char := [digit (b.toNat / 16), digit (b.toNat % 16)]

/-- Bytes as text, without separators. -/
def encode (bytes : List UInt8) : String := String.ofList (bytes.flatMap byteDigits)

/-- One byte as it stands in messages: `0x` and two digits. -/
def byte (b : UInt8) : String := "0x" ++ String.ofList (byteDigits b)

def digit? (c : Char) : Option Nat :=
  if '0' ≤ c ∧ c ≤ '9' then some (c.toNat - '0'.toNat)
  else if 'a' ≤ c ∧ c ≤ 'f' then some (c.toNat - 'a'.toNat + 10)
  else if 'A' ≤ c ∧ c ≤ 'F' then some (c.toNat - 'A'.toNat + 10)
  else none

def decodeDigits : List Char → Option (List UInt8)
  | [] => some []
  | [_] => none
  | high :: low :: rest => do
    let high ← digit? high
    let low ← digit? low
    let bytes ← decodeDigits rest
    return (16 * high + low).toUInt8 :: bytes

/-- The bytes that a text of digit pairs stands for. -/
def decode? (text : String) : Option (List UInt8) := decodeDigits text.toList

end WasmMachine.Hex

import WasmMachine.Binary.Cursor

/-! LEB128: integers as groups of seven bits, the lowest group first. Every byte but the last has
its top bit set. A 32-bit integer has at most five groups. Writing gives the shortest form; reading
also takes longer ones, up to five bytes. -/

namespace WasmMachine.Leb128

/-- The most groups that a 32-bit integer may take. -/
def maxGroups : Nat := 5

/-- The groups of a natural number, at most as many as allowed. -/
def unsignedGroups : Nat → Nat → List UInt8
  | 0, _ => []
  | allowed + 1, n =>
    if n < 128 then [n.toUInt8] else (n % 128 + 128).toUInt8 :: unsignedGroups allowed (n / 128)

/-- The groups of an integer in two's complement. The last group's bit 6 is the sign, so the groups
end once the rest of the number is that bit repeated. -/
def signedGroups : Nat → Int → List UInt8
  | 0, _ => []
  | allowed + 1, n =>
    let low := (n % 128).toNat
    let high := n / 128
    if (high = 0 ∧ low < 64) ∨ (high = -1 ∧ 64 ≤ low) then [low.toUInt8]
    else (low + 128).toUInt8 :: signedGroups allowed high

def encodeU32 (n : UInt32) : List UInt8 := unsignedGroups maxGroups n.toNat

def encodeS32 (n : Int32) : List UInt8 := signedGroups maxGroups n.toInt

variable {σ : Type} [Cursor σ]

/-- Reads groups onto what was read so far; `weight` is that of the next group. -/
def readUnsigned : (allowed weight value : Nat) → Reader σ UInt32
  | 0, _, _ => throw .integerOverflow
  | allowed + 1, weight, value => do
    let b ← Reader.byte
    let value := value + b.toNat % 128 * weight
    if b.toNat < 128 then
      if value < UInt32.size then return UInt32.ofNat value else throw .integerOverflow
    else readUnsigned allowed (weight * 128) value

/-- Reads groups of a two's complement number. Bit 6 of the last group extends the sign, unless the
groups already reach past bit 31; what lies above bit 31 is dropped. -/
def readSigned : (allowed weight value : Nat) → Reader σ Int32
  | 0, _, _ => throw .integerOverflow
  | allowed + 1, weight, value => do
    let b ← Reader.byte
    let value := value + b.toNat % 128 * weight
    let weight := weight * 128
    if b.toNat < 128 then
      if weight < UInt32.size ∧ 64 ≤ b.toNat then return Int32.ofInt ((value : Int) - weight)
      else return Int32.ofInt value
    else readSigned allowed weight value

def readU32 : Reader σ UInt32 := readUnsigned maxGroups 1 0

def readS32 : Reader σ Int32 := readSigned maxGroups 1 0

end WasmMachine.Leb128

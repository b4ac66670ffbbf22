import WasmMachine.Binary.Bytes
import WasmMachine.Machine.Trap

/-! Linear memory: bytes in pages of 64 KiB, zero at first, which never grow. Every access is checked
against the length; one that does not fit changes nothing. -/

namespace WasmMachine

structure Memory where
  bytes : Array UInt8
  limits : Limits
  deriving DecidableEq, Repr

namespace Memory

def pageSize : Nat := 65536

/-- As many pages as 32-bit addresses reach. -/
def maxPages : UInt32 := 65536

def checkLimits (limits : Limits) : Except Trap Unit := do
  if maxPages < limits.min then throw (.memory (.aboveAddressSpace limits.min maxPages))
  if let some max := limits.max then
    if max < limits.min then throw (.memory (.aboveMaximum limits.min max))

/-- A memory of the smallest allowed size. -/
def create (limits : Limits) : Except Trap Memory :=
  match checkLimits limits with
  | .ok () => .ok ⟨Array.replicate (limits.min.toNat * pageSize) 0, limits⟩
  | .error e => .error e

def size (m : Memory) : Nat := m.bytes.size

def pages (m : Memory) : Nat := m.size / pageSize

/-- Whether so many bytes from the address on lie in the memory. The end is computed exactly. -/
def inBounds (m : Memory) (address : UInt64) (size : Nat) : Bool := address.toNat + size ≤ m.size

def read (m : Memory) (address : UInt64) (size : Nat) : Except Trap (List UInt8) :=
  if m.inBounds address size then .ok (m.bytes.extract address.toNat (address.toNat + size)).toList
  else .error (.memoryOutOfBounds address size)

def write (m : Memory) (address : UInt64) (new : List UInt8) : Except Trap Memory :=
  if m.inBounds address new.length then .ok ⟨Bytes.overlay m.bytes address.toNat new, m.limits⟩
  else .error (.memoryOutOfBounds address new.length)

/-- The integer whose bytes these are, the lowest first. -/
def littleEndian : List UInt8 → Nat
  | [] => 0
  | b :: rest => b.toNat + 256 * littleEndian rest

/-- The four bytes of an integer, the lowest first. -/
def int32Bytes (v : Int32) : List UInt8 :=
  let n := v.toUInt32.toNat
  [n.toUInt8, (n / 256).toUInt8, (n / 65536).toUInt8, (n / 16777216).toUInt8]

def readI32 (m : Memory) (address : UInt64) : Except Trap Int32 := do
  let bytes ← m.read address 4
  return (UInt32.ofNat (littleEndian bytes)).toInt32

def writeI32 (m : Memory) (address : UInt64) (v : Int32) : Except Trap Memory :=
  m.write address (int32Bytes v)

/-- Where an access goes: the base read as unsigned, plus the offset. -/
def effectiveAddress (base : Int32) (offset : UInt32) : UInt64 := base.toUInt32.toUInt64 + offset.toUInt64

end Memory

end WasmMachine

import WasmMachine.Binary.ByteStack
import WasmMachine.Binary.Leb128
import WasmMachine.Machine.Trap
import WasmMachine.Machine.Value

/-! The operand stack. It holds its operands as signed LEB128 integers in a reversed byte cursor, so
only 32-bit integers can stand on it and small ones take less of its capacity. -/

namespace WasmMachine

structure OperandStack where
  bytes : ByteStack := .empty
  /-- The most bytes that pushing may lead to; none is no bound. -/
  capacity : Option Nat := none
  deriving DecidableEq, Repr

/-- A computation on the operand stack. A failed one keeps what it has popped. -/
abbrev StackM (α : Type) := EStateM Trap OperandStack α

namespace OperandStack

def size (s : OperandStack) : Nat := s.bytes.size

def isEmpty (s : OperandStack) : Bool := s.size = 0

def clear (s : OperandStack) : OperandStack := { s with bytes := .empty }

/-- Whether so many more bytes fit. -/
def hasRoom (s : OperandStack) (more : Nat) : Bool :=
  match s.capacity with
  | some capacity => s.size + more ≤ capacity
  | none => true

def pushI32 (v : Int32) : StackM Unit := fun s =>
  let encoded := Leb128.encodeS32 v
  if s.hasRoom encoded.length then .ok () { s with bytes := s.bytes.write encoded }
  else .error .stackOverflow s

/-- Whatever goes wrong with reading an integer is an underflow. -/
def popI32 : StackM Int32 := fun s =>
  match Leb128.readS32 s.bytes with
  | .ok v bytes => .ok v { s with bytes }
  | .error _ bytes => .error .stackUnderflow { s with bytes }

def push : Value → StackM Unit
  | .i32 v => pushI32 v
  | other => throw (.unsupported (.operandType other.type))

def popTyped : ValueType → StackM Value
  | .i32 => return .i32 (← popI32)
  | other => throw (.unsupported (.operandType other))

/-- A condition is any integer, and zero is false. -/
def popCondition : StackM Bool := return (← popI32) != 0

/-- Selects a label by the popped index, read as unsigned; indices beyond the labels take the
default. -/
def popLabel (labels : List UInt32) (default : UInt32) : StackM UInt32 := do
  let index ← popI32
  return labels[index.toUInt32.toNat]?.getD default

/-- Pops operands, the top one first, until the stack is empty or something else is found. -/
def drain (s : OperandStack) : (fuel : Nat) → List Int32
  | 0 => []
  | fuel + 1 =>
    match popI32 s with
    | .ok v s => v :: drain s fuel
    | .error _ _ => []

/-- The operands, the top one first. -/
def operands (s : OperandStack) : List Int32 := s.drain s.size

end OperandStack

end WasmMachine

import WasmMachine.Instruction.Basic

/-! The bytes of instructions. An instruction is its opcode, its immediates and its nested
sequences; a sequence is closed by `end`, or by `else` before the second branch of an `if`. -/

namespace WasmMachine

/-- The byte that closes a sequence. -/
def Code.endByte : UInt8 := 0x0b

/-- The byte between the branches of an `if`. -/
def Code.elseByte : UInt8 := 0x05

def BinaryOp.opcode : BinaryOp → UInt8
  | ltS => 0x48
  | geS => 0x4e
  | geU => 0x4f
  | add => 0x6a
  | remS => 0x6f

def Op.opcode : Op → UInt8
  | unreachable => 0x00
  | nop => 0x01
  | br _ => 0x0c
  | brIf _ => 0x0d
  | brTable _ _ => 0x0e
  | ret => 0x0f
  | call _ => 0x10
  | callIndirect _ _ => 0x11
  | localGet _ => 0x20
  | localSet _ => 0x21
  | localTee _ => 0x22
  | globalGet _ => 0x23
  | globalSet _ => 0x24
  | load _ => 0x28
  | store _ => 0x36
  | const _ => 0x41
  | eqz => 0x45
  | binary op => op.opcode

def Instruction.opcode : Instruction → UInt8
  | .op o => o.opcode
  | .block _ _ => 0x02
  | .loop _ _ => 0x03
  | .ifThen _ _ | .ifElse _ _ _ => 0x04

def BlockType.toByte : BlockType → UInt8
  | empty => 0x40
  | value t => t.toByte

def MemArg.units (arg : MemArg) : List (List UInt8) :=
  [Leb128.encodeU32 arg.align, Leb128.encodeU32 arg.offset]

/-- The immediates of an instruction, one unit for each integer. -/
def Op.immediateUnits : Op → List (List UInt8)
  | br label | brIf label => [Leb128.encodeU32 label]
  | brTable labels default =>
    Counted.units (fun label => [Leb128.encodeU32 label]) labels ++ [Leb128.encodeU32 default]
  | callIndirect type table => [Leb128.encodeU32 type, Leb128.encodeU32 table]
  | call index | localGet index | localSet index | localTee index | globalGet index
  | globalSet index => [Leb128.encodeU32 index]
  | load arg | store arg => arg.units
  | const value => [Leb128.encodeS32 value]
  | unreachable | nop | ret | eqz | binary _ => []

namespace Code

/-- The units of a sequence, without the byte that closes it. -/
def bodyUnits : Code → List (List UInt8)
  | nil => []
  | op o rest => [o.opcode] :: (o.immediateUnits ++ rest.bodyUnits)
  | block t body rest => [0x02] :: [t.toByte] :: (body.bodyUnits ++ [endByte] :: rest.bodyUnits)
  | loop t body rest => [0x03] :: [t.toByte] :: (body.bodyUnits ++ [endByte] :: rest.bodyUnits)
  | ifThen t body rest => [0x04] :: [t.toByte] :: (body.bodyUnits ++ [endByte] :: rest.bodyUnits)
  | ifElse t body orElse rest =>
    [0x04] :: [t.toByte] ::
      (body.bodyUnits ++ [elseByte] :: (orElse.bodyUnits ++ [endByte] :: rest.bodyUnits))

/-- The units of an expression: a sequence and the byte that closes it. -/
def units (code : Code) : List (List UInt8) := code.bodyUnits ++ [[endByte]]

/-- The bytes of an expression. -/
def encode (code : Code) : List UInt8 := code.units.flatten

end Code

end WasmMachine

import WasmMachine.Instruction.Writer

/-! Reading instructions from any cursor. Sequences may be nested 256 deep. Every instruction takes
at least one byte, so the number of bytes left bounds the recursion. -/

namespace WasmMachine

/-- The deepest nesting of structured instructions that is read. -/
def Code.maxDepth : Nat := 256

/-- Which byte closed a sequence. -/
inductive Terminator where
  | endOf
  | elseOf
  deriving DecidableEq, Repr

variable {σ : Type} [Cursor σ]

def MemArg.read : Reader σ MemArg := do
  let align ← Leb128.readU32
  let offset ← Leb128.readU32
  return ⟨align, offset⟩

def BlockType.read : Reader σ BlockType := do
  let b ← Reader.byte
  if b = 0x40 then return .empty
  else
    match ValueType.ofByte? b with
    | some t => return .value t
    | none => throw (.invalidBlockType b)

/-- The immediates of an instruction without nested sequences. -/
def Op.read (opcode : UInt8) : Reader σ Op :=
  match opcode with
  | 0x00 => return .unreachable
  | 0x01 => return .nop
  | 0x0c => return .br (← Leb128.readU32)
  | 0x0d => return .brIf (← Leb128.readU32)
  | 0x0e => do
    let labels ← Counted.read Leb128.readU32
    let default ← Leb128.readU32
    return .brTable labels default
  | 0x0f => return .ret
  | 0x10 => return .call (← Leb128.readU32)
  | 0x11 => do
    let type ← Leb128.readU32
    let table ← Leb128.readU32
    return .callIndirect type table
  | 0x20 => return .localGet (← Leb128.readU32)
  | 0x21 => return .localSet (← Leb128.readU32)
  | 0x22 => return .localTee (← Leb128.readU32)
  | 0x23 => return .globalGet (← Leb128.readU32)
  | 0x24 => return .globalSet (← Leb128.readU32)
  | 0x28 => return .load (← MemArg.read)
  | 0x36 => return .store (← MemArg.read)
  | 0x41 => return .const (← Leb128.readS32)
  | 0x45 => return .eqz
  | 0x48 => return .binary .ltS
  | 0x4e => return .binary .geS
  | 0x4f => return .binary .geU
  | 0x6a => return .binary .add
  | 0x6f => return .binary .remS
  | _ => throw (.invalidOpcode opcode)

/-- A sequence that has to be closed by `end`. -/
def Code.closed (sequence : Reader σ (Code × Terminator)) : Reader σ Code := do
  match ← sequence with
  | (code, .endOf) => return code
  | (_, .elseOf) => throw .unexpectedElse

/-- What follows an opcode. `nested` reads a sequence one level deeper. -/
def Instruction.readWith (nested : Reader σ (Code × Terminator)) (depth : Nat) (opcode : UInt8) :
    Reader σ Instruction := do
  if opcode = 0x02 ∨ opcode = 0x03 ∨ opcode = 0x04 then
    if Code.maxDepth ≤ depth then throw (.nestingTooDeep Code.maxDepth)
    let type ← BlockType.read
    if opcode = 0x02 then return .block type (← Code.closed nested)
    else if opcode = 0x03 then return .loop type (← Code.closed nested)
    else
      match ← nested with
      | (body, .endOf) => return .ifThen type body
      | (body, .elseOf) => return .ifElse type body (← Code.closed nested)
  else return .op (← Op.read opcode)

/-- Instructions up to and including the byte that closes them. `fuel` is at least the number of
bytes left, so running out of it means that no byte is left either. -/
def Code.readFrom : (fuel depth : Nat) → Reader σ (Code × Terminator)
  | 0, _ => throw .unexpectedEof
  | fuel + 1, depth => do
    let opcode ← Reader.byte
    if opcode = endByte then return (.nil, .endOf)
    else if opcode = elseByte then return (.nil, .elseOf)
    else
      let first ← Instruction.readWith (readFrom fuel (depth + 1)) depth opcode
      let (rest, terminator) ← readFrom fuel depth
      return (.cons first rest, terminator)

/-- A sequence closed by `end` or `else`. -/
def Code.readSequence : Reader σ (Code × Terminator) := do
  let fuel ← Reader.remaining
  readFrom fuel 0

/-- An expression: a sequence closed by `end`. -/
def Code.read : Reader σ Code := closed readSequence

/-- One instruction whose opcode has been read. -/
def Instruction.read (opcode : UInt8) : Reader σ Instruction := do
  let fuel ← Reader.remaining
  readWith (Code.readFrom fuel 1) 0 opcode

end WasmMachine

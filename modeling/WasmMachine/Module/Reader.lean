import WasmMachine.Instruction.Reader
import WasmMachine.Module.Writer

/-! Reading modules. After the header the input is a list of sections up to its end. The contents of
a section are cut out by the size that the section declares, and have to be read completely; so no
section can read into the next one. -/

namespace WasmMachine

variable {σ : Type} [Cursor σ]

/-- Fails as a pure check does. -/
def Reader.lift {α : Type} (result : Except DecodeError α) : Reader σ α := fun c =>
  match result with
  | .ok a => .ok a c
  | .error e => .error e c

def ValueType.read : Reader σ ValueType := do
  let b ← Reader.byte
  Reader.lift (ofByte b)

def RefType.read : Reader σ RefType := do
  let b ← Reader.byte
  Reader.lift (ofByte b)

def FunctionType.read : Reader σ FunctionType := do
  let tag ← Reader.byte
  if tag ≠ 0x60 then throw (.invalidFuncTypeTag tag)
  let params ← Counted.read ValueType.read
  let results ← Counted.read ValueType.read
  return ⟨params, results⟩

def Limits.read : Reader σ Limits := do
  match ← Reader.byte with
  | 0x00 => return ⟨← Leb128.readU32, none⟩
  | 0x01 => do
    let min ← Leb128.readU32
    let max ← Leb128.readU32
    return ⟨min, some max⟩
  | tag => throw (.invalidLimits tag)

def TableType.read : Reader σ TableType := do
  let refType ← RefType.read
  let limits ← Limits.read
  return ⟨refType, limits⟩

def GlobalType.read : Reader σ GlobalType := do
  let valueType ← ValueType.read
  match ← Reader.byte with
  | 0x00 => return ⟨valueType, false⟩
  | 0x01 => return ⟨valueType, true⟩
  | b => throw (.invalidMutability b)

def ImportDesc.read : Reader σ ImportDesc := do
  let tag ← Reader.byte
  match EntityKind.ofByte? tag with
  | some .function => return .function (← Leb128.readU32)
  | some .table => return .table (← TableType.read)
  | some .memory => return .memory (← Limits.read)
  | some .global => return .global (← GlobalType.read)
  | none => throw (.invalidImportKind tag)

def Import.read : Reader σ Import := do
  let source ← Counted.readName
  let name ← Counted.readName
  let desc ← ImportDesc.read
  return ⟨source, name, desc⟩

/-- The index is read before the kind is looked at. -/
def Export.read : Reader σ Export := do
  let name ← Counted.readName
  let tag ← Reader.byte
  let index ← Leb128.readU32
  match EntityKind.ofByte? tag with
  | some kind => return ⟨name, kind, index⟩
  | none => throw (.invalidExportKind tag)

def GlobalDecl.read : Reader σ GlobalDecl := do
  let type ← GlobalType.read
  let init ← Code.read
  return ⟨type, init⟩

def LocalGroup.read : Reader σ LocalGroup := do
  let count ← Leb128.readU32
  let type ← ValueType.read
  return ⟨count, type⟩

/-- The bytes of a function body, read on their own. -/
def FunctionBody.readContents : Reader (List UInt8) FunctionBody := do
  let locals ← Counted.read LocalGroup.read
  let code ← Code.read
  let left ← Reader.remaining
  if left ≠ 0 then throw (.trailingBytes 10 left)
  return ⟨locals, code⟩

/-- Reads from bytes of its own, which have been cut out of the input. -/
def Reader.within {α : Type} (contents : Reader (List UInt8) α) (bytes : List UInt8) : Reader σ α :=
  fun c =>
    match contents bytes with
    | .ok a _ => .ok a c
    | .error e _ => .error e c

def FunctionBody.read : Reader σ FunctionBody := do
  let size ← Leb128.readU32
  let left ← Reader.remaining
  if left < size.toNat then throw .unexpectedEof
  let bytes ← Reader.bytes size.toNat
  Reader.within readContents bytes

namespace Element

def readMode (flags : UInt32) : Reader σ ElementMode := do
  if inactiveBit flags then
    if explicitBit flags then return .declarative else return .passive
  else
    let table ← if explicitBit flags then Leb128.readU32 else pure 0
    let offset ← Code.read
    return .active table offset

def readKind (flags : UInt32) : Reader σ RefType := do
  if namesKind flags then
    if expressionBit flags then RefType.read
    else
      match ← Reader.byte with
      | 0x00 => return .funcref
      | kind => throw (.invalidElementKind kind)
  else return .funcref

def readItems (flags : UInt32) : Reader σ ElementItems := do
  if expressionBit flags then return .expressions (← Counted.read Code.read)
  else return .functions (← Counted.read Leb128.readU32)

def read : Reader σ Element := do
  let flags ← Leb128.readU32
  if 7 < flags then throw (.invalidElementFlags flags)
  let mode ← readMode flags
  let refType ← readKind flags
  let items ← readItems flags
  return ⟨flags, refType, mode, items⟩

end Element

def DataMode.read : Reader σ DataMode := do
  match ← Leb128.readU32 with
  | 0 => return .active (← Code.read)
  | 1 => return .passive
  | 2 => do
    let memory ← Leb128.readU32
    let offset ← Code.read
    return .activeExplicit memory offset
  | flags => throw (.invalidDataFlags flags)

def DataSegment.read : Reader σ DataSegment := do
  let mode ← DataMode.read
  let bytes ← Counted.readBytes
  return ⟨mode, bytes⟩

namespace Section

/-- The contents of the section with the given id. -/
def readContents (id : UInt8) : Reader σ Section :=
  match id with
  | 0 => do
    let name ← Counted.readName
    let left ← Reader.remaining
    let bytes ← Reader.bytes left
    return .custom name bytes
  | 1 => return .types (← Counted.read FunctionType.read)
  | 2 => return .imports (← Counted.read Import.read)
  | 3 => return .functions (← Counted.read Leb128.readU32)
  | 4 => return .tables (← Counted.read TableType.read)
  | 5 => return .memories (← Counted.read Limits.read)
  | 6 => return .globals (← Counted.read GlobalDecl.read)
  | 7 => return .exports (← Counted.read Export.read)
  | 8 => return .start (← Leb128.readU32)
  | 9 => return .elements (← Counted.read Element.read)
  | 10 => return .bodies (← Counted.read FunctionBody.read)
  | 11 => return .data (← Counted.read DataSegment.read)
  | 12 => return .dataCount (← Leb128.readU32)
  | _ => throw (.invalidSectionId id)

/-- The contents of a section and nothing after them. -/
def readWhole (id : UInt8) : Reader (List UInt8) Section := do
  let contents ← readContents id
  let left ← Reader.remaining
  if left ≠ 0 then throw (.trailingBytes id left)
  return contents

/-- The id and the size of a section that the input is long enough for. -/
def readHeader : Reader σ (UInt8 × UInt32) := do
  let id ← Reader.byte
  let size ← Leb128.readU32
  let left ← Reader.remaining
  if left < size.toNat then throw (.sectionTooShort id size left)
  return (id, size)

/-- The contents that belong to a header. -/
def readBody (id : UInt8) (size : UInt32) : Reader σ Section := do
  let bytes ← Reader.bytes size.toNat
  Reader.within (readWhole id) bytes

def read : Reader σ Section := do
  let (id, size) ← readHeader
  readBody id size

end Section

namespace Module

/-- The magic number, which has to be the standard one, and the version, which may be any. -/
def readPreamble : Reader σ (Word × Word) := do
  let magic ← Reader.exactly 4
  if magic ≠ standardMagic.toList then throw (.invalidMagic magic)
  let version ← Reader.exactly 4
  match Word.ofList? version with
  | some version => return (standardMagic, version)
  | none => throw .unexpectedEof

/-- Sections up to the end of the input. Each takes at least one byte, so `fuel` is never short when
it is the number of bytes left. -/
def readSections : (fuel : Nat) → Reader σ (List Section)
  | 0 => return []
  | fuel + 1 => do
    if ← Reader.atEnd then return []
    else
      let first ← Section.read
      let others ← readSections fuel
      return first :: others

/-- A module up to the end of the input. -/
def load : Reader σ Module := do
  let (magic, version) ← readPreamble
  let fuel ← Reader.remaining
  let sections ← readSections fuel
  return ⟨magic, version, sections⟩

/-- The module that the bytes are. -/
def decode (bytes : List UInt8) : Except DecodeError Module :=
  match load bytes with
  | .ok m _ => .ok m
  | .error e _ => .error e

end Module

end WasmMachine

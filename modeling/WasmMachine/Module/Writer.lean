import WasmMachine.Instruction.Writer
import WasmMachine.Module.Basic
import WasmMachine.Binary.Buffer

/-! The bytes of modules. Sections are written in the order in which they stand, each as its id, its
size and its contents. A custom section has no written form, and neither has an element segment
whose flags contradict its mode or its items. -/

namespace WasmMachine

inductive EncodeError where
  | customSection (name : String)
  | invalidElementFlags (flags : UInt32)
  deriving DecidableEq, Repr

def EncodeError.message : EncodeError → String
  | customSection name => "encoding not supported: custom section '" ++ name ++ "'"
  | invalidElementFlags flags => s!"invalid element segment flags: {flags.toNat}"

/-- The name of the kind of error, for reports that are read by programs. -/
def EncodeError.kind : EncodeError → String
  | customSection _ => "Unsupported"
  | invalidElementFlags _ => "InvalidElementFlags"

def FunctionType.encode (t : FunctionType) : List UInt8 :=
  0x60 :: (Counted.encode (fun p => [ValueType.toByte p]) t.params ++
    Counted.encode (fun r => [ValueType.toByte r]) t.results)

def Limits.encode (l : Limits) : List UInt8 :=
  match l.max with
  | none => 0x00 :: Leb128.encodeU32 l.min
  | some max => 0x01 :: (Leb128.encodeU32 l.min ++ Leb128.encodeU32 max)

def TableType.encode (t : TableType) : List UInt8 := t.refType.toByte :: t.limits.encode

def GlobalType.encode (t : GlobalType) : List UInt8 :=
  [t.valueType.toByte, if t.isMutable then 0x01 else 0x00]

def ImportDesc.encodeDetails : ImportDesc → List UInt8
  | function type => Leb128.encodeU32 type
  | table type => type.encode
  | memory limits => limits.encode
  | global type => type.encode

def ImportDesc.encode (d : ImportDesc) : List UInt8 := d.kind.toByte :: d.encodeDetails

def Import.encode (i : Import) : List UInt8 :=
  Counted.encodeName i.source ++ Counted.encodeName i.name ++ i.desc.encode

def Export.encode (e : Export) : List UInt8 :=
  Counted.encodeName e.name ++ e.kind.toByte :: Leb128.encodeU32 e.index

def GlobalDecl.encode (g : GlobalDecl) : List UInt8 := g.type.encode ++ g.init.encode

def LocalGroup.encode (l : LocalGroup) : List UInt8 := Leb128.encodeU32 l.count ++ [l.type.toByte]

def FunctionBody.encode (f : FunctionBody) : List UInt8 :=
  Counted.encodeBytes (Counted.encode LocalGroup.encode f.locals ++ f.code.encode)

namespace Element

/-- Bit 0 of the flags: the segment is not active. -/
def inactiveBit (flags : UInt32) : Bool := flags &&& 1 != 0

/-- Bit 1 of the flags: the table is named, or the segment is declarative. -/
def explicitBit (flags : UInt32) : Bool := flags &&& 2 != 0

/-- Bit 2 of the flags: the items are expressions. -/
def expressionBit (flags : UInt32) : Bool := flags &&& 4 != 0

/-- The two simplest forms leave out the kind of the items. -/
def namesKind (flags : UInt32) : Bool := inactiveBit flags || explicitBit flags

def modeAgrees (flags : UInt32) : ElementMode → Bool
  | .active table _ => !inactiveBit flags && (explicitBit flags || table == 0)
  | .passive => inactiveBit flags && !explicitBit flags
  | .declarative => inactiveBit flags && explicitBit flags

def itemsAgree (flags : UInt32) : ElementItems → Bool
  | .functions _ => !expressionBit flags
  | .expressions _ => expressionBit flags

/-- The flags are one of the eight forms and agree with the mode and the items. -/
def flagsAgree (e : Element) : Bool :=
  decide (e.flags ≤ 7) && modeAgrees e.flags e.mode && itemsAgree e.flags e.items

def check (e : Element) : Except EncodeError Unit :=
  if e.flagsAgree then .ok () else .error (.invalidElementFlags e.flags)

def encodeMode (flags : UInt32) : ElementMode → List UInt8
  | .active table offset =>
    (if explicitBit flags then Leb128.encodeU32 table else []) ++ offset.encode
  | .passive | .declarative => []

def encodeKind (e : Element) : List UInt8 :=
  if namesKind e.flags then
    match e.items with
    | .functions _ => [0x00]
    | .expressions _ => [e.refType.toByte]
  else []

def encodeItems : ElementItems → List UInt8
  | .functions indices => Counted.encode Leb128.encodeU32 indices
  | .expressions codes => Counted.encode Code.encode codes

def encode (e : Element) : List UInt8 :=
  Leb128.encodeU32 e.flags ++ encodeMode e.flags e.mode ++ e.encodeKind ++ encodeItems e.items

end Element

def DataMode.encode : DataMode → List UInt8
  | active offset => Leb128.encodeU32 0 ++ offset.encode
  | passive => Leb128.encodeU32 1
  | activeExplicit memory offset => Leb128.encodeU32 2 ++ Leb128.encodeU32 memory ++ offset.encode

def DataSegment.encode (d : DataSegment) : List UInt8 := d.mode.encode ++ Counted.encodeBytes d.bytes

namespace Section

/-- The contents of a section, without its id and size. -/
def encodeContents : Section → Except EncodeError (List UInt8)
  | custom name _ => .error (.customSection name)
  | types items => .ok (Counted.encode FunctionType.encode items)
  | imports items => .ok (Counted.encode Import.encode items)
  | functions items => .ok (Counted.encode Leb128.encodeU32 items)
  | tables items => .ok (Counted.encode TableType.encode items)
  | memories items => .ok (Counted.encode Limits.encode items)
  | globals items => .ok (Counted.encode GlobalDecl.encode items)
  | exports items => .ok (Counted.encode Export.encode items)
  | start function => .ok (Leb128.encodeU32 function)
  | elements items => do
    items.forM Element.check
    return Counted.encode Element.encode items
  | bodies items => .ok (Counted.encode FunctionBody.encode items)
  | data items => .ok (Counted.encode DataSegment.encode items)
  | dataCount count => .ok (Leb128.encodeU32 count)

def encode (s : Section) : Except EncodeError (List UInt8) := do
  let contents ← s.encodeContents
  return s.id :: Counted.encodeBytes contents

end Section

namespace Module

def encodeSections : List Section → Except EncodeError (List UInt8)
  | [] => .ok []
  | s :: others => do
    let first ← s.encode
    let rest ← encodeSections others
    return first ++ rest

/-- The bytes of a module, or the error of the first section that has no written form. -/
def encode (m : Module) : Except EncodeError (List UInt8) := do
  let sections ← encodeSections m.sections
  return m.magic.toList ++ m.version.toList ++ sections

/-- Writes the module at the position of a buffer. A module without a written form leaves the
buffer as it was. -/
def store (m : Module) : EStateM EncodeError Buffer Unit := fun b =>
  match m.encode with
  | .ok bytes => .ok () (b.write bytes)
  | .error e => .error e b

end Module

end WasmMachine

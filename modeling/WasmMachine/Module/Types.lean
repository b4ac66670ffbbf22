import WasmMachine.Binary.Counted

/-! The types of the module format: value and reference types, signatures, limits and the types of
tables and globals, with their bytes and their texts. -/

namespace WasmMachine

inductive ValueType where
  | i32 | i64 | f32 | f64
  deriving DecidableEq, Repr

namespace ValueType

def toByte : ValueType → UInt8
  | i32 => 0x7f
  | i64 => 0x7e
  | f32 => 0x7d
  | f64 => 0x7c

def ofByte? : UInt8 → Option ValueType
  | 0x7f => some i32
  | 0x7e => some i64
  | 0x7d => some f32
  | 0x7c => some f64
  | _ => none

def text : ValueType → String
  | i32 => "i32"
  | i64 => "i64"
  | f32 => "f32"
  | f64 => "f64"

def ofByte (b : UInt8) : Except DecodeError ValueType :=
  match ofByte? b with
  | some t => .ok t
  | none => .error (.invalidValueType b)

end ValueType

inductive RefType where
  | funcref | externref
  deriving DecidableEq, Repr

namespace RefType

def toByte : RefType → UInt8
  | funcref => 0x70
  | externref => 0x6f

def ofByte : UInt8 → Except DecodeError RefType
  | 0x70 => .ok funcref
  | 0x6f => .ok externref
  | b => .error (.invalidRefType b)

def text : RefType → String
  | funcref => "funcref"
  | externref => "externref"

/-- The name of the type where the contents of a table are shown. -/
def label : RefType → String
  | funcref => "FuncRef"
  | externref => "ExternRef"

end RefType

/-- A signature. -/
structure FunctionType where
  params : List ValueType
  results : List ValueType
  deriving DecidableEq, Repr

namespace FunctionType

/-- The result that a call gives; later ones are never produced. -/
def result (t : FunctionType) : Option ValueType := t.results.head?

def joined (types : List ValueType) : String := String.intercalate ", " (types.map ValueType.text)

/-- `(i32, i32) -> i32`; no result reads `nil`, and several stand in brackets. -/
def text (t : FunctionType) : String :=
  let results :=
    match t.results with
    | [] => "nil"
    | [single] => single.text
    | several => "(" ++ joined several ++ ")"
  "(" ++ joined t.params ++ ") -> " ++ results

end FunctionType

structure Limits where
  min : UInt32
  max : Option UInt32
  deriving DecidableEq, Repr

def Limits.text (l : Limits) : String :=
  match l.max with
  | some max => s!"min = {l.min.toNat}, max = {max.toNat}"
  | none => s!"min = {l.min.toNat}"

structure TableType where
  refType : RefType
  limits : Limits
  deriving DecidableEq, Repr

structure GlobalType where
  valueType : ValueType
  isMutable : Bool
  deriving DecidableEq, Repr

def GlobalType.text (t : GlobalType) : String :=
  if t.isMutable then "(mut " ++ t.valueType.text ++ ")" else t.valueType.text

/-- What can be imported and exported. -/
inductive EntityKind where
  | function | table | memory | global
  deriving DecidableEq, Repr

namespace EntityKind

def toByte : EntityKind → UInt8
  | function => 0x00
  | table => 0x01
  | memory => 0x02
  | global => 0x03

def ofByte? : UInt8 → Option EntityKind
  | 0x00 => some function
  | 0x01 => some table
  | 0x02 => some memory
  | 0x03 => some global
  | _ => none

def text : EntityKind → String
  | function => "function"
  | table => "table"
  | memory => "memory"
  | global => "global"

/-- The name of the kind where an export is shown. -/
def label : EntityKind → String
  | function => "Function"
  | table => "Table"
  | memory => "Memory"
  | global => "Global"

end EntityKind

end WasmMachine

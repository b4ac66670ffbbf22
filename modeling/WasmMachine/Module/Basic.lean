import WasmMachine.Instruction.Basic

/-! A module as the binary format gives it: a header and sections in the order in which they stand.
Sections may be missing, repeated or out of order; where one section of a kind is asked for, it is
the first. -/

namespace WasmMachine

/-- Four bytes, as the header has them. -/
structure Word where
  b0 : UInt8
  b1 : UInt8
  b2 : UInt8
  b3 : UInt8
  deriving DecidableEq, Repr

namespace Word

def toList (w : Word) : List UInt8 := [w.b0, w.b1, w.b2, w.b3]

def ofList? : List UInt8 → Option Word
  | [b0, b1, b2, b3] => some ⟨b0, b1, b2, b3⟩
  | _ => none

end Word

inductive ImportDesc where
  | function (type : UInt32)
  | table (type : TableType)
  | memory (limits : Limits)
  | global (type : GlobalType)
  deriving DecidableEq, Repr

def ImportDesc.kind : ImportDesc → EntityKind
  | function _ => .function
  | table _ => .table
  | memory _ => .memory
  | global _ => .global

structure Import where
  source : String
  name : String
  desc : ImportDesc
  deriving DecidableEq, Repr

structure Export where
  name : String
  kind : EntityKind
  index : UInt32
  deriving DecidableEq, Repr

structure GlobalDecl where
  type : GlobalType
  init : Code
  deriving DecidableEq, Repr

/-- A run of locals of one type. -/
structure LocalGroup where
  count : UInt32
  type : ValueType
  deriving DecidableEq, Repr

structure FunctionBody where
  locals : List LocalGroup
  code : Code
  deriving DecidableEq, Repr

inductive ElementMode where
  | passive
  | declarative
  | active (table : UInt32) (offset : Code)
  deriving DecidableEq, Repr

inductive ElementItems where
  | functions (indices : List UInt32)
  | expressions (codes : List Code)
  deriving DecidableEq, Repr

/-- An element segment. The flags repeat what mode and items say; they are kept because several
written forms mean the same segment. -/
structure Element where
  flags : UInt32
  refType : RefType
  mode : ElementMode
  items : ElementItems
  deriving DecidableEq, Repr

inductive DataMode where
  | passive
  | active (offset : Code)
  | activeExplicit (memory : UInt32) (offset : Code)
  deriving DecidableEq, Repr

structure DataSegment where
  mode : DataMode
  bytes : List UInt8
  deriving DecidableEq, Repr

inductive Section where
  | custom (name : String) (bytes : List UInt8)
  | types (items : List FunctionType)
  | imports (items : List Import)
  | functions (typeIndices : List UInt32)
  | tables (items : List TableType)
  | memories (items : List Limits)
  | globals (items : List GlobalDecl)
  | exports (items : List Export)
  | start (function : UInt32)
  | elements (items : List Element)
  | bodies (items : List FunctionBody)
  | data (items : List DataSegment)
  | dataCount (count : UInt32)
  deriving DecidableEq, Repr

def Section.id : Section → UInt8
  | custom _ _ => 0
  | types _ => 1
  | imports _ => 2
  | functions _ => 3
  | tables _ => 4
  | memories _ => 5
  | globals _ => 6
  | exports _ => 7
  | start _ => 8
  | elements _ => 9
  | bodies _ => 10
  | data _ => 11
  | dataCount _ => 12

structure Module where
  magic : Word := ⟨0x00, 0x61, 0x73, 0x6d⟩
  version : Word := ⟨0x01, 0x00, 0x00, 0x00⟩
  sections : List Section
  deriving DecidableEq, Repr

namespace Module

/-- The bytes that every module starts with. -/
def standardMagic : Word := ⟨0x00, 0x61, 0x73, 0x6d⟩

def types? (m : Module) : Option (List FunctionType) :=
  m.sections.findSome? fun | .types items => some items | _ => none

def imports? (m : Module) : Option (List Import) :=
  m.sections.findSome? fun | .imports items => some items | _ => none

def functions? (m : Module) : Option (List UInt32) :=
  m.sections.findSome? fun | .functions items => some items | _ => none

def tables? (m : Module) : Option (List TableType) :=
  m.sections.findSome? fun | .tables items => some items | _ => none

def memories? (m : Module) : Option (List Limits) :=
  m.sections.findSome? fun | .memories items => some items | _ => none

def globals? (m : Module) : Option (List GlobalDecl) :=
  m.sections.findSome? fun | .globals items => some items | _ => none

def exports? (m : Module) : Option (List Export) :=
  m.sections.findSome? fun | .exports items => some items | _ => none

def start? (m : Module) : Option UInt32 :=
  m.sections.findSome? fun | .start function => some function | _ => none

def elements? (m : Module) : Option (List Element) :=
  m.sections.findSome? fun | .elements items => some items | _ => none

def bodies? (m : Module) : Option (List FunctionBody) :=
  m.sections.findSome? fun | .bodies items => some items | _ => none

def data? (m : Module) : Option (List DataSegment) :=
  m.sections.findSome? fun | .data items => some items | _ => none

def dataCount? (m : Module) : Option UInt32 :=
  m.sections.findSome? fun | .dataCount count => some count | _ => none

/-- The names of all custom sections. -/
def customNames (m : Module) : List String :=
  m.sections.filterMap fun | .custom name _ => some name | _ => none

/-- The type indices of the imported functions. -/
def importedFunctions (m : Module) : List UInt32 :=
  (m.imports?.getD []).filterMap fun i => match i.desc with | .function type => some type | _ => none

/-- The signature at an index of the function space: imported functions come first and then those
that the module defines. -/
def functionType? (m : Module) (index : UInt32) : Option FunctionType := do
  let types ← m.types?
  let imported := m.importedFunctions
  let type ←
    if index.toNat < imported.length then imported[index.toNat]?
    else (← m.functions?)[index.toNat - imported.length]?
  types[type.toNat]?

end Module

end WasmMachine

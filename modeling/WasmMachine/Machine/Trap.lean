import WasmMachine.Module.Types

/-! The ways in which running or instantiating a module can fail, and their texts. -/

namespace WasmMachine

/-- What an index was looked up in. -/
inductive IndexSpace where
  | type | function | table | memory | global | frame | localVariable | code | tableElement
  deriving DecidableEq, Repr

def IndexSpace.text : IndexSpace → String
  | type => "type"
  | function => "function"
  | table => "table"
  | memory => "memory"
  | global => "global"
  | frame => "frame"
  | localVariable => "local"
  | code => "code"
  | tableElement => "table element"

/-- What the format allows and the machine does not do. -/
inductive Unsupported where
  | operandType (type : ValueType)
  | multipleResults (type : FunctionType)
  | tableSize (size limit : UInt32)
  | localCount (count limit : UInt64)
  | expressionItems (segment : Nat)
  deriving DecidableEq, Repr

def Unsupported.text : Unsupported → String
  | operandType type => type.text ++ " on the operand stack"
  | multipleResults type => "multi-value result " ++ type.text
  | tableSize size limit => s!"table of {size.toNat} elements exceeds maximum {limit.toNat}"
  | localCount count limit => s!"{count.toNat} locals exceeds maximum {limit.toNat}"
  | expressionItems segment => s!"element segment {segment} with expression items"

/-- Why a memory cannot be made, in pages. -/
inductive MemoryFault where
  | aboveAddressSpace (pages limit : UInt32)
  | aboveMaximum (pages max : UInt32)
  deriving DecidableEq, Repr

def MemoryFault.text : MemoryFault → String
  | aboveAddressSpace pages limit =>
    s!"Initial memory size {pages.toNat} pages exceeds maximum {limit.toNat} pages"
  | aboveMaximum pages max =>
    s!"Initial size {pages.toNat} pages exceeds specified maximum {max.toNat} pages"

inductive Trap where
  | unsupported (feature : Unsupported)
  | invalidIndex (space : IndexSpace) (index : UInt32)
  | unresolvedBranch (label : UInt32)
  | immutableGlobalWrite (index : UInt32)
  | globalInitializedTwice (index : UInt32)
  | unboundTableElement (index : UInt32)
  | stackUnderflow
  | stackOverflow
  /-- A value of another type was found, or none at all. -/
  | typeMismatch (expected : ValueType) (actual : Option ValueType)
  | memoryOutOfBounds (address : UInt64) (size : Nat)
  | memory (fault : MemoryFault)
  | divisionByZero
  | unreachable
  | unknownImport (source name : String)
  | importKindMismatch (source name : String) (expected : EntityKind)
  | unknownExport (name : String)
  | callStackOverflow
  | budgetExhausted
  | host (message : String)
  deriving DecidableEq, Repr

def Trap.message : Trap → String
  | unsupported feature => "Unsupported feature: " ++ feature.text
  | invalidIndex space index => "Invalid " ++ space.text ++ s!" index: {index.toNat}"
  | unresolvedBranch label => s!"Branch label {label.toNat} does not resolve to an enclosing block"
  | immutableGlobalWrite index => s!"Write to immutable global: {index.toNat}"
  | globalInitializedTwice index => s!"Global initialized twice: {index.toNat}"
  | unboundTableElement index => s!"Unbound table element: {index.toNat}"
  | stackUnderflow => "Stack underflow"
  | stackOverflow => "Stack overflow"
  | typeMismatch expected actual =>
    "Type mismatch: expected " ++ expected.text ++ ", got " ++ (actual.map ValueType.text).getD "no value"
  | memoryOutOfBounds address size => s!"Out of bounds memory access at {address.toNat} (size {size})"
  | memory fault => "Memory error: " ++ fault.text
  | divisionByZero => "Division by zero"
  | unreachable => "Unreachable executed"
  | unknownImport source name => "Unknown import: " ++ source ++ "." ++ name
  | importKindMismatch source name expected => "Import " ++ source ++ "." ++ name ++ " is not a " ++ expected.text
  | unknownExport name => "Unknown export: " ++ name
  | callStackOverflow => "Call stack overflow"
  | budgetExhausted => "Instruction budget exhausted"
  | host message => "Host error: " ++ message

/-- The name of the kind of trap, for reports that are read by programs. -/
def Trap.kind : Trap → String
  | unsupported _ => "UnsupportedFeature"
  | invalidIndex _ _ => "InvalidIndex"
  | unresolvedBranch _ => "BranchResolution"
  | immutableGlobalWrite _ => "ImmutableGlobalWrite"
  | globalInitializedTwice _ => "DoubleInitGlobal"
  | unboundTableElement _ => "UnboundTableElement"
  | stackUnderflow => "StackUnderflow"
  | stackOverflow => "StackOverflow"
  | typeMismatch _ _ => "TypeMismatch"
  | memoryOutOfBounds _ _ => "MemoryOutOfBounds"
  | memory _ => "MemoryError"
  | divisionByZero => "DivisionByZero"
  | unreachable => "Unreachable"
  | unknownImport _ _ => "UnknownImport"
  | importKindMismatch _ _ _ => "ImportKindMismatch"
  | unknownExport _ => "UnknownExport"
  | callStackOverflow => "CallStackOverflow"
  | budgetExhausted => "InstructionBudgetExhausted"
  | host _ => "Host"

end WasmMachine

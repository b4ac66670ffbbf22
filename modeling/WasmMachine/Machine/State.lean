import WasmMachine.Machine.Config
import WasmMachine.Machine.Frame
import WasmMachine.Machine.Heap
import WasmMachine.Machine.Journal
import WasmMachine.Machine.OperandStack

/-! The state in which code runs: the heap, the store of the running instance, which says what its
indices mean, and what is reported and counted on the way. -/

namespace WasmMachine

/-- What one instance has: its index spaces as places in the heap, its operand stack, the frames of
its active calls with the innermost first, and its limits. -/
structure Store where
  types : List FunctionType := []
  functions : Array FunctionId := #[]
  tables : Array Nat := #[]
  memories : Array Nat := #[]
  globals : Array Nat := #[]
  stack : OperandStack := {}
  frames : List Frame := []
  config : Config := {}
  /-- How many instructions may still be executed; none is no bound. -/
  steps : Option Nat := none

/-- A store with nothing in it, under the given limits. -/
def Store.create (config : Config) : Store :=
  { stack := { capacity := config.maxStackBytes }, config, steps := config.instructionBudget }

/-- What a run has taken so far. -/
structure Usage where
  /-- How many instructions have been executed. -/
  executed : Nat := 0
  /-- The most frames that there were at once after entering a call. -/
  deepest : Nat := 0
  deriving DecidableEq, Repr

structure Machine where
  heap : Heap := {}
  store : Store := {}
  journal : Journal := {}
  usage : Usage := {}

namespace Machine

/-- A found item, or the trap for an index that means nothing. -/
def found {α : Type} (space : IndexSpace) (index : UInt32) : Option α → Except Trap α
  | some a => .ok a
  | none => .error (.invalidIndex space index)

variable (m : Machine)

def functionType (index : UInt32) : Except Trap FunctionType :=
  found .type index m.store.types[index.toNat]?

def functionId (index : UInt32) : Except Trap FunctionId :=
  found .function index m.store.functions[index.toNat]?

def function (index : UInt32) : Except Trap Function :=
  found .function index (m.store.functions[index.toNat]?.bind m.heap.function?)

def tableId (index : UInt32) : Except Trap Nat := found .table index m.store.tables[index.toNat]?

def table (index : UInt32) : Except Trap Table :=
  found .table index (m.store.tables[index.toNat]?.bind (m.heap.tables[·]?))

def memoryId (index : UInt32) : Except Trap Nat := found .memory index m.store.memories[index.toNat]?

def memory (index : UInt32) : Except Trap Memory :=
  found .memory index (m.store.memories[index.toNat]?.bind (m.heap.memories[·]?))

def globalId (index : UInt32) : Except Trap Nat := found .global index m.store.globals[index.toNat]?

def global (index : UInt32) : Except Trap Global :=
  found .global index (m.store.globals[index.toNat]?.bind (m.heap.globals[·]?))

/-- The frame of the innermost active call. -/
def frame : Except Trap Frame := found .frame 0 m.store.frames.head?

/-- The values of all globals, in the order of their indices. -/
def globalValues : List Value :=
  (m.store.globals.toList.filterMap (m.heap.globals[·]?)).map Global.value

/-- Leaves the innermost active call. -/
def popFrame : Machine := { m with store := { m.store with frames := m.store.frames.tail } }

end Machine

end WasmMachine

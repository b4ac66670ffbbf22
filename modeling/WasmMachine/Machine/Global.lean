import WasmMachine.Machine.Trap
import WasmMachine.Machine.Value

/-! Global variables. A declared global holds zero until its initial value is stored, once. -/

namespace WasmMachine

structure Global where
  type : GlobalType
  value : Value
  initialized : Bool
  deriving DecidableEq, Repr

namespace Global

def checkType (t : GlobalType) (v : Value) : Except Trap Unit :=
  if v.type = t.valueType then .ok () else .error (.typeMismatch t.valueType (some v.type))

/-- A global that comes with its value. -/
def create (type : GlobalType) (value : Value) : Except Trap Global := do
  checkType type value
  return ⟨type, value, true⟩

/-- A global that waits for its initial value. -/
def declared (type : GlobalType) : Global := ⟨type, .zero type.valueType, false⟩

/-- Stores the initial value; the index only names the global in an error. -/
def storeInitial (g : Global) (index : UInt32) (value : Value) : Except Trap Global := do
  if g.initialized then throw (.globalInitializedTwice index)
  checkType g.type value
  return { g with value, initialized := true }

def set (g : Global) (index : UInt32) (value : Value) : Except Trap Global := do
  if !g.type.isMutable then throw (.immutableGlobalWrite index)
  checkType g.type value
  return { g with value }

end Global

end WasmMachine

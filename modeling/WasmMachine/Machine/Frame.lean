import WasmMachine.Machine.Trap
import WasmMachine.Machine.Value
import WasmMachine.Module.Basic

/-! The locals of an active call: the parameters, and then the declared locals, which are zero. -/

namespace WasmMachine

structure Frame where
  locals : Array Value := #[]
  deriving DecidableEq, Repr

namespace Frame

/-- The most locals of a frame, parameters included. -/
def maxLocals : UInt64 := 50000

/-- The number of locals, as a 64-bit word. -/
def total (args : List Value) (declared : List LocalGroup) : UInt64 :=
  UInt64.ofNat args.length + declared.foldl (fun sum group => sum + group.count.toUInt64) 0

def zeros (declared : List LocalGroup) : List Value :=
  declared.flatMap fun group => List.replicate group.count.toNat (Value.zero group.type)

def create (args : List Value) (declared : List LocalGroup) : Except Trap Frame :=
  let count := total args declared
  if maxLocals < count then .error (.unsupported (.localCount count maxLocals))
  else .ok ⟨(args ++ zeros declared).toArray⟩

def get (f : Frame) (index : UInt32) : Except Trap Value :=
  match f.locals[index.toNat]? with
  | some v => .ok v
  | none => .error (.invalidIndex .localVariable index)

/-- Replaces a local by a value of the same type. -/
def set (f : Frame) (index : UInt32) (value : Value) : Except Trap Frame :=
  match f.locals[index.toNat]? with
  | none => .error (.invalidIndex .localVariable index)
  | some old =>
    if old.type = value.type then .ok ⟨f.locals.setIfInBounds index.toNat value⟩
    else .error (.typeMismatch old.type (some value.type))

end Frame

end WasmMachine

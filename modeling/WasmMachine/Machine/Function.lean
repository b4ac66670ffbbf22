import WasmMachine.Machine.Arena
import WasmMachine.Machine.Value
import WasmMachine.Module.Basic

/-! Functions: those that modules define, which are compiled, and those that the host lends. -/

namespace WasmMachine

/-- A function of the host: it computes a result, or none, from the arguments. It always answers, and
from the arguments alone: it keeps nothing from one call to the next, and does not reach the machine
that calls it. -/
structure HostFunction where
  name : String
  run : List Value → Except Trap (Option Value)

inductive Function where
  | defined (type : FunctionType) (locals : List LocalGroup) (body : Program)
  | host (type : FunctionType) (function : HostFunction)

namespace Function

def type : Function → FunctionType
  | defined type _ _ => type
  | host type _ => type

def text : Function → String
  | defined type _ body => "Wasm(" ++ type.text ++ s!", {body.arena.size} nodes)"
  | host type _ => "Host(" ++ type.text ++ ")"

end Function

end WasmMachine

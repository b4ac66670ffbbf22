import WasmMachine.Text.HexFloat
import WasmMachine.Module.Types

/-! Values. Floating point values are their bits, since nothing computes with them. -/

namespace WasmMachine

inductive Value where
  | i32 (value : Int32)
  | i64 (value : Int64)
  | f32 (bits : UInt32)
  | f64 (bits : UInt64)
  deriving DecidableEq, Repr

namespace Value

def type : Value → ValueType
  | i32 _ => .i32
  | i64 _ => .i64
  | f32 _ => .f32
  | f64 _ => .f64

/-- Zero, the value that locals start with. -/
def zero : ValueType → Value
  | .i32 => i32 0
  | .i64 => i64 0
  | .f32 => f32 0
  | .f64 => f64 0

def toI32? : Value → Option Int32
  | i32 v => some v
  | _ => none

def text : Value → String
  | i32 v => s!"i32:{v.toInt}"
  | i64 v => s!"i64:{v.toInt}"
  | f32 bits => "f32:" ++ HexFloat.text HexFloat.binary32 bits.toNat
  | f64 bits => "f64:" ++ HexFloat.text HexFloat.binary64 bits.toNat

end Value

end WasmMachine

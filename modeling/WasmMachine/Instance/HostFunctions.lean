import WasmMachine.Machine.Function

/-! Ready-made host functions. -/

namespace WasmMachine.HostFunction

/-- Gives the same value whatever it is called with, or no value. -/
def constant (name : String) (value : Option Value) : HostFunction := ⟨name, fun _ => .ok value⟩

/-- Gives one of its arguments back, and no value if there is no such argument. -/
def argument (name : String) (index : Nat) : HostFunction := ⟨name, fun args => .ok args[index]?⟩

/-- Adds its 32-bit arguments, modulo 2³². -/
def sum (name : String) : HostFunction :=
  ⟨name, fun args => .ok (some (.i32 (args.foldl (fun s v => s + v.toI32?.getD 0) 0)))⟩

/-- Always fails. -/
def failing (name message : String) : HostFunction := ⟨name, fun _ => .error (.host message)⟩

end WasmMachine.HostFunction

import WasmMachine.Machine.Trap

/-! The limits under which an instance runs, and their text. -/

namespace WasmMachine

structure Config where
  /-- The most calls that may be active at once. -/
  maxCallDepth : Nat := 128
  /-- The most bytes that the operand stack may take; none is no bound. -/
  maxStackBytes : Option Nat := none
  /-- How many instructions may be executed; none is no bound. -/
  instructionBudget : Option Nat := none
  deriving DecidableEq, Repr

namespace Config

def optionText : Option Nat → String
  | some n => toString n
  | none => "null"

/-- The limits as an object with one member for each of them. -/
def text (c : Config) : String :=
  "\x7b\"max_call_depth\":" ++ toString c.maxCallDepth ++ ",\"max_stack_bytes\":" ++
    optionText c.maxStackBytes ++ ",\"instruction_budget\":" ++ optionText c.instructionBudget ++ "\x7d"

end Config

end WasmMachine

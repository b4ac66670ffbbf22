import WasmMachine.Machine.Execution

/-! Running code as the tree that it is. A sequence runs from left to right; a nested sequence ends
normally, with a branch or with a return, and the instruction that owns it says what that means. The
fuel bounds how deep the recursion goes. -/

namespace WasmMachine

/-- How a sequence ends. A branch still has to leave `levels` structured instructions before it is
resolved; `label` is the one that was written. -/
inductive Exit where
  | normal
  | branch (levels : Nat) (label : UInt32)
  | leave
  deriving DecidableEq, Repr

namespace Code

/-- Goes on behind a structured instruction whose body has ended for good. -/
def afterBody (rest : Run Exit) : Exit → Run Exit
  | .normal | .branch 0 _ => rest
  | .branch (levels + 1) label => return .branch levels label
  | .leave => return .leave

/-- Runs the body of a loop until it ends in another way than by a branch to the loop. -/
def iterate (body : Run Exit) : (fuel : Nat) → Run Exit
  | 0 => throw .outOfFuel
  | fuel + 1 => do
    match ← body with
    | .branch 0 _ => iterate body fuel
    | exit => return exit

/-- What a body does when control leaves it. -/
def finish : Exit → Run Unit
  | .normal | .leave => return ()
  | .branch _ label => Run.trap (.unresolvedBranch label)

/-- Charges an instruction, counts it and reports it. -/
def charge (mnemonic : String) : Run Unit := do
  Run.consumeStep
  Run.noteExecuted mnemonic

def runTree : (fuel : Nat) → Code → Run Exit
  | _, nil => return .normal
  | 0, _ => throw .outOfFuel
  | fuel + 1, op o rest => do
    charge o.mnemonic
    match ← o.run (Call.invoke fun p => do finish (← runTree fuel p.code)) with
    | .next => runTree fuel rest
    | .branch label => return .branch label.toNat label
    | .leave => return .leave
  | fuel + 1, block _ body rest => do
    charge "block"
    afterBody (runTree fuel rest) (← runTree fuel body)
  | fuel + 1, loop _ body rest => do
    charge "loop"
    afterBody (runTree fuel rest) (← iterate (runTree fuel body) fuel)
  | fuel + 1, ifThen _ body rest => do
    charge "if"
    if ← Run.onStack OperandStack.popCondition then afterBody (runTree fuel rest) (← runTree fuel body)
    else runTree fuel rest
  | fuel + 1, ifElse _ body orElse rest => do
    charge "if"
    if ← Run.onStack OperandStack.popCondition then afterBody (runTree fuel rest) (← runTree fuel body)
    else afterBody (runTree fuel rest) (← runTree fuel orElse)

end Code

/-- Runs a body as a tree in the innermost frame. -/
def Program.executeTree (fuel : Nat) (p : Program) : Run Unit := do
  Code.finish (← Code.runTree fuel p.code)

end WasmMachine

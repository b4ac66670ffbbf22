import WasmMachine.Machine.State

/-! Computations of the machine, and the primitive ones: looking things up, working on the operand
stack, entering and leaving calls, and paying for instructions. -/

namespace WasmMachine

/-- Why a run ends early: by a trap, or because it was given too little fuel to end at all. -/
inductive Halt where
  | trap (trap : Trap)
  | outOfFuel
  deriving DecidableEq, Repr

/-- A computation of the machine. A failed one keeps the state that it came to. -/
abbrev Run (α : Type) := EStateM Halt Machine α

namespace Run

def trap {α : Type} (t : Trap) : Run α := throw (.trap t)

def lift {α : Type} (result : Except Trap α) : Run α := fun m =>
  match result with
  | .ok a => .ok a m
  | .error t => .error (.trap t) m

/-- Runs a computation on the operand stack. -/
def onStack {α : Type} (f : StackM α) : Run α := fun m =>
  match f m.store.stack with
  | .ok a stack => .ok a { m with store := { m.store with stack } }
  | .error t stack => .error (.trap t) { m with store := { m.store with stack } }

def note (e : Event) : Run Unit := fun m => .ok () { m with journal := m.journal.note e }

def noteHostCall (call : HostCall) : Run Unit := fun m =>
  .ok () { m with journal := m.journal.noteHostCall call }

def modifyHeap (f : Heap → Heap) : Run Unit := fun m => .ok () { m with heap := f m.heap }

def modifyStore (f : Store → Store) : Run Unit := fun m => .ok () { m with store := f m.store }

/-- Looks something up without changing the state. -/
def look {α : Type} (f : Machine → Except Trap α) : Run α := fun m => lift (f m) m

/-- Enters a call, unless too many are active. -/
def pushFrame (frame : Frame) : Run Unit := fun m =>
  if m.store.config.maxCallDepth ≤ m.store.frames.length then .error (.trap .callStackOverflow) m
  else
    .ok ()
      { m with
        store := { m.store with frames := frame :: m.store.frames }
        usage := { m.usage with deepest := max m.usage.deepest (m.store.frames.length + 1) } }

/-- Replaces the frame of the innermost active call. -/
def setFrame (frame : Frame) : Run Unit :=
  modifyStore fun s => { s with frames := frame :: s.frames.tail }

/-- Sets a local of the innermost active call. -/
def setLocal (index : UInt32) (value : Value) : Run Unit := do
  let frame ← look Machine.frame
  setFrame (← lift (frame.set index value))

/-- Charges one instruction to the budget, if there is one. -/
def consumeStep : Run Unit := fun m =>
  match m.store.steps with
  | none => .ok () m
  | some 0 => .error (.trap .budgetExhausted) m
  | some (n + 1) => .ok () { m with store := { m.store with steps := some n } }

/-- Counts an instruction that is executed, and reports it. -/
def noteExecuted (mnemonic : String) : Run Unit := fun m =>
  .ok ()
    { m with
      journal := m.journal.note (.executed mnemonic)
      usage := { m.usage with executed := m.usage.executed + 1 } }

/-- Runs a body inside a frame, which is left again however the body ends. -/
def inFrame {α : Type} (frame : Frame) (body : Run α) : Run α := do
  pushFrame frame
  fun m =>
    match body m with
    | .ok a m => .ok a m.popFrame
    | .error e m => .error e m.popFrame

end Run

end WasmMachine

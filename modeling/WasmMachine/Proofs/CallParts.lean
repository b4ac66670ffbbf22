import WasmMachine.Machine.TreeExecution

/-! A call in parts. What a call does before its body starts and after it has ended depends on neither
the body nor the way in which bodies run, so every fact about calls is put together from three: one
about the part before, one about a body inside a frame, and one about the part after. -/

namespace WasmMachine.Proofs.CallParts

/-- A call with several results is refused before anything else. -/
def checkResults (type : FunctionType) : Run Unit :=
  if 1 < type.results.length then do
    Run.note (.multipleResults type)
    Run.trap (.unsupported (.multipleResults type))
  else return ()

/-- The frame in which the body of a defined function runs. -/
def prepare (type : FunctionType) (locals : List LocalGroup) (given : List Value) : Run Frame := do
  checkResults type
  let args ← Call.resolveArgs type.params given
  let depth ← fun m => .ok m.store.frames.length m
  Run.note (.called type depth)
  Run.lift (Frame.create args locals)

def collect (type : FunctionType) : Run (Option Value) :=
  match type.result with
  | some t => return some (← Run.onStack (OperandStack.popTyped t))
  | none => return none

def callHost (type : FunctionType) (function : HostFunction) (given : List Value) : Run (Option Value) := do
  checkResults type
  let args ← Call.resolveArgs type.params given
  Run.note (.calledHost type)
  let frame ← Run.lift (Frame.create args [])
  Run.noteHostCall ⟨function.name, frame.locals.toList⟩
  let result ← Run.lift (function.run frame.locals.toList)
  Run.lift (Call.hostResult type.result result)

private theorem trap_bind {α β : Type} (t : Trap) (next : α → Run β) : Run.trap t >>= next = Run.trap t := rfl

theorem invoke_defined (execute : Program → Run Unit) (own type : FunctionType) (locals : List LocalGroup)
    (body : Program) (given : List Value) :
    Call.invoke execute (.defined own locals body) type given = (do
      let frame ← prepare type locals given
      Run.inFrame frame (execute body)
      collect type) := by
  unfold Call.invoke prepare checkResults
  by_cases several : 1 < type.results.length
  · simp only [several, if_true, bind_assoc, trap_bind]
  · simp only [several, if_false, bind_assoc, pure_bind]
    rfl

theorem invoke_host (execute : Program → Run Unit) (own type : FunctionType) (function : HostFunction)
    (given : List Value) :
    Call.invoke execute (.host own function) type given = callHost type function given := by
  unfold Call.invoke callHost checkResults
  by_cases several : 1 < type.results.length
  · simp only [several, if_true, bind_assoc, trap_bind]
  · simp only [several, if_false, pure_bind]

def leave {α : Type} : EStateM.Result Halt Machine α → EStateM.Result Halt Machine α
  | .ok a m => .ok a m.popFrame
  | .error halt m => .error halt m.popFrame

theorem inFrame_of_entered {α : Type} {frame : Frame} {m entered : Machine}
    (pushed : Run.pushFrame frame m = .ok () entered) (r : Run α) : Run.inFrame frame r m = leave (r entered) := by
  change EStateM.bind (Run.pushFrame frame) _ m = _
  simp only [EStateM.bind, pushed]
  cases outcome : r entered <;> rfl

theorem inFrame_of_full {α : Type} {frame : Frame} {m after : Machine} {halt : Halt}
    (full : Run.pushFrame frame m = .error halt after) (r : Run α) : Run.inFrame frame r m = .error halt after := by
  change EStateM.bind (Run.pushFrame frame) _ m = _
  simp only [EStateM.bind, full]

/-- A frame is entered only while there is room for it, and then stands on top of the others. -/
theorem pushFrame_eq_ok {frame : Frame} {m entered : Machine} (pushed : Run.pushFrame frame m = .ok () entered) :
    m.store.frames.length < m.store.config.maxCallDepth ∧
      entered = { m with
        store := { m.store with frames := frame :: m.store.frames }
        usage := { m.usage with deepest := max m.usage.deepest (m.store.frames.length + 1) } } := by
  unfold Run.pushFrame at pushed
  split at pushed
  · cases pushed
  next room =>
    cases pushed
    exact ⟨Nat.lt_of_not_le room, rfl⟩

theorem pushFrame_eq_error {frame : Frame} {m after : Machine} {halt : Halt}
    (full : Run.pushFrame frame m = .error halt after) : halt = .trap .callStackOverflow ∧ after = m := by
  unfold Run.pushFrame at full
  split at full
  · cases full
    exact ⟨rfl, rfl⟩
  · cases full

end WasmMachine.Proofs.CallParts

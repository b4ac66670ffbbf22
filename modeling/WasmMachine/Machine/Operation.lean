import WasmMachine.Instruction.Text
import WasmMachine.Machine.Run

/-! What single instructions do to the state, and how functions are called. Whatever needs a nested
body to run takes the way to run it as an argument. -/

namespace WasmMachine

def BinaryOp.apply (op : BinaryOp) (a b : Int32) : Except Trap Int32 :=
  match op with
  | add => .ok (a + b)
  | remS => if b = 0 then .error .divisionByZero else .ok (a % b)
  | ltS => .ok (if a < b then 1 else 0)
  | geS => .ok (if b ≤ a then 1 else 0)
  | geU => .ok (if b.toUInt32 ≤ a.toUInt32 then 1 else 0)

/-- The right operand is popped first. -/
def BinaryOp.run (op : BinaryOp) : StackM Unit := do
  let b ← OperandStack.popI32
  let a ← OperandStack.popI32
  match op.apply a b with
  | .ok c => OperandStack.pushI32 c
  | .error t => throw t

/-- How control goes on after an instruction. -/
inductive Jump where
  | next
  | branch (label : UInt32)
  | leave
  deriving DecidableEq, Repr

/-- Calls a function as one of the given type. -/
abbrev Caller := Function → FunctionType → List Value → Run (Option Value)

namespace Call

/-- Pops an operand for each of the types, given from the last to the first. -/
def popArgs : List ValueType → StackM (List Value)
  | [] => return []
  | t :: earlier => do
    let last ← OperandStack.popTyped t
    return (← popArgs earlier) ++ [last]

/-- The first value that has not the type of its parameter. -/
def firstMismatch : List Value → List ValueType → Option Trap
  | v :: values, t :: types =>
    if v.type = t then firstMismatch values types else some (.typeMismatch t (some v.type))
  | _, _ => none

/-- The arguments of a call: those given first, and the missing ones from the operand stack, so that
what was pushed earlier stands earlier. Surplus ones are ignored. -/
def resolveArgs (params : List ValueType) (given : List Value) : Run (List Value) := do
  let taken := given.take params.length
  let pulled ← Run.onStack (popArgs (params.drop taken.length).reverse)
  let args := taken ++ pulled
  match firstMismatch args params with
  | some t => Run.trap t
  | none => return args

/-- The result that a host function gave, checked against the declared one. -/
def hostResult (declared : Option ValueType) (result : Option Value) : Except Trap (Option Value) :=
  match declared with
  | none => .ok none
  | some t =>
    if result.map Value.type = some t then .ok result
    else .error (.typeMismatch t (result.map Value.type))

/-- Calls a function. The type is that of the call, which for an indirect call need not be that of the
function. A declared result comes from the operand stack, or from the host. -/
def invoke (execute : Program → Run Unit) : Caller := fun f type given => do
  if 1 < type.results.length then
    Run.note (.multipleResults type)
    Run.trap (.unsupported (.multipleResults type))
  let args ← resolveArgs type.params given
  match f with
  | .defined _ locals body =>
    let depth ← fun m => .ok m.store.frames.length m
    Run.note (.called type depth)
    let frame ← Run.lift (Frame.create args locals)
    Run.inFrame frame (execute body)
    match type.result with
    | some t => return some (← Run.onStack (OperandStack.popTyped t))
    | none => return none
  | .host _ function =>
    Run.note (.calledHost type)
    let frame ← Run.lift (Frame.create args [])
    Run.noteHostCall ⟨function.name, frame.locals.toList⟩
    let result ← Run.lift (function.run frame.locals.toList)
    Run.lift (hostResult type.result result)

/-- A call by an instruction: all arguments come from the operand stack, and the result goes there. -/
def fromCode (caller : Caller) (f : Function) (type : FunctionType) : Run Unit := do
  match ← caller f type [] with
  | some v => Run.onStack (OperandStack.push v)
  | none => return ()

end Call

namespace Op

def runLocalSet (index : UInt32) : Run Value := do
  let frame ← Run.look Machine.frame
  let old ← Run.lift (frame.get index)
  let value ← Run.onStack (OperandStack.popTyped old.type)
  Run.setLocal index value
  return value

def runGlobalSet (index : UInt32) : Run Unit := do
  let global ← Run.look (·.global index)
  if !global.type.isMutable then Run.trap (.immutableGlobalWrite index)
  let value ← Run.onStack (OperandStack.popTyped global.type.valueType)
  let global ← Run.lift (global.set index value)
  let id ← Run.look (·.globalId index)
  Run.modifyHeap (·.setGlobal id global)

def runLoad (arg : MemArg) : Run Unit := do
  let memory ← Run.look (·.memory 0)
  let base ← Run.onStack OperandStack.popI32
  let value ← Run.lift (memory.readI32 (Memory.effectiveAddress base arg.offset))
  Run.onStack (OperandStack.pushI32 value)

def runStore (arg : MemArg) : Run Unit := do
  let id ← Run.look (·.memoryId 0)
  let memory ← Run.look (·.memory 0)
  let value ← Run.onStack OperandStack.popI32
  let base ← Run.onStack OperandStack.popI32
  let memory ← Run.lift (memory.writeI32 (Memory.effectiveAddress base arg.offset) value)
  Run.modifyHeap (·.setMemory id memory)

def runCallIndirect (caller : Caller) (type table : UInt32) : Run Unit := do
  let type ← Run.look (·.functionType type)
  let table ← Run.look (·.table table)
  let index ← Run.onStack OperandStack.popI32
  let f ← Run.look (·.heap.tableFunction table index.toUInt32)
  Call.fromCode caller f type

/-- Executes an instruction and says how control goes on. -/
def run (caller : Caller) : Op → Run Jump
  | unreachable => Run.trap .unreachable
  | nop => return .next
  | br label => return .branch label
  | brIf label => do
    if ← Run.onStack OperandStack.popCondition then return .branch label else return .next
  | brTable labels default => return .branch (← Run.onStack (OperandStack.popLabel labels default))
  | ret => return .leave
  | call index => do
    let f ← Run.look (·.function index)
    Call.fromCode caller f f.type
    return .next
  | callIndirect type table => do
    runCallIndirect caller type table
    return .next
  | localGet index => do
    let frame ← Run.look Machine.frame
    let value ← Run.lift (frame.get index)
    Run.onStack (OperandStack.push value)
    return .next
  | localSet index => do
    let _ ← runLocalSet index
    return .next
  | localTee index => do
    let value ← runLocalSet index
    Run.onStack (OperandStack.push value)
    return .next
  | globalGet index => do
    let global ← Run.look (·.global index)
    Run.onStack (OperandStack.push global.value)
    return .next
  | globalSet index => do
    runGlobalSet index
    return .next
  | load arg => do
    runLoad arg
    return .next
  | store arg => do
    runStore arg
    return .next
  | const value => do
    Run.onStack (OperandStack.pushI32 value)
    return .next
  | eqz => do
    let value ← Run.onStack OperandStack.popI32
    Run.onStack (OperandStack.pushI32 (if value = 0 then 1 else 0))
    return .next
  | binary op => do
    Run.onStack op.run
    return .next

end Op

end WasmMachine

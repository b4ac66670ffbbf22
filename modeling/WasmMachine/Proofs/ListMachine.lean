import WasmMachine.Instance.Instantiation
import WasmMachine.Proofs.InstructionParts
import WasmMachine.Proofs.OperandLists

/-! The machine with a list of operands. It runs the same code as the machine, and differs from it in its operand stack
only, which is a list of integers instead of bytes. The machine does in every run, whatever the outcome, what this
one does. -/

namespace WasmMachine.Proofs.ListMachine
open Sequencing CallParts InstructionParts OperandLists

variable {α β : Type}

/-- The operands, beside a machine whose own operand stack is not used. -/
structure State where
  operands : Operands
  machine : Machine

abbrev ListRun (α : Type) := EStateM Halt State α

/-- What has nothing to do with operands. -/
def elsewhere (r : Run α) : ListRun α := fun s => mapState (fun m => { s with machine := m }) (r s.machine)

def onOperands (f : ListM α) : ListRun α := fun s =>
  match f s.operands with
  | .ok a operands => .ok a { s with operands }
  | .error t operands => .error (.trap t) { s with operands }

section Calls

def resolveArgs (params : List ValueType) (given : List Value) : ListRun (List Value) := do
  let taken := given.take params.length
  let pulled ← onOperands (Operands.popArgs (params.drop taken.length).reverse)
  let args := taken ++ pulled
  match Call.firstMismatch args params with
  | some t => elsewhere (Run.trap t)
  | none => return args

def prepare (type : FunctionType) (locals : List LocalGroup) (given : List Value) : ListRun Frame := do
  elsewhere (checkResults type)
  let args ← resolveArgs type.params given
  elsewhere do
    let depth ← fun m => .ok m.store.frames.length m
    Run.note (.called type depth)
    Run.lift (Frame.create args locals)

def inFrame (frame : Frame) (body : ListRun α) : ListRun α := do
  elsewhere (Run.pushFrame frame)
  fun s => mapState (fun s => { s with machine := s.machine.popFrame }) (body s)

def collect (type : FunctionType) : ListRun (Option Value) :=
  match type.result with
  | some t => return some (← onOperands (Operands.popTyped t))
  | none => return none

def callHost (type : FunctionType) (function : HostFunction) (given : List Value) : ListRun (Option Value) := do
  elsewhere (checkResults type)
  let args ← resolveArgs type.params given
  elsewhere do
    Run.note (.calledHost type)
    let frame ← Run.lift (Frame.create args [])
    Run.noteHostCall ⟨function.name, frame.locals.toList⟩
    let result ← Run.lift (function.run frame.locals.toList)
    Run.lift (Call.hostResult type.result result)

abbrev ListCaller := Function → FunctionType → List Value → ListRun (Option Value)

def invokeWith (execute : Program → ListRun Unit) : ListCaller := fun f type given =>
  match f with
  | .defined _ locals body => do
    let frame ← prepare type locals given
    inFrame frame (execute body)
    collect type
  | .host _ function => callHost type function given

def fromCode (caller : ListCaller) (f : Function) (type : FunctionType) : ListRun Unit := do
  match ← caller f type [] with
  | some v => onOperands (Operands.pushValue v)
  | none => return ()

end Calls

section Instructions

def localSet (index : UInt32) : ListRun Value := do
  let frame ← elsewhere (Run.look Machine.frame)
  let old ← elsewhere (Run.lift (frame.get index))
  let value ← onOperands (Operands.popTyped old.type)
  elsewhere (Run.setLocal index value)
  return value

def globalSet (index : UInt32) : ListRun Unit := do
  let global ← elsewhere (Run.look (·.global index))
  if !global.type.isMutable then elsewhere (Run.trap (.immutableGlobalWrite index))
  let value ← onOperands (Operands.popTyped global.type.valueType)
  elsewhere do
    let global ← Run.lift (global.set index value)
    let id ← Run.look (·.globalId index)
    Run.modifyHeap (·.setGlobal id global)

def load (arg : MemArg) : ListRun Unit := do
  let memory ← elsewhere (Run.look (·.memory 0))
  let base ← onOperands Operands.pop
  let value ← elsewhere (Run.lift (memory.readI32 (Memory.effectiveAddress base arg.offset)))
  onOperands (Operands.push value)

def store (arg : MemArg) : ListRun Unit := do
  let id ← elsewhere (Run.look (·.memoryId 0))
  let memory ← elsewhere (Run.look (·.memory 0))
  let value ← onOperands Operands.pop
  let base ← onOperands Operands.pop
  elsewhere do
    let memory ← Run.lift (memory.writeI32 (Memory.effectiveAddress base arg.offset) value)
    Run.modifyHeap (·.setMemory id memory)

def callIndirect (caller : ListCaller) (type table : UInt32) : ListRun Unit := do
  let type ← elsewhere (Run.look (·.functionType type))
  let table ← elsewhere (Run.look (·.table table))
  let index ← onOperands Operands.pop
  let f ← elsewhere (Run.look (·.heap.tableFunction table index.toUInt32))
  fromCode caller f type

def op (caller : ListCaller) : Op → ListRun Jump
  | .unreachable => elsewhere (Run.trap .unreachable)
  | .nop => return .next
  | .br label => return .branch label
  | .brIf label => do if ← onOperands Operands.popCondition then return .branch label else return .next
  | .brTable labels default => return .branch (← onOperands (Operands.popLabel labels default))
  | .ret => return .leave
  | .call index => do
    let f ← elsewhere (Run.look (·.function index))
    fromCode caller f f.type
    return .next
  | .callIndirect type table => do
    callIndirect caller type table
    return .next
  | .localGet index => do
    let frame ← elsewhere (Run.look Machine.frame)
    let value ← elsewhere (Run.lift (frame.get index))
    onOperands (Operands.pushValue value)
    return .next
  | .localSet index => do
    let _ ← localSet index
    return .next
  | .localTee index => do
    let value ← localSet index
    onOperands (Operands.pushValue value)
    return .next
  | .globalGet index => do
    let global ← elsewhere (Run.look (·.global index))
    onOperands (Operands.pushValue global.value)
    return .next
  | .globalSet index => do
    globalSet index
    return .next
  | .load arg => do
    load arg
    return .next
  | .store arg => do
    store arg
    return .next
  | .const value => do
    onOperands (Operands.push value)
    return .next
  | .eqz => do
    let value ← onOperands Operands.pop
    onOperands (Operands.push (if value.toInt = 0 then 1 else 0))
    return .next
  | .binary op => do
    onOperands (Operands.binary op)
    return .next

def act (caller : ListCaller) (a : Arena) (id : NodeId) (node : Node) : ListRun (Option NodeId) :=
  match node.op with
  | .op o => do
    let jump ← op caller o
    elsewhere (Run.lift (a.follow id node.next jump))
  | .block first | .loop first => return first <|> node.next
  | .cond thenFirst elseFirst => do
    if ← onOperands Operands.popCondition then return thenFirst <|> node.next
    else return elseFirst <|> node.next

def step (caller : ListCaller) (a : Arena) (id : NodeId) (node : Node) : ListRun (Option NodeId) := do
  elsewhere (Run.noteExecuted node.op.mnemonic)
  act caller a id node

def runFrom : (fuel : Nat) → Arena → Option NodeId → ListRun Unit
  | _, _, none => return ()
  | 0, _, some _ => throw .outOfFuel
  | fuel + 1, a, some id => do
    elsewhere Run.consumeStep
    match a.nodes[id]? with
    | none => return ()
    | some node =>
      let next ← step (invokeWith fun p => runFrom fuel p.arena p.arena.entry) a id node
      runFrom fuel a next

def execute (fuel : Nat) (p : Program) : ListRun Unit := runFrom fuel p.arena p.arena.entry

def invoke (fuel : Nat) : ListCaller := invokeWith (execute fuel)

def evaluate (fuel : Nat) (code : Code) (type : ValueType) : ListRun Value := do
  inFrame {} (execute fuel (.ofCode code))
  onOperands (Operands.popTyped type)

end Instructions

def withStack (stack : OperandStack) (m : Machine) : Machine := { m with store := { m.store with stack } }

/-- The machine whose operand stack represents the operands. -/
def State.concrete (s : State) : Machine := withStack s.operands.stack s.machine

/-- A computation that neither depends on the operand stack nor changes it. -/
def Detached (r : Run α) : Prop := ∀ stack, Follows (withStack stack) r r

namespace Detached

theorem bind {r : Run α} {next : α → Run β} (first : Detached r) (rest : ∀ a, Detached (next a)) :
    Detached (r >>= next) :=
  fun stack => Follows.bind (first stack) (fun a => rest a stack)

theorem trap (t : Trap) : Detached (Run.trap t : Run α) := fun _ _ => rfl

theorem lift (result : Except Trap α) : Detached (Run.lift result) := by
  intro stack m
  cases result <;> rfl

theorem look (f : Machine → Except Trap α) (seen : ∀ m, f (visible m) = f m) : Detached (Run.look f) := by
  intro stack m
  have same : f (withStack stack m) = f m := (seen (withStack stack m)).symm.trans (seen m)
  simp only [Run.look, same]
  cases f m <;> rfl

theorem note (event : Event) : Detached (Run.note event) := fun _ _ => rfl

theorem noteExecuted (mnemonic : String) : Detached (Run.noteExecuted mnemonic) := fun _ _ => rfl

theorem hostCall (call : HostCall) : Detached (Run.noteHostCall call) := fun _ _ => rfl

theorem modifyHeap (f : Heap → Heap) : Detached (Run.modifyHeap f) := fun _ _ => rfl

theorem setLocal (index : UInt32) (value : Value) : Detached (Run.setLocal index value) := by
  apply bind (look _ (fun _ => rfl))
  intro frame
  exact bind (lift _) (fun changed stack m => rfl)

theorem pushFrame (frame : Frame) : Detached (Run.pushFrame frame) := by
  intro stack m
  by_cases full : m.store.config.maxCallDepth ≤ m.store.frames.length
  · simp only [Run.pushFrame, withStack, full, if_true, mapState]
  · simp only [Run.pushFrame, withStack, full, if_false, mapState]

theorem consumeStep : Detached Run.consumeStep := by
  intro stack m
  simp only [Run.consumeStep, withStack]
  split <;> rfl

theorem checkResults (type : FunctionType) : Detached (CallParts.checkResults type) := by
  unfold CallParts.checkResults
  split
  · exact bind (note _) (fun _ => trap _)
  · exact fun _ _ => rfl

end Detached

theorem elsewhere_refines {r : Run α} (detached : Detached r) : Follows State.concrete r (elsewhere r) := by
  intro s
  have same : r s.concrete = mapState (withStack s.operands.stack) (r s.machine) := detached s.operands.stack s.machine
  rw [same]
  unfold elsewhere
  cases r s.machine <;> rfl

theorem onStack_refines {f : StackM α} {g : ListM α} (follows : Follows Operands.stack f g) :
    Follows State.concrete (Run.onStack f) (onOperands g) := by
  intro s
  have same : f s.concrete.store.stack = mapState Operands.stack (g s.operands) := follows s.operands
  simp only [Run.onStack, onOperands, same]
  cases g s.operands <;> rfl

theorem resolveArgs_refines (params : List ValueType) (given : List Value) :
    Follows State.concrete (Call.resolveArgs params given) (resolveArgs params given) := by
  apply Follows.bind (onStack_refines (popArgs_follows _))
  intro pulled
  dsimp only
  cases Call.firstMismatch (given.take params.length ++ pulled) params with
  | some t => exact elsewhere_refines (Detached.trap t)
  | none => exact Follows.pure _

theorem prepare_refines (type : FunctionType) (locals : List LocalGroup) (given : List Value) :
    Follows State.concrete (CallParts.prepare type locals given) (prepare type locals given) := by
  apply Follows.bind (elsewhere_refines (Detached.checkResults type))
  intro _
  apply Follows.bind (resolveArgs_refines _ _)
  intro args
  apply elsewhere_refines
  apply Detached.bind (Detached.look (fun m => .ok m.store.frames.length) (fun _ => rfl))
  intro depth
  exact Detached.bind (Detached.note _) (fun _ => Detached.lift _)

theorem inFrame_refines {r : Run α} {g : ListRun α} (frame : Frame) (body : Follows State.concrete r g) :
    Follows State.concrete (Run.inFrame frame r) (inFrame frame g) := by
  apply Follows.bind (elsewhere_refines (Detached.pushFrame frame))
  intro _ s
  dsimp only
  rw [body s]
  cases g s <;> rfl

theorem collect_refines (type : FunctionType) :
    Follows State.concrete (CallParts.collect type) (collect type) := by
  unfold CallParts.collect collect
  cases type.result with
  | none => exact Follows.pure _
  | some t => exact Follows.bind (onStack_refines (popTyped_follows t)) (fun _ => Follows.pure _)

theorem callHost_refines (type : FunctionType) (function : HostFunction) (given : List Value) :
    Follows State.concrete (CallParts.callHost type function given) (callHost type function given) := by
  apply Follows.bind (elsewhere_refines (Detached.checkResults type))
  intro _
  apply Follows.bind (resolveArgs_refines _ _)
  intro args
  apply elsewhere_refines
  apply Detached.bind (Detached.note _)
  intro _
  apply Detached.bind (Detached.lift _)
  intro frame
  apply Detached.bind (Detached.hostCall _)
  intro _
  exact Detached.bind (Detached.lift _) (fun _ => Detached.lift _)

theorem invokeWith_refines {execute : Program → Run Unit} {listExecute : Program → ListRun Unit}
    (bodies : ∀ p, Follows State.concrete (execute p) (listExecute p)) (f : Function) (type : FunctionType)
    (given : List Value) : Follows State.concrete (Call.invoke execute f type given) (invokeWith listExecute f type given) := by
  cases f with
  | host own function =>
    rw [invoke_host]
    exact callHost_refines type function given
  | defined own locals body =>
    rw [invoke_defined]
    apply Follows.bind (prepare_refines type locals given)
    intro frame
    exact Follows.bind (inFrame_refines frame (bodies body)) (fun _ => collect_refines type)

section Instructions

variable {caller : Caller} {listCaller : ListCaller}
  (calls : ∀ f type given, Follows State.concrete (caller f type given) (listCaller f type given))

theorem localSet_refines (index : UInt32) : Follows State.concrete (Op.runLocalSet index) (localSet index) := by
  apply Follows.bind (elsewhere_refines (Detached.look _ (fun _ => rfl)))
  intro frame
  apply Follows.bind (elsewhere_refines (Detached.lift _))
  intro old
  apply Follows.bind (onStack_refines (popTyped_follows _))
  intro value
  exact Follows.bind (elsewhere_refines (Detached.setLocal index value)) (fun _ => Follows.pure _)

theorem globalSet_refines (index : UInt32) : Follows State.concrete (Op.runGlobalSet index) (globalSet index) := by
  apply Follows.bind (elsewhere_refines (Detached.look _ (fun _ => rfl)))
  intro global
  dsimp only
  split
  · exact elsewhere_refines (Detached.trap (.immutableGlobalWrite index))
  · apply Follows.bind (onStack_refines (popTyped_follows _))
    intro value
    apply elsewhere_refines
    apply Detached.bind (Detached.lift _)
    intro changed
    exact Detached.bind (Detached.look _ (fun _ => rfl)) (fun id => Detached.modifyHeap _)

theorem load_refines (arg : MemArg) : Follows State.concrete (Op.runLoad arg) (load arg) := by
  apply Follows.bind (elsewhere_refines (Detached.look _ (fun _ => rfl)))
  intro memory
  apply Follows.bind (onStack_refines pop_follows)
  intro base
  exact Follows.bind (elsewhere_refines (Detached.lift _)) (fun value => onStack_refines (push_follows value))

theorem store_refines (arg : MemArg) : Follows State.concrete (Op.runStore arg) (store arg) := by
  apply Follows.bind (elsewhere_refines (Detached.look _ (fun _ => rfl)))
  intro id
  apply Follows.bind (elsewhere_refines (Detached.look _ (fun _ => rfl)))
  intro memory
  apply Follows.bind (onStack_refines pop_follows)
  intro value
  apply Follows.bind (onStack_refines pop_follows)
  intro base
  exact elsewhere_refines (Detached.bind (Detached.lift _) (fun changed => Detached.modifyHeap _))

include calls

theorem fromCode_refines (f : Function) (type : FunctionType) :
    Follows State.concrete (Call.fromCode caller f type) (fromCode listCaller f type) := by
  apply Follows.bind (calls f type [])
  intro result
  cases result with
  | none => exact Follows.pure ()
  | some value => exact onStack_refines (pushValue_follows value)

theorem callIndirect_refines (type table : UInt32) :
    Follows State.concrete (Op.runCallIndirect caller type table) (callIndirect listCaller type table) := by
  apply Follows.bind (elsewhere_refines (Detached.look _ (fun _ => rfl)))
  intro type
  apply Follows.bind (elsewhere_refines (Detached.look _ (fun _ => rfl)))
  intro table
  apply Follows.bind (onStack_refines pop_follows)
  intro index
  apply Follows.bind (elsewhere_refines (Detached.look _ (fun _ => rfl)))
  intro f
  exact fromCode_refines calls f type

theorem op_refines (o : Op) : Follows State.concrete (o.run caller) (op listCaller o) := by
  cases o with
  | unreachable => exact elsewhere_refines (Detached.trap _)
  | nop | br label | ret => exact Follows.pure _
  | brIf label =>
    apply Follows.bind (onStack_refines popCondition_follows)
    intro condition
    cases condition <;> exact Follows.pure _
  | brTable labels default =>
    exact Follows.bind (onStack_refines (popLabel_follows labels default)) (fun _ => Follows.pure _)
  | call index =>
    apply Follows.bind (elsewhere_refines (Detached.look _ (fun _ => rfl)))
    intro f
    exact Follows.bind (fromCode_refines calls f f.type) (fun _ => Follows.pure _)
  | callIndirect type table => exact Follows.bind (callIndirect_refines calls type table) (fun _ => Follows.pure _)
  | localGet index =>
    apply Follows.bind (elsewhere_refines (Detached.look _ (fun _ => rfl)))
    intro frame
    apply Follows.bind (elsewhere_refines (Detached.lift _))
    intro value
    exact Follows.bind (onStack_refines (pushValue_follows value)) (fun _ => Follows.pure _)
  | localSet index => exact Follows.bind (localSet_refines index) (fun _ => Follows.pure _)
  | localTee index =>
    apply Follows.bind (localSet_refines index)
    intro value
    exact Follows.bind (onStack_refines (pushValue_follows value)) (fun _ => Follows.pure _)
  | globalGet index =>
    apply Follows.bind (elsewhere_refines (Detached.look _ (fun _ => rfl)))
    intro global
    exact Follows.bind (onStack_refines (pushValue_follows global.value)) (fun _ => Follows.pure _)
  | globalSet index => exact Follows.bind (globalSet_refines index) (fun _ => Follows.pure _)
  | load arg => exact Follows.bind (load_refines arg) (fun _ => Follows.pure _)
  | store arg => exact Follows.bind (store_refines arg) (fun _ => Follows.pure _)
  | const value => exact Follows.bind (onStack_refines (push_follows value)) (fun _ => Follows.pure _)
  | eqz =>
    apply Follows.bind (onStack_refines pop_follows)
    intro value
    have zero : value = 0 ↔ value.toInt = 0 := Int32.toInt_inj.symm
    simp only [zero]
    exact Follows.bind (onStack_refines (push_follows _)) (fun _ => Follows.pure _)
  | binary op => exact Follows.bind (onStack_refines (binary_follows op)) (fun _ => Follows.pure _)

theorem act_refines (a : Arena) (id : NodeId) (node : Node) :
    Follows State.concrete (a.act caller id node) (act listCaller a id node) := by
  unfold Arena.act act
  cases node.op with
  | op o => exact Follows.bind (op_refines calls o) (fun _ => elsewhere_refines (Detached.lift _))
  | block first => exact Follows.pure _
  | loop first => exact Follows.pure _
  | cond thenFirst elseFirst =>
    apply Follows.bind (onStack_refines popCondition_follows)
    intro condition
    cases condition <;> exact Follows.pure _

theorem step_refines (a : Arena) (id : NodeId) (node : Node) :
    Follows State.concrete (a.step caller id node) (step listCaller a id node) :=
  Follows.bind (elsewhere_refines (Detached.noteExecuted _)) (fun _ => act_refines calls a id node)

end Instructions

theorem runFrom_refines (fuel : Nat) (a : Arena) (id : Option NodeId) :
    Follows State.concrete (Arena.runFrom fuel a id) (runFrom fuel a id) := by
  induction fuel generalizing a id with
  | zero =>
    cases id with
    | none => exact Follows.pure ()
    | some id => exact Follows.throw _
  | succ fuel ih =>
    cases id with
    | none => exact Follows.pure ()
    | some id =>
      apply Follows.bind (elsewhere_refines Detached.consumeStep)
      intro _
      cases a.nodes[id]? with
      | none => exact Follows.pure ()
      | some node =>
        have calls := invokeWith_refines (fun p => ih p.arena p.arena.entry)
        exact Follows.bind (step_refines calls a id node) (fun next => ih a next)

theorem invoke_refines (fuel : Nat) (f : Function) (type : FunctionType) (given : List Value) :
    Follows State.concrete (f.invoke fuel type given) (invoke fuel f type given) :=
  invokeWith_refines (fun p => runFrom_refines fuel p.arena p.arena.entry) f type given

theorem evaluate_refines (fuel : Nat) (code : Code) (type : ValueType) :
    Follows State.concrete (code.evaluate fuel type) (evaluate fuel code type) :=
  Follows.bind (inFrame_refines {} (runFrom_refines fuel _ _)) (fun _ => onStack_refines (popTyped_follows type))

theorem copyToMemory_detached (memory : UInt32) (offset : Int32) (bytes : List UInt8) :
    Detached (Instantiation.copyToMemory memory offset bytes) := by
  apply Detached.bind (Detached.look _ (fun _ => rfl))
  intro id
  apply Detached.bind (Detached.look _ (fun _ => rfl))
  intro target
  exact Detached.bind (Detached.lift _) (fun changed => Detached.modifyHeap _)

/-- The machines are the same but for their operand stacks, and the one in use holds the operands. -/
structure Stands (m : Machine) (s : State) : Prop where
  stack : Holds m.store.stack s.operands
  elsewhere : m = withStack m.store.stack s.machine

theorem stands_concrete (s : State) : Stands s.concrete s := ⟨holds_stack s.operands, rfl⟩

/-- Whatever is run in the machine, the list machine does the same, result or trap, and the operand stack still
stands for its operands afterwards. -/
structure RunsAgree (m : Machine) (s : State) : Prop where
  op : ∀ fuel o, SameOutcome Stands (Op.run (Function.invoke fuel) o m) (op (invoke fuel) o s)
  copyToMemory : ∀ memory offset bytes, SameOutcome Stands (Instantiation.copyToMemory memory offset bytes m)
    (elsewhere (Instantiation.copyToMemory memory offset bytes) s)
  execute : ∀ fuel p, SameOutcome Stands (Program.execute fuel p m) (execute fuel p s)
  invoke : ∀ fuel f type given, SameOutcome Stands (Function.invoke fuel f type given m) (invoke fuel f type given s)
  evaluate : ∀ fuel code type, SameOutcome Stands (Code.evaluate fuel code type m) (evaluate fuel code type s)

theorem runs_agree {m : Machine} {s : State} (stands : Stands m s) : RunsAgree m s := by
  have same : m = s.concrete := by
    rw [stands.elsewhere, stands.stack.eq_stack]
    rfl
  subst m
  exact
    { op := fun fuel o => (op_refines (invoke_refines fuel) o).sameOutcome stands_concrete s
      copyToMemory := fun memory offset bytes =>
        (elsewhere_refines (copyToMemory_detached memory offset bytes)).sameOutcome stands_concrete s
      execute := fun fuel p => (runFrom_refines fuel p.arena p.arena.entry).sameOutcome stands_concrete s
      invoke := fun fuel f type given => (invoke_refines fuel f type given).sameOutcome stands_concrete s
      evaluate := fun fuel code type => (evaluate_refines fuel code type).sameOutcome stands_concrete s }

/-- A stack of bytes that represents a list of integers, within its capacity, is used as that list by everything that
works on it, from a single push to a whole call, and represents a list within its capacity afterwards. -/
theorem operand_bytes_refine_list (m : Machine) (values : List Int32) (represents : Represents m.store.stack values)
    (within : ∀ bound, m.store.stack.capacity = some bound → m.store.stack.size ≤ bound) :
    ∃ o : Operands, o.values = values ∧ o.capacity = m.store.stack.capacity ∧ StackAgrees m.store.stack o ∧
      RunsAgree m ⟨o, m⟩ := by
  obtain ⟨fits, holds⟩ := holds_of_represents represents within
  exact ⟨⟨values, m.store.stack.capacity, fits⟩, rfl, rfl, stack_agrees holds, runs_agree ⟨holds, rfl⟩⟩

/-- Three integers in seven bytes of eight. -/
def crowded : Machine := { store := { stack := ⟨⟨#[0x78, 0x80, 0x80, 0x80, 0x80, 0x7F, 0x05]⟩, some 8⟩ } }

theorem crowded_refines_list :
    Represents crowded.store.stack [5, -1, -2 ^ 31] ∧ crowded.store.stack.size = 7 ∧
      ∃ o : Operands, o.values = [5, -1, -2 ^ 31] ∧ o.capacity = some 8 ∧ StackAgrees crowded.store.stack o ∧
        RunsAgree crowded ⟨o, crowded⟩ := by
  have represents : Represents crowded.store.stack [5, -1, -2 ^ 31] := by decide +kernel
  refine ⟨represents, rfl, operand_bytes_refine_list crowded _ represents ?_⟩
  intro bound limited
  cases limited
  decide

end WasmMachine.Proofs.ListMachine

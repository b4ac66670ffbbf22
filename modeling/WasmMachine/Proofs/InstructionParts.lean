import WasmMachine.Proofs.CallParts

/-! Instructions in parts. An instruction looks things up, works on the operand stack, reports, and writes a local,
a global or a memory; a call does the same around a body in its frame. A property of computations that holds of these
parts and is closed under sequencing therefore holds of every instruction, and of whole runs if entering a frame and
paying for a node keep it. -/

namespace WasmMachine.Proofs.InstructionParts
open CallParts

variable {α β : Type}

/-- The machine as look-ups see it: without operands, limits and counters. -/
def visible (m : Machine) : Machine :=
  { heap := m.heap, store := { m.store with stack := {}, config := {}, steps := none } }

theorem onStack_bind (f : StackM α) (next : α → StackM β) :
    Run.onStack (f >>= next) = Run.onStack f >>= fun a => Run.onStack (next a) := by
  funext m
  simp only [Run.onStack, bind, EStateM.bind]
  cases f m.store.stack <;> rfl

/-- A property of computations that holds of everything but writing, and is closed under sequencing. -/
structure PartsLaw (property : {α : Type} → Run α → Prop) : Prop where
  pure : ∀ {α : Type} (a : α), property (pure a)
  trap : ∀ {α : Type} (t : Trap), property (Run.trap t : Run α)
  bind : ∀ {α β : Type} {r : Run α} {next : α → Run β}, property r → (∀ a, property (next a)) → property (r >>= next)
  look : ∀ {α : Type} (f : Machine → Except Trap α), (∀ m, f (visible m) = f m) → property (Run.look f)
  push : ∀ value, property (Run.onStack (OperandStack.pushI32 value))
  pop : property (Run.onStack OperandStack.popI32)
  note : ∀ event, property (Run.note event)
  hostCall : ∀ call, property (Run.noteHostCall call)

namespace PartsLaw

variable {property : {α : Type} → Run α → Prop} (law : PartsLaw property)
include law

theorem lift (result : Except Trap α) : property (Run.lift result) := by
  cases result with
  | ok a => exact law.pure a
  | error t => exact law.trap t

theorem popThen (next : Int32 → StackM α) (rest : ∀ v, property (Run.onStack (next v))) :
    property (Run.onStack (OperandStack.popI32 >>= next)) := by
  rw [onStack_bind]
  exact law.bind law.pop rest

theorem pushValue (value : Value) : property (Run.onStack (OperandStack.push value)) := by
  cases value with
  | i32 v => exact law.push v
  | i64 v | f32 v | f64 v => exact law.trap _

theorem popTyped (type : ValueType) : property (Run.onStack (OperandStack.popTyped type)) := by
  cases type with
  | i32 => exact law.popThen _ (fun v => law.pure (Value.i32 v))
  | i64 | f32 | f64 => exact law.trap _

theorem popArgs (types : List ValueType) : property (Run.onStack (Call.popArgs types)) := by
  induction types with
  | nil => exact law.pure []
  | cons type earlier ih =>
    unfold Call.popArgs
    rw [onStack_bind]
    apply law.bind (law.popTyped type)
    intro last
    rw [onStack_bind]
    exact law.bind ih (fun values => law.pure (values ++ [last]))

theorem popCondition : property (Run.onStack OperandStack.popCondition) :=
  law.popThen _ (fun v => law.pure (v != 0))

theorem popLabel (labels : List UInt32) (default : UInt32) :
    property (Run.onStack (OperandStack.popLabel labels default)) :=
  law.popThen _ (fun v => law.pure (labels[v.toUInt32.toNat]?.getD default))

theorem binary (op : BinaryOp) : property (Run.onStack op.run) := by
  apply law.popThen
  intro b
  apply law.popThen
  intro a
  cases op.apply a b with
  | ok c => exact law.push c
  | error t => exact law.trap t

theorem load (arg : MemArg) : property (Op.runLoad arg) := by
  apply law.bind (law.look _ (fun _ => rfl))
  intro memory
  apply law.bind law.pop
  intro base
  exact law.bind (law.lift _) (fun value => law.push value)

theorem resolveArgs (params : List ValueType) (given : List Value) : property (Call.resolveArgs params given) := by
  apply law.bind (law.popArgs _)
  intro pulled
  dsimp only
  split
  · exact law.trap _
  · exact law.pure _

theorem checkResults (type : FunctionType) : property (CallParts.checkResults type) := by
  unfold CallParts.checkResults
  split
  · exact law.bind (law.note _) (fun _ => law.trap _)
  · exact law.pure _

theorem prepare (type : FunctionType) (locals : List LocalGroup) (given : List Value) :
    property (CallParts.prepare type locals given) := by
  apply law.bind (law.checkResults type)
  intro _
  apply law.bind (law.resolveArgs _ _)
  intro args
  apply law.bind (law.look (fun m => .ok m.store.frames.length) (fun _ => rfl))
  intro depth
  exact law.bind (law.note _) (fun _ => law.lift _)

theorem collect (type : FunctionType) : property (CallParts.collect type) := by
  unfold CallParts.collect
  cases type.result with
  | none => exact law.pure _
  | some t => exact law.bind (law.popTyped t) (fun _ => law.pure _)

theorem callHost (type : FunctionType) (function : HostFunction) (given : List Value) :
    property (CallParts.callHost type function given) := by
  apply law.bind (law.checkResults type)
  intro _
  apply law.bind (law.resolveArgs _ _)
  intro args
  apply law.bind (law.note _)
  intro _
  apply law.bind (law.lift _)
  intro frame
  apply law.bind (law.hostCall _)
  intro _
  exact law.bind (law.lift _) (fun _ => law.lift _)

/-- A call is made of parts but for the body inside its frame. -/
theorem invoke {execute : Program → Run Unit} (bodies : ∀ frame p, property (Run.inFrame frame (execute p)))
    (f : Function) (type : FunctionType) (given : List Value) : property (Call.invoke execute f type given) := by
  cases f with
  | host own function =>
    rw [invoke_host]
    exact law.callHost type function given
  | defined own locals body =>
    rw [invoke_defined]
    apply law.bind (law.prepare type locals given)
    intro frame
    exact law.bind (bodies frame body) (fun _ => law.collect type)

theorem fromCode {caller : Caller} (calls : ∀ f type given, property (caller f type given)) (f : Function)
    (type : FunctionType) : property (Call.fromCode caller f type) := by
  apply law.bind (calls f type [])
  intro result
  cases result with
  | none => exact law.pure ()
  | some value => exact law.pushValue value

end PartsLaw

/-- A property of computations that holds of the writing instructions too. -/
structure InstructionLaw (property : {α : Type} → Run α → Prop) : Prop extends PartsLaw property where
  localSet : ∀ index, property (Op.runLocalSet index)
  globalSet : ∀ index, property (Op.runGlobalSet index)
  store : ∀ arg, property (Op.runStore arg)

/-- A property that no change of the heap and of the innermost frame can break holds of the writing instructions. -/
theorem PartsLaw.writing {property : {α : Type} → Run α → Prop} (law : PartsLaw property)
    (heap : ∀ f, property (Run.modifyHeap f)) (frame : ∀ changed, property (Run.setFrame changed)) :
    InstructionLaw property where
  toPartsLaw := law
  localSet index := by
    apply law.bind (law.look _ (fun _ => rfl))
    intro found
    apply law.bind (law.lift _)
    intro old
    apply law.bind (law.popTyped _)
    intro value
    apply law.bind _ (fun _ => law.pure _)
    apply law.bind (law.look _ (fun _ => rfl))
    intro found
    exact law.bind (law.lift _) (fun changed => frame changed)
  globalSet index := by
    apply law.bind (law.look _ (fun _ => rfl))
    intro global
    dsimp only
    split
    · exact law.trap (.immutableGlobalWrite index)
    · apply law.bind (law.popTyped _)
      intro value
      apply law.bind (law.lift _)
      intro changed
      exact law.bind (law.look _ (fun _ => rfl)) (fun id => heap _)
  store arg := by
    apply law.bind (law.look _ (fun _ => rfl))
    intro id
    apply law.bind (law.look _ (fun _ => rfl))
    intro memory
    apply law.bind law.pop
    intro value
    apply law.bind law.pop
    intro base
    exact law.bind (law.lift _) (fun changed => heap _)

namespace InstructionLaw

variable {property : {α : Type} → Run α → Prop} (law : InstructionLaw property)
include law

theorem op {caller : Caller} (calls : ∀ f type given, property (caller f type given)) (o : Op) :
    property (o.run caller) := by
  cases o with
  | call index =>
    apply law.bind (law.look _ (fun _ => rfl))
    intro f
    exact law.bind (law.fromCode calls f f.type) (fun _ => law.pure _)
  | callIndirect type table =>
    apply law.bind _ (fun _ => law.pure _)
    apply law.bind (law.look _ (fun _ => rfl))
    intro type
    apply law.bind (law.look _ (fun _ => rfl))
    intro table
    apply law.bind law.pop
    intro index
    apply law.bind (law.look _ (fun _ => rfl))
    intro f
    exact law.fromCode calls f type
  | unreachable => exact law.trap _
  | nop | br label | ret => exact law.pure _
  | brIf label =>
    apply law.bind law.popCondition
    intro condition
    cases condition <;> exact law.pure _
  | brTable labels default => exact law.bind (law.popLabel labels default) (fun _ => law.pure _)
  | localGet index =>
    apply law.bind (law.look _ (fun _ => rfl))
    intro frame
    apply law.bind (law.lift _)
    intro value
    exact law.bind (law.pushValue value) (fun _ => law.pure _)
  | localSet index => exact law.bind (law.localSet index) (fun _ => law.pure _)
  | localTee index =>
    apply law.bind (law.localSet index)
    intro value
    exact law.bind (law.pushValue value) (fun _ => law.pure _)
  | globalGet index =>
    apply law.bind (law.look _ (fun _ => rfl))
    intro global
    exact law.bind (law.pushValue global.value) (fun _ => law.pure _)
  | globalSet index => exact law.bind (law.globalSet index) (fun _ => law.pure _)
  | load arg => exact law.bind (law.load arg) (fun _ => law.pure _)
  | store arg => exact law.bind (law.store arg) (fun _ => law.pure _)
  | const value => exact law.bind (law.push value) (fun _ => law.pure _)
  | eqz =>
    apply law.bind law.pop
    intro value
    exact law.bind (law.push _) (fun _ => law.pure _)
  | binary op => exact law.bind (law.binary op) (fun _ => law.pure _)

theorem act {caller : Caller} (calls : ∀ f type given, property (caller f type given)) (a : Arena) (id : NodeId)
    (node : Node) : property (a.act caller id node) := by
  unfold Arena.act
  cases node.op with
  | op o => exact law.bind (law.op calls o) (fun _ => law.lift _)
  | block first => exact law.pure _
  | loop first => exact law.pure _
  | cond thenFirst elseFirst =>
    apply law.bind law.popCondition
    intro condition
    cases condition <;> exact law.pure _

theorem step {caller : Caller} (count : ∀ mnemonic, property (Run.noteExecuted mnemonic))
    (calls : ∀ f type given, property (caller f type given)) (a : Arena) (id : NodeId) (node : Node) :
    property (a.step caller id node) :=
  law.bind (count _) (fun _ => law.act calls a id node)

/-- A whole run has a property if instructions have it. Calls may have another property of their own, which
follows for a body inside its frame from the one of bodies. -/
theorem runFrom {callProperty : {α : Type} → Run α → Prop} (callLaw : PartsLaw callProperty)
    (weaken : ∀ {α : Type} {r : Run α}, callProperty r → property r)
    (enter : ∀ {r : Run Unit} (frame : Frame), property r → callProperty (Run.inFrame frame r))
    (charge : property Run.consumeStep) (count : ∀ mnemonic, property (Run.noteExecuted mnemonic))
    (outOfFuel : property (throw .outOfFuel : Run Unit)) (fuel : Nat) (a : Arena) (id : Option NodeId) :
    property (Arena.runFrom fuel a id) := by
  induction fuel generalizing a id with
  | zero =>
    cases id with
    | none => exact law.pure ()
    | some id => exact outOfFuel
  | succ fuel ih =>
    cases id with
    | none => exact law.pure ()
    | some id =>
      apply law.bind charge
      intro _
      cases a.nodes[id]? with
      | none => exact law.pure ()
      | some node =>
        have calls := callLaw.invoke (fun frame p => enter frame (ih p.arena p.arena.entry))
        have step := law.step count (fun f type given => weaken (calls f type given)) a id node
        exact law.bind step (fun next => ih a next)

end InstructionLaw

end WasmMachine.Proofs.InstructionParts

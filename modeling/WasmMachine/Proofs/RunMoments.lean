import WasmMachine.Proofs.InstructionEffects

/-! The moments of a run: the states in which the machine stands between two instructions, at any depth of
nested calls. A computation only shows how it ends, so what holds all along is stated of its moments. -/

namespace WasmMachine.Proofs.RunMoments
open Sequencing CallParts InstructionEffects

/-- The instruction does nothing in this state but call a function, once it has come to the state `ready`.
This is said by way of what it does for any way of calling at all. -/
def Calls (o : Op) (m : Machine) (f : Function) (type : FunctionType) (ready : Machine) : Prop :=
  ∀ caller, o.run caller m = (do Call.fromCode caller f type; return Jump.next) ready

private theorem look_of_ok {α : Type} {f : Machine → Except Trap α} {m : Machine} {a : α} (found : f m = .ok a) :
    Run.look f m = .ok a m := by
  simp only [Run.look, Run.lift, found]

theorem calls_direct {m : Machine} {index : UInt32} {f : Function} (found : m.function index = .ok f) :
    Calls (.call index) m f f.type m :=
  fun _ => bind_of_ok (look_of_ok found)

theorem calls_indirect {m : Machine} {typeIndex tableIndex : UInt32} {type : FunctionType} {table : Table}
    {index : Int32} {stack : OperandStack} {f : Function} (typed : m.functionType typeIndex = .ok type)
    (named : m.table tableIndex = .ok table) (popped : OperandStack.popI32 m.store.stack = .ok index stack)
    (bound : m.heap.tableFunction table index.toUInt32 = .ok f) :
    Calls (.callIndirect typeIndex tableIndex) m f type { m with store := { m.store with stack } } := by
  intro caller
  have pop : Run.onStack OperandStack.popI32 m = .ok index { m with store := { m.store with stack } } := by
    simp only [Run.onStack, popped]
  have looked : Run.look (fun m => m.heap.tableFunction table index.toUInt32)
      { m with store := { m.store with stack } } = .ok f { m with store := { m.store with stack } } :=
    look_of_ok bound
  have run : Op.runCallIndirect caller typeIndex tableIndex m =
      Call.fromCode caller f type { m with store := { m.store with stack } } := by
    unfold Op.runCallIndirect
    rw [bind_of_ok (look_of_ok typed), bind_of_ok (look_of_ok named), bind_of_ok pop]
    exact bind_of_ok looked
  simp only [Op.run, EStateM.bind, bind, run]

/-- The body of a defined function starts in `entered`: the call was prepared and its frame entered. -/
def Starts (type : FunctionType) (locals : List LocalGroup) (given : List Value) (m entered : Machine) : Prop :=
  ∃ frame prepared, prepare type locals given m = .ok frame prepared ∧ Run.pushFrame frame prepared = .ok () entered

/-- The states of a body that is run from a node on, and of all bodies that are called on the way. -/
inductive Moment : (fuel : Nat) → Arena → Option NodeId → (start seen : Machine) → Prop where
  | here {fuel a id m} : Moment fuel a id m m
  -- also the state that a failed instruction has left
  | ended {fuel a id m} : Moment fuel a id m (final (Arena.runFrom fuel a id m))
  | later {fuel a id node m paid next stepped seen} (found : a.nodes[id]? = some node)
      (charged : Run.consumeStep m = .ok () paid)
      (step : a.step (Call.invoke (Program.execute fuel)) id node paid = .ok next stepped)
      (rest : Moment fuel a next stepped seen) : Moment (fuel + 1) a (some id) m seen
  | inside {fuel a id o parent next m paid reported own locals body type ready entered seen}
      (found : a.nodes[id]? = some ⟨.op o, parent, next⟩) (charged : Run.consumeStep m = .ok () paid)
      (noted : Run.noteExecuted o.mnemonic paid = .ok () reported)
      (calls : Calls o reported (.defined own locals body) type ready) (starts : Starts type locals [] ready entered)
      (rest : Moment fuel body.arena body.arena.entry entered seen) : Moment (fuel + 1) a (some id) m seen

/-- The states of a whole call: those before and after it, and those of its body, if it comes to run one. -/
inductive CallMoment (fuel : Nat) (type : FunctionType) (given : List Value) (m : Machine) :
    Function → Machine → Prop where
  | before {f} : CallMoment fuel type given m f m
  | after {f} : CallMoment fuel type given m f (final (f.invoke fuel type given m))
  | body {own locals body entered seen} (starts : Starts type locals given m entered)
      (moment : Moment fuel body.arena body.arena.entry entered seen) :
      CallMoment fuel type given m (.defined own locals body) seen

inductive EvaluationMoment (fuel : Nat) (code : Code) (type : ValueType) (m : Machine) : Machine → Prop where
  | before : EvaluationMoment fuel code type m m
  | after : EvaluationMoment fuel code type m (final (code.evaluate fuel type m))
  | body {entered seen} (pushed : Run.pushFrame {} m = .ok () entered)
      (moment : Moment fuel (Program.ofCode code).arena (Program.ofCode code).arena.entry entered seen) :
      EvaluationMoment fuel code type m seen

end WasmMachine.Proofs.RunMoments

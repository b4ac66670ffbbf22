import WasmMachine.Proofs.StateTypes

/-! Where a fault of types can come from. Operands are popped by the type that is asked for, locals and globals are
written by the type that they have, and code runs inside a frame; so of all parts of an instruction or a call, only
the arguments given from outside and the answers of host functions can have a type that does not fit. -/

namespace WasmMachine.Proofs.TypeFaults
open Sequencing CallParts InstructionEffects RunMoments StateTypes

variable {α β : Type}

/-- A value of the wrong type, or no frame to run in. -/
def TypeFault : Trap → Prop
  | .typeMismatch _ _ => True
  | .invalidIndex .frame _ => True
  | _ => False

/-- The computation was not stopped by a fault of types that has no such cause. -/
def Blames (cause : Trap → Prop) : Halt → Prop
  | .trap t => TypeFault t → cause t
  | .outOfFuel => True

theorem Blames.imp {cause other : Trap → Prop} (causes : ∀ t, cause t → other t) (halt : Halt)
    (blames : Blames cause halt) : Blames other halt := by
  cases halt with
  | outOfFuel => trivial
  | trap t => exact fun fault => causes t (blames fault)

section Parts

variable {cause : Trap → Prop} {m : Machine}

theorem settles_lift {result : Except Trap α} (fails : ∀ t, result = .error t → TypeFault t → cause t) :
    Settles (Blames cause) (fun a after => result = .ok a ∧ after = m) (Run.lift result) m := by
  cases result with
  | ok a => exact ⟨rfl, rfl⟩
  | error t => exact fails t rfl

theorem settles_look {f : Machine → Except Trap α} (fails : ∀ t, f m = .error t → TypeFault t → cause t) :
    Settles (Blames cause) (fun a after => f m = .ok a ∧ after = m) (Run.look f) m :=
  settles_lift fails

theorem settles_onStack {f : StackM α} {middle : α → OperandStack → Prop}
    (settles : Settles (fun t => ¬ TypeFault t) middle f m.store.stack) :
    Settles (Blames cause) (fun a after => ∃ stack, middle a stack ∧ after = { m with store := { m.store with stack } })
      (Run.onStack f) m := by
  cases outcome : f m.store.stack with
  | ok a stack =>
    simp only [Settles, Run.onStack, outcome]
    exact ⟨stack, settles.ok outcome, rfl⟩
  | error t stack =>
    simp only [Settles, Run.onStack, outcome]
    exact fun fault => absurd fault (settles.error outcome)

theorem settles_note (event : Event) :
    Settles (Blames cause) (fun _ after => after.store = m.store) (Run.note event) m := rfl

theorem settles_count (mnemonic : String) :
    Settles (Blames cause) (fun _ after => after.store = m.store) (Run.noteExecuted mnemonic) m := rfl

theorem settles_hostCall (call : HostCall) : Settles (Blames cause) (fun _ _ => True) (Run.noteHostCall call) m := trivial

theorem found_fault {space : IndexSpace} {index : UInt32} {o : Option α} {t : Trap}
    (failed : Machine.found space index o = .error t) (other : space ≠ .frame) : ¬ TypeFault t := by
  cases o with
  | some a => cases failed
  | none =>
    cases failed
    intro fault
    cases space with
    | frame => exact other rfl
    | _ => exact fault

/-- Looking something up by an index that means nothing is another fault. -/
theorem settles_found {f : Machine → Option α} {space : IndexSpace} {index : UInt32} (other : space ≠ .frame) :
    Settles (Blames cause) (fun a after => Machine.found space index (f m) = .ok a ∧ after = m)
      (Run.look fun m => Machine.found space index (f m)) m :=
  settles_look (fun _ failed fault => absurd fault (found_fault failed other))

end Parts

section Stack

variable (stack : OperandStack)

theorem settles_pop : Settles (fun t => ¬ TypeFault t) (fun _ _ => True) OperandStack.popI32 stack := by
  simp only [Settles, OperandStack.popI32]
  cases Leb128.readS32 stack.bytes with
  | ok v bytes => trivial
  | error e bytes => exact id

theorem settles_push (v : Int32) :
    Settles (fun t => ¬ TypeFault t) (fun _ _ => True) (OperandStack.pushI32 v) stack := by
  simp only [Settles, OperandStack.pushI32]
  cases stack.hasRoom (Leb128.encodeS32 v).length with
  | true => trivial
  | false => exact id

theorem settles_pushValue (value : Value) :
    Settles (fun t => ¬ TypeFault t) (fun _ _ => True) (OperandStack.push value) stack := by
  cases value with
  | i32 v => exact settles_push stack v
  | i64 v | f32 v | f64 v => exact id

theorem settles_popTyped (type : ValueType) :
    Settles (fun t => ¬ TypeFault t) (fun value _ => value.type = type) (OperandStack.popTyped type) stack := by
  cases type with
  | i32 => exact (settles_pop stack).bind (fun _ _ _ => rfl)
  | i64 | f32 | f64 => exact id

theorem settles_popCondition :
    Settles (fun t => ¬ TypeFault t) (fun _ _ => True) OperandStack.popCondition stack :=
  (settles_pop stack).bind (fun _ _ _ => trivial)

theorem settles_popLabel (labels : List UInt32) (default : UInt32) :
    Settles (fun t => ¬ TypeFault t) (fun _ _ => True) (OperandStack.popLabel labels default) stack :=
  (settles_pop stack).bind (fun _ _ _ => trivial)

theorem settles_popArgs (types : List ValueType) :
    Settles (fun t => ¬ TypeFault t) (fun values _ => values.map Value.type = types.reverse) (Call.popArgs types)
      stack := by
  induction types generalizing stack with
  | nil => exact rfl
  | cons type earlier ih =>
    apply (settles_popTyped stack type).bind
    intro last between typed
    apply (ih between).bind
    intro values after others
    change (values ++ [last]).map Value.type = (type :: earlier).reverse
    simp only [List.map_append, others, List.map_cons, typed, List.map_nil, List.reverse_cons]

theorem settles_binary (op : BinaryOp) :
    Settles (fun t => ¬ TypeFault t) (fun _ _ => True) op.run stack := by
  apply (settles_pop stack).bind
  intro b between _
  apply (settles_pop between).bind
  intro a after _
  cases op with
  | remS =>
    simp only [BinaryOp.apply]
    by_cases zero : b = 0
    · rw [if_pos zero]
      exact id
    · rw [if_neg zero]
      exact settles_push after _
  | add | ltS | geS | geU => exact settles_push after _

end Stack

section Calls

/-- Operands that were asked for by their types cannot be the ones that do not fit. -/
theorem firstMismatch_append {taken pulled : List Value} {params : List ValueType}
    (typed : pulled.map Value.type = params.drop taken.length) :
    Call.firstMismatch (taken ++ pulled) params = Call.firstMismatch taken params := by
  induction taken generalizing params with
  | nil =>
    induction pulled generalizing params with
    | nil => rfl
    | cons value pulled ih =>
      cases params with
      | nil => rfl
      | cons type params =>
        obtain ⟨same, others⟩ := List.cons.inj typed
        simp only [List.nil_append, Call.firstMismatch, same, if_true]
        exact ih others
  | cons value taken ih =>
    cases params with
    | nil => rfl
    | cons type params =>
      simp only [List.cons_append, Call.firstMismatch]
      rw [ih typed]

theorem types_of_no_mismatch {values : List Value} {types : List ValueType} (length : values.length = types.length)
    (none : Call.firstMismatch values types = none) : values.map Value.type = types := by
  induction values generalizing types with
  | nil => exact (List.eq_nil_of_length_eq_zero length.symm).symm
  | cons value values ih =>
    cases types with
    | nil => cases length
    | cons type types =>
      simp only [Call.firstMismatch] at none
      split at none
      next same => rw [List.map_cons, same, ih (Nat.succ.inj length) none]
      · cases none

/-- The first of the given arguments that does not fit its parameter. -/
def GivenMismatch (type : FunctionType) (given : List Value) (t : Trap) : Prop :=
  Call.firstMismatch (given.take type.params.length) type.params = some t

theorem no_givenMismatch (type : FunctionType) (t : Trap) : ¬ GivenMismatch type [] t := by
  unfold GivenMismatch
  rw [List.take_nil]
  intro impossible
  cases impossible

variable {cause : Trap → Prop} {type : FunctionType} {given : List Value} {m : Machine}

theorem settles_resolveArgs (given_cause : ∀ t, GivenMismatch type given t → cause t) :
    Settles (Blames cause) (fun args _ => args.map Value.type = type.params) (Call.resolveArgs type.params given) m := by
  apply (settles_onStack (settles_popArgs m.store.stack _)).bind
  rintro pulled _ ⟨stack, typed, rfl⟩
  rw [List.reverse_reverse] at typed
  dsimp only
  rw [firstMismatch_append typed]
  cases mismatch : Call.firstMismatch (given.take type.params.length) type.params with
  | some t => exact fun _ => given_cause t mismatch
  | none =>
    refine types_of_no_mismatch ?_ ((firstMismatch_append typed).trans mismatch)
    have pulledLength := congrArg List.length typed
    simp only [List.length_map, List.length_drop, List.length_take, List.length_append] at pulledLength ⊢
    omega

theorem settles_checkResults : Settles (Blames cause) (fun _ after => after = m) (checkResults type) m := by
  unfold checkResults
  split
  · exact fun fault => False.elim fault
  · exact rfl

theorem locals_create {args : List Value} {declared : List LocalGroup} {frame : Frame}
    (created : Frame.create args declared = .ok frame) :
    frame.locals.toList = args ++ Frame.zeros declared := by
  simp only [Frame.create] at created
  split at created
  · cases created
  · cases created
    rfl

theorem types_zeros (declared : List LocalGroup) :
    (Frame.zeros declared).map Value.type =
      declared.flatMap fun group => List.replicate group.count.toNat group.type := by
  simp only [Frame.zeros, List.map_flatMap, List.map_replicate, zero_type]

theorem create_fault {args : List Value} {declared : List LocalGroup} {t : Trap}
    (failed : Frame.create args declared = .error t) : ¬ TypeFault t := by
  simp only [Frame.create] at failed
  split at failed
  · cases failed
    exact id
  · cases failed

/-- The frame of a call has the locals that the type of the call and the function declare. -/
theorem settles_prepare {locals : List LocalGroup} (given_cause : ∀ t, GivenMismatch type given t → cause t) :
    Settles (Blames cause) (fun frame _ => frameTypes frame = signature type locals) (prepare type locals given) m := by
  apply settles_checkResults.bind
  rintro _ _ rfl
  apply (settles_resolveArgs given_cause).bind
  intro args between typed
  apply (settles_lift (fun t failed fault => absurd fault (create_fault failed))).weaken
  rintro frame _ ⟨created, _⟩
  rw [frameTypes, locals_create created, List.map_append, typed, types_zeros]
  rfl

theorem settles_collect :
    Settles (Blames cause) (fun result _ => result.map Value.type = type.result) (collect type) m := by
  unfold collect
  cases type.result with
  | none => exact rfl
  | some expected =>
    apply (settles_onStack (settles_popTyped m.store.stack expected)).bind
    rintro value _ ⟨stack, typed, rfl⟩
    exact congrArg some typed

/-- The arguments of a call, once it is allowed at all. -/
def arguments (type : FunctionType) (given : List Value) : Run (List Value) := do
  checkResults type
  Call.resolveArgs type.params given

theorem settles_arguments (given_cause : ∀ t, GivenMismatch type given t → cause t) :
    Settles (Blames cause) (fun args _ => args.map Value.type = type.params) (arguments type given) m := by
  apply settles_checkResults.bind
  rintro _ _ rfl
  exact settles_resolveArgs given_cause

/-- The host function is called, and its answer is this trap, or a result that is turned into it because it is not of
the declared type. -/
def HostAnswers (type : FunctionType) (function : HostFunction) (given : List Value) (m : Machine) (t : Trap) : Prop :=
  ∃ args ready, arguments type given m = .ok args ready ∧
    (function.run args = .error t ∨ ∃ result, function.run args = .ok result ∧
      Call.hostResult type.result result = .error t)

theorem hostResult_type {declared : Option ValueType} {result checked : Option Value}
    (outcome : Call.hostResult declared result = .ok checked) : checked.map Value.type = declared := by
  unfold Call.hostResult at outcome
  split at outcome
  · cases outcome
    rfl
  · split at outcome
    · cases outcome
      assumption
    · cases outcome

theorem settles_callHost {function : HostFunction} (given_cause : ∀ t, GivenMismatch type given t → cause t)
    (host_cause : ∀ t, HostAnswers type function given m t → cause t) :
    Settles (Blames cause) (fun result _ => result.map Value.type = type.result) (callHost type function given) m := by
  have parts : callHost type function given = (do
      let args ← arguments type given
      Run.note (.calledHost type)
      let frame ← Run.lift (Frame.create args [])
      Run.noteHostCall ⟨function.name, frame.locals.toList⟩
      let result ← Run.lift (function.run frame.locals.toList)
      Run.lift (Call.hostResult type.result result)) := by
    simp only [callHost, arguments, bind_assoc]
  rw [parts]
  apply (settles_arguments given_cause).known.bind
  rintro args ready ⟨resolved, _⟩
  apply (settles_note (.calledHost type)).bind
  intro _ _ _
  apply (settles_lift (fun t failed fault => absurd fault (create_fault failed))).bind
  rintro frame _ ⟨created, rfl⟩
  have locals : frame.locals.toList = args := (locals_create created).trans (List.append_nil args)
  rw [locals]
  apply (settles_hostCall ⟨function.name, args⟩).bind
  intro _ _ _
  apply (settles_lift (fun t failed _ => host_cause t ⟨args, ready, resolved, .inl failed⟩)).bind
  rintro result _ ⟨answered, rfl⟩
  apply (settles_lift (fun t failed _ => host_cause t ⟨args, ready, resolved, .inr ⟨result, answered, failed⟩⟩)).weaken
  rintro checked _ ⟨fits, _⟩
  exact hostResult_type fits

theorem settles_inFrame {frame : Frame} {r : Run α} (body_cause : ∀ entered after t,
      Run.pushFrame frame m = .ok () entered → r entered = .error (.trap t) after → TypeFault t → cause t) :
    Settles (Blames cause) (fun _ _ => True) (Run.inFrame frame r) m := by
  cases pushed : Run.pushFrame frame m with
  | error halt after =>
    obtain ⟨rfl, _⟩ := pushFrame_eq_error pushed
    rw [Settles, inFrame_of_full pushed]
    exact fun fault => False.elim fault
  | ok _ entered =>
    rw [Settles, inFrame_of_entered pushed]
    cases ran : r entered with
    | ok _ after => trivial
    | error halt after =>
      cases halt with
      | outOfFuel => trivial
      | trap t => exact body_cause entered after t pushed ran

/-- A call of a defined function fails by its arguments or by its body. -/
theorem settles_invoke_defined {own : FunctionType} {locals : List LocalGroup} {body : Program}
    {execute : Program → Run Unit} (given_cause : ∀ t, GivenMismatch type given t → cause t)
    (body_cause : ∀ entered after t, Starts type locals given m entered →
      execute body entered = .error (.trap t) after → TypeFault t → cause t) :
    Settles (Blames cause) (fun result _ => result.map Value.type = type.result)
      (Call.invoke execute (.defined own locals body) type given) m := by
  rw [invoke_defined]
  apply (settles_prepare given_cause).known.bind
  rintro frame prepared ⟨outcome, _⟩
  have inside : Settles (Blames cause) (fun _ _ => True) (Run.inFrame frame (execute body)) prepared :=
    settles_inFrame (fun entered after t pushed => body_cause entered after t ⟨frame, prepared, outcome, pushed⟩)
  exact inside.bind (fun _ _ _ => settles_collect)

end Calls

section Instructions

variable {cause : Trap → Prop} {m : Machine}

theorem frame_of_nonempty (inside : m.store.frames ≠ []) : ∃ frame, m.frame = .ok frame := by
  cases frames : m.store.frames with
  | nil => exact absurd frames inside
  | cons frame others => exact ⟨frame, by rw [Machine.frame, frames]; rfl⟩

theorem frame_fault (inside : m.store.frames ≠ []) {t : Trap} (failed : m.frame = .error t) : ¬ TypeFault t := by
  obtain ⟨frame, found⟩ := frame_of_nonempty inside
  cases found.symm.trans failed

theorem get_fault {frame : Frame} {index : UInt32} {t : Trap} (failed : frame.get index = .error t) :
    ¬ TypeFault t := by
  unfold Frame.get at failed
  split at failed
  · cases failed
  · cases failed
    exact id

/-- The value was popped by the type of the local that it is written to. -/
theorem set_fault {frame : Frame} {index : UInt32} {old value : Value} {t : Trap} (found : frame.get index = .ok old)
    (same : value.type = old.type) (failed : frame.set index value = .error t) : ¬ TypeFault t := by
  unfold Frame.get at found
  unfold Frame.set at failed
  split at failed
  · cases failed
    exact id
  next here =>
    rw [here] at found
    cases found
    rw [if_pos same.symm] at failed
    cases failed

theorem global_fault {g : Global} {index : UInt32} {value : Value} {t : Trap} (typed : value.type = g.type.valueType)
    (failed : g.set index value = .error t) : ¬ TypeFault t := by
  unfold Global.set at failed
  split at failed
  · cases failed
    exact id
  · rw [Global.checkType, if_pos typed] at failed
    cases failed

theorem settles_setLocal {frame : Frame} {index : UInt32} {old value : Value} (here : m.frame = .ok frame)
    (found : frame.get index = .ok old) (same : value.type = old.type) :
    Settles (Blames cause) (fun _ _ => True) (Run.setLocal index value) m := by
  apply (settles_look (fun t failed _ => nomatch here.symm.trans failed)).bind
  rintro again _ ⟨still, rfl⟩
  obtain rfl : frame = again := Except.ok.inj (here.symm.trans still)
  apply (settles_lift (fun t failed fault => absurd fault (set_fault found same failed))).bind
  intro changed _ _
  trivial

theorem settles_localSet (inside : m.store.frames ≠ []) (index : UInt32) :
    Settles (Blames cause) (fun _ _ => True) (Op.runLocalSet index) m := by
  apply (settles_look (fun t failed fault => absurd fault (frame_fault inside failed))).bind
  rintro frame _ ⟨here, rfl⟩
  apply (settles_lift (fun t failed fault => absurd fault (get_fault failed))).bind
  rintro old between ⟨found, rfl⟩
  apply (settles_onStack (settles_popTyped between.store.stack old.type)).bind
  rintro value _ ⟨stack, typed, rfl⟩
  have written : Settles (Blames cause) (fun _ _ => True) (Run.setLocal index value)
      { between with store := { between.store with stack } } := settles_setLocal here found typed
  exact written.bind (fun _ _ _ => trivial)

theorem settles_globalSet (index : UInt32) : Settles (Blames cause) (fun _ _ => True) (Op.runGlobalSet index) m := by
  apply (settles_found (by decide)).bind
  rintro global between ⟨_, rfl⟩
  dsimp only
  split
  · exact fun fault => False.elim fault
  · apply (settles_onStack (settles_popTyped between.store.stack _)).bind
    rintro value _ ⟨stack, typed, rfl⟩
    apply (settles_lift (fun t failed fault => absurd fault (global_fault typed failed))).bind
    rintro changed _ ⟨_, rfl⟩
    apply (settles_found (by decide)).bind
    intro id _ _
    trivial

theorem read_fault {memory : Memory} {address : UInt64} {t : Trap} (failed : memory.readI32 address = .error t) :
    ¬ TypeFault t := by
  unfold Memory.readI32 Memory.read at failed
  split at failed
  · cases failed
  · cases failed
    exact id

theorem write_fault {memory : Memory} {address : UInt64} {new : List UInt8} {t : Trap}
    (failed : memory.write address new = .error t) : ¬ TypeFault t := by
  unfold Memory.write at failed
  split at failed
  · cases failed
  · cases failed
    exact id

theorem follow_fault {a : Arena} {source : NodeId} {next : Option NodeId} {jump : Jump} {t : Trap}
    (failed : a.follow source next jump = .error t) : ¬ TypeFault t := by
  cases jump with
  | next | leave => cases failed
  | branch label =>
    simp only [Arena.follow, Arena.branchTarget] at failed
    split at failed
    · cases failed
      exact id
    · split at failed <;> cases failed

theorem tableFunction_fault {heap : Heap} {table : Table} {index : UInt32} {t : Trap}
    (failed : heap.tableFunction table index = .error t) : ¬ TypeFault t := by
  unfold Heap.tableFunction at failed
  split at failed
  · cases failed
  · cases failed
    exact id

theorem settles_load (arg : MemArg) : Settles (Blames cause) (fun _ _ => True) (Op.runLoad arg) m := by
  apply (settles_found (by decide)).bind
  rintro memory between ⟨_, rfl⟩
  apply (settles_onStack (settles_pop between.store.stack)).bind
  rintro base _ ⟨stack, _, rfl⟩
  apply (settles_lift (fun t failed fault => absurd fault (read_fault failed))).bind
  rintro value after ⟨_, rfl⟩
  exact (settles_onStack (settles_push stack value)).weaken (fun _ _ _ => trivial)

theorem settles_store (arg : MemArg) : Settles (Blames cause) (fun _ _ => True) (Op.runStore arg) m := by
  apply (settles_found (by decide)).bind
  rintro id _ ⟨_, rfl⟩
  apply (settles_found (by decide)).bind
  rintro memory between ⟨_, rfl⟩
  apply (settles_onStack (settles_pop between.store.stack)).bind
  rintro value _ ⟨stack, _, rfl⟩
  apply (settles_onStack (settles_pop stack)).bind
  rintro base _ ⟨lower, _, rfl⟩
  apply (settles_lift (fun t failed fault => absurd fault (write_fault failed))).bind
  intro changed _ _
  trivial

/-- Inside a frame no instruction but a call can come to a fault of types. -/
theorem op_calls_or_settles (cause : Trap → Prop) (inside : m.store.frames ≠ []) (o : Op) :
    (∃ f type ready, Calls o m f type ready) ∨
      ∀ caller, Settles (Blames cause) (fun _ _ => True) (o.run caller) m := by
  have value_pushed : ∀ (value : Value) (between : Machine), Settles (Blames cause) (fun _ _ => True)
      (do Run.onStack (OperandStack.push value); return Jump.next) between := fun value between =>
    (settles_onStack (settles_pushValue between.store.stack value)).bind (fun _ _ _ => trivial)
  cases o with
  | call index =>
    by_cases called : ∃ f type ready, Calls (.call index) m f type ready
    · exact .inl called
    · refine .inr (fun caller => ?_)
      apply (settles_found (by decide)).bind
      rintro f _ ⟨found, _⟩
      exact absurd ⟨f, f.type, m, calls_direct found⟩ called
  | callIndirect typeIndex tableIndex =>
    by_cases called : ∃ f type ready, Calls (.callIndirect typeIndex tableIndex) m f type ready
    · exact .inl called
    · have refused : ∀ caller, Settles (Blames cause) (fun _ _ => False)
          (Op.runCallIndirect caller typeIndex tableIndex) m := by
        intro caller
        apply (settles_found (by decide)).bind
        rintro type _ ⟨typed, rfl⟩
        apply (settles_found (by decide)).bind
        rintro table between ⟨named, rfl⟩
        apply (settles_onStack (settles_pop between.store.stack).known).bind
        rintro index _ ⟨stack, ⟨popped, _⟩, rfl⟩
        apply (settles_look (fun t failed fault => absurd fault (tableFunction_fault failed))).bind
        rintro f _ ⟨bound, _⟩
        exact absurd ⟨f, type, _, calls_indirect typed named popped bound⟩ called
      exact .inr (fun caller => (refused caller).bind (fun _ _ impossible => False.elim impossible))
  | unreachable => exact .inr (fun _ fault => False.elim fault)
  | nop | br label | ret => exact .inr (fun _ => trivial)
  | brIf label =>
    refine .inr (fun _ => ?_)
    apply (settles_onStack (settles_popCondition m.store.stack)).bind
    intro condition _ _
    cases condition <;> trivial
  | brTable labels default =>
    exact .inr (fun _ => (settles_onStack (settles_popLabel m.store.stack labels default)).bind (fun _ _ _ => trivial))
  | localGet index =>
    refine .inr (fun _ => ?_)
    apply (settles_look (fun t failed fault => absurd fault (frame_fault inside failed))).bind
    rintro frame _ ⟨_, rfl⟩
    apply (settles_lift (fun t failed fault => absurd fault (get_fault failed))).bind
    rintro value between ⟨_, rfl⟩
    exact value_pushed value between
  | localSet index => exact .inr (fun _ => (settles_localSet inside index).bind (fun _ _ _ => trivial))
  | localTee index =>
    exact .inr (fun _ => (settles_localSet inside index).bind (fun value between _ => value_pushed value between))
  | globalGet index =>
    refine .inr (fun _ => ?_)
    apply (settles_found (by decide)).bind
    rintro global between _
    exact value_pushed global.value between
  | globalSet index => exact .inr (fun _ => (settles_globalSet index).bind (fun _ _ _ => trivial))
  | load arg => exact .inr (fun _ => (settles_load arg).bind (fun _ _ _ => trivial))
  | store arg => exact .inr (fun _ => (settles_store arg).bind (fun _ _ _ => trivial))
  | const value =>
    exact .inr (fun _ => (settles_onStack (settles_push m.store.stack value)).bind (fun _ _ _ => trivial))
  | eqz =>
    refine .inr (fun _ => ?_)
    apply (settles_onStack (settles_pop m.store.stack)).bind
    rintro value _ ⟨stack, _, rfl⟩
    exact (settles_onStack (settles_push stack _)).bind (fun _ _ _ => trivial)
  | binary op =>
    exact .inr (fun _ => (settles_onStack (settles_binary m.store.stack op)).bind (fun _ _ _ => trivial))

end Instructions

end WasmMachine.Proofs.TypeFaults

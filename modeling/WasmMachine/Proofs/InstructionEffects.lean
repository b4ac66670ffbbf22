import Mathlib.Logic.Relation
import WasmMachine.Proofs.CallParts
import WasmMachine.Proofs.ExecutionFuel
import WasmMachine.Proofs.InstructionParts

/-! What running code can do to the machine. The elementary effects are listed once, each with the checks
that come before it; an instruction that is no call is a chain of them. A property of computations that
holds of such chains and is closed under sequencing therefore holds of all that instructions are made of. -/

namespace WasmMachine.Proofs.InstructionEffects
open Sequencing ExecutionFuel CallParts InstructionParts Relation

variable {α β : Type}

/-- The stack after one integer was pushed or popped. A failed pop loses what it has read. -/
inductive StackEffect : OperandStack → OperandStack → Prop where
  | push {before after} (value : Int32) (pushed : OperandStack.pushI32 value before = .ok () after) :
      StackEffect before after
  | pop {before after} (value : Int32) (popped : OperandStack.popI32 before = .ok value after) :
      StackEffect before after
  | underflow {before after} (trap : Trap) (failed : OperandStack.popI32 before = .error trap after) :
      StackEffect before after

/-- What needs neither a frame nor the heap: work on the stack, and reports with what they count. -/
inductive QuietEffect : Machine → Machine → Prop where
  | stack {m stack} (changed : StackEffect m.store.stack stack) :
      QuietEffect m { m with store := { m.store with stack } }
  | note {m} (event : Event) : QuietEffect m { m with journal := m.journal.note event }
  | executed {m} (mnemonic : String) : QuietEffect m
      { m with
        journal := m.journal.note (.executed mnemonic)
        usage := { m.usage with executed := m.usage.executed + 1 } }
  | hostCall {m} (call : HostCall) : QuietEffect m { m with journal := m.journal.noteHostCall call }

/-- Everything that one instruction can do at once. -/
inductive Effect : Machine → Machine → Prop where
  | quiet {before after} (effect : QuietEffect before after) : Effect before after
  | setLocal {m frame others index value changed} (innermost : m.store.frames = frame :: others)
      (set : frame.set index value = .ok changed) :
      Effect m { m with store := { m.store with frames := changed :: others } }
  | setGlobal {m id global index value changed} (place : m.store.globals[index.toNat]? = some id)
      (found : m.heap.globals[id]? = some global) (set : global.set index value = .ok changed) :
      Effect m { m with heap := m.heap.setGlobal id changed }
  | setMemory {m id memory address value changed} (place : m.store.memories[0]? = some id)
      (found : m.heap.memories[id]? = some memory) (written : memory.writeI32 address value = .ok changed) :
      Effect m { m with heap := m.heap.setMemory id changed }

def final : EStateM.Result Halt Machine α → Machine
  | .ok _ m => m
  | .error _ m => m

theorem final_leave (outcome : EStateM.Result Halt Machine α) : final (leave outcome) = (final outcome).popFrame := by
  cases outcome <;> rfl

theorem final_mapState (f : Machine → Machine) (outcome : EStateM.Result Halt Machine α) :
    final (mapState f outcome) = f (final outcome) := by
  cases outcome <;> rfl

/-- From this state on, the computation needs no fuel and does nothing but a chain of the given effects. -/
def ChainFrom (effects : Machine → Machine → Prop) (r : Run α) (m : Machine) : Prop :=
  Finished (r m) ∧ ReflTransGen effects m (final (r m))

def Quiet (r : Run α) : Prop := ∀ m, ChainFrom QuietEffect r m

def Plain (r : Run α) : Prop := ∀ m, ChainFrom Effect r m

theorem Quiet.plain {r : Run α} (quiet : Quiet r) : Plain r :=
  fun m => ⟨(quiet m).1, (quiet m).2.lift id (fun _ _ effect => .quiet effect)⟩

theorem Quiet.pure (a : α) : Quiet (pure a) := fun _ => ⟨trivial, .refl⟩

theorem Quiet.trap (t : Trap) : Quiet (Run.trap t : Run α) := fun _ => ⟨trivial, .refl⟩

theorem Quiet.note (event : Event) : Quiet (Run.note event) := fun _ => ⟨trivial, .single (.note event)⟩

theorem Quiet.noteExecuted (mnemonic : String) : Quiet (Run.noteExecuted mnemonic) :=
  fun _ => ⟨trivial, .single (.executed mnemonic)⟩

theorem Quiet.noteHostCall (call : HostCall) : Quiet (Run.noteHostCall call) :=
  fun _ => ⟨trivial, .single (.hostCall call)⟩

section Chains

variable {effects : Machine → Machine → Prop} {m : Machine}

/-- A later computation may rely on all that is known of the state in which it starts. -/
theorem ChainFrom.bind {r : Run α} {next : α → Run β} (first : ChainFrom effects r m)
    (rest : ∀ a after, r m = .ok a after → ChainFrom effects (next a) after) : ChainFrom effects (r >>= next) m := by
  obtain ⟨finished, chain⟩ := first
  unfold ChainFrom
  cases outcome : r m with
  | ok a after =>
    rw [outcome] at chain
    rw [bind_of_ok outcome]
    obtain ⟨later, more⟩ := rest a after outcome
    exact ⟨later, chain.trans more⟩
  | error halt after =>
    rw [outcome] at finished chain
    rw [bind_of_error outcome]
    exact ⟨by cases halt <;> exact finished, chain⟩

theorem ChainFrom.lift {result : Except Trap α} {next : α → Run β}
    (rest : ∀ a, result = .ok a → ChainFrom effects (next a) m) : ChainFrom effects (Run.lift result >>= next) m := by
  cases result with
  | ok a => exact rest a rfl
  | error t => exact ⟨trivial, .refl⟩

theorem ChainFrom.look {f : Machine → Except Trap α} {next : α → Run β}
    (rest : ∀ a, f m = .ok a → ChainFrom effects (next a) m) : ChainFrom effects (Run.look f >>= next) m :=
  ChainFrom.lift rest

end Chains

theorem Quiet.bind {r : Run α} {next : α → Run β} (first : Quiet r) (rest : ∀ a, Quiet (next a)) :
    Quiet (r >>= next) :=
  fun m => ChainFrom.bind (first m) (fun a after _ => rest a after)

theorem Plain.bind {r : Run α} {next : α → Run β} (first : Plain r) (rest : ∀ a, Plain (next a)) :
    Plain (r >>= next) :=
  fun m => ChainFrom.bind (first m) (fun a after _ => rest a after)

theorem Quiet.lift (result : Except Trap α) : Quiet (Run.lift result) := by
  intro m
  cases result with
  | ok a => exact ⟨trivial, .refl⟩
  | error t => exact ⟨trivial, .refl⟩

theorem Quiet.look (f : Machine → Except Trap α) : Quiet (Run.look f) := fun m => Quiet.lift (f m) m

def finalStack : EStateM.Result Trap OperandStack α → OperandStack
  | .ok _ stack => stack
  | .error _ stack => stack

def PlainStack (f : StackM α) : Prop := ∀ stack, ReflTransGen StackEffect stack (finalStack (f stack))

theorem PlainStack.bind {f : StackM α} {next : α → StackM β} (first : PlainStack f)
    (rest : ∀ a, PlainStack (next a)) : PlainStack (f >>= next) := by
  intro stack
  have chain := first stack
  cases outcome : f stack with
  | ok a after =>
    rw [outcome] at chain
    rw [bind_of_ok outcome]
    exact chain.trans (rest a after)
  | error t after =>
    rw [outcome] at chain
    rw [bind_of_error outcome]
    exact chain

theorem PlainStack.pure (a : α) : PlainStack (pure a) := fun _ => .refl

theorem PlainStack.throw (t : Trap) : PlainStack (throw t : StackM α) := fun _ => .refl

theorem PlainStack.pushI32 (value : Int32) : PlainStack (OperandStack.pushI32 value) := by
  intro stack
  cases outcome : OperandStack.pushI32 value stack with
  | ok _ after => exact .single (.push value outcome)
  | error t after =>
    unfold OperandStack.pushI32 at outcome
    simp only at outcome
    split at outcome
    · cases outcome
    · cases outcome
      exact .refl

theorem PlainStack.popI32 : PlainStack OperandStack.popI32 := by
  intro stack
  cases outcome : OperandStack.popI32 stack with
  | ok value after => exact .single (.pop value outcome)
  | error t after => exact .single (.underflow t outcome)

theorem PlainStack.popTyped (type : ValueType) : PlainStack (OperandStack.popTyped type) := by
  cases type with
  | i32 => exact PlainStack.bind PlainStack.popI32 (fun _ => PlainStack.pure _)
  | i64 | f32 | f64 => exact PlainStack.throw _

theorem stack_chain {m : Machine} {stack : OperandStack} (chain : ReflTransGen StackEffect m.store.stack stack) :
    ReflTransGen QuietEffect m { m with store := { m.store with stack } } := by
  induction chain with
  | refl => exact .refl
  | tail _ last ih => exact ih.tail (.stack last)

theorem Quiet.onStack {f : StackM α} (plain : PlainStack f) : Quiet (Run.onStack f) := by
  intro m
  have chain := plain m.store.stack
  simp only [ChainFrom, Run.onStack]
  cases outcome : f m.store.stack with
  | ok a stack =>
    rw [outcome] at chain
    exact ⟨trivial, stack_chain chain⟩
  | error t stack =>
    rw [outcome] at chain
    exact ⟨trivial, stack_chain chain⟩

/-- Work on the stack leaves everything else as it is. -/
theorem ChainFrom.onStack {f : StackM α} {next : α → Run β} {m : Machine} (plain : PlainStack f)
    (rest : ∀ a stack, ChainFrom Effect (next a) { m with store := { m.store with stack } }) :
    ChainFrom Effect (Run.onStack f >>= next) m := by
  apply ChainFrom.bind ((Quiet.onStack plain).plain m)
  intro a after outcome
  unfold Run.onStack at outcome
  split at outcome
  · cases outcome
    exact rest _ _
  · cases outcome

theorem found_eq_ok {ι : Type} {space : IndexSpace} {index : UInt32} {place : Option ι} {stored : ι → Option α} {a : α}
    (found : Machine.found space index (place.bind stored) = .ok a) : ∃ id, place = some id ∧ stored id = some a := by
  cases place with
  | none => cases found
  | some id =>
    cases held : stored id with
    | none => simp [held, Machine.found] at found
    | some other =>
      simp only [Option.bind_some, held, Machine.found, Except.ok.injEq] at found
      exact ⟨id, rfl, held.trans (congrArg some found)⟩

theorem Plain.setLocal (index : UInt32) (value : Value) : Plain (Run.setLocal index value) := by
  intro m
  apply ChainFrom.look
  intro frame here
  apply ChainFrom.lift
  intro changed set
  cases frames : m.store.frames with
  | nil => simp [Machine.frame, Machine.found, frames] at here
  | cons innermost others =>
    simp only [Machine.frame, frames, List.head?_cons, Machine.found, Except.ok.injEq] at here
    subst innermost
    refine ⟨trivial, .single ?_⟩
    simpa only [Run.setFrame, Run.modifyStore, final, frames, List.tail_cons] using Effect.setLocal frames set

theorem Plain.localSet (index : UInt32) : Plain (Op.runLocalSet index) := by
  apply Plain.bind (Quiet.look _).plain
  intro frame
  apply Plain.bind (Quiet.lift _).plain
  intro old
  apply Plain.bind (Quiet.onStack (PlainStack.popTyped _)).plain
  intro value
  exact Plain.bind (Plain.setLocal index value) (fun _ => (Quiet.pure _).plain)

theorem Plain.globalSet (index : UInt32) : Plain (Op.runGlobalSet index) := by
  intro m
  apply ChainFrom.look
  intro global found
  obtain ⟨id, place, stored⟩ := found_eq_ok found
  by_cases mutable : global.type.isMutable = true
  · simp only [mutable, Bool.not_true, Bool.false_eq_true, if_false]
    apply ChainFrom.onStack (PlainStack.popTyped _)
    intro value stack
    apply ChainFrom.lift
    intro changed set
    apply ChainFrom.look
    intro other named
    simp only [Machine.globalId, place, Machine.found, Except.ok.injEq] at named
    subst other
    exact ⟨trivial, .single (.setGlobal place stored set)⟩
  · simp only [mutable, Bool.not_false, if_true]
    exact ⟨trivial, .refl⟩

theorem Plain.store (arg : MemArg) : Plain (Op.runStore arg) := by
  intro m
  apply ChainFrom.look
  intro id named
  apply ChainFrom.look
  intro memory found
  obtain ⟨place, here, stored⟩ := found_eq_ok found
  apply ChainFrom.onStack PlainStack.popI32
  intro value stack
  apply ChainFrom.onStack PlainStack.popI32
  intro base stack
  apply ChainFrom.lift
  intro changed written
  simp only [Machine.memoryId, here, Machine.found, Except.ok.injEq] at named
  subst place
  exact ⟨trivial, .single (.setMemory here stored written)⟩

theorem quiet_parts : PartsLaw Quiet where
  pure := Quiet.pure
  trap := Quiet.trap
  bind := Quiet.bind
  look f _ := Quiet.look f
  push value := Quiet.onStack (PlainStack.pushI32 value)
  pop := Quiet.onStack PlainStack.popI32
  note := Quiet.note
  hostCall := Quiet.noteHostCall

/-- A property of computations that holds of all quiet ones and is closed under sequencing. -/
structure QuietLaw (property : {α : Type} → Run α → Prop) : Prop where
  quiet : ∀ {α : Type} {r : Run α}, Quiet r → property r
  bind : ∀ {α β : Type} {r : Run α} {next : α → Run β}, property r → (∀ a, property (next a)) → property (r >>= next)

/-- A property of computations that holds of all plain ones and is closed under sequencing. -/
structure Law (property : {α : Type} → Run α → Prop) : Prop extends QuietLaw property where
  plain : ∀ {α : Type} {r : Run α}, Plain r → property r

variable {property : {α : Type} → Run α → Prop}

theorem QuietLaw.parts (law : QuietLaw property) : PartsLaw property where
  pure a := law.quiet (Quiet.pure a)
  trap t := law.quiet (Quiet.trap t)
  bind := law.bind
  look f _ := law.quiet (Quiet.look f)
  push value := law.quiet (quiet_parts.push value)
  pop := law.quiet quiet_parts.pop
  note event := law.quiet (Quiet.note event)
  hostCall call := law.quiet (Quiet.noteHostCall call)

theorem QuietLaw.count (law : QuietLaw property) (mnemonic : String) : property (Run.noteExecuted mnemonic) :=
  law.quiet (Quiet.noteExecuted mnemonic)

theorem Law.instructions (law : Law property) : InstructionLaw property where
  toPartsLaw := law.parts
  localSet index := law.plain (Plain.localSet index)
  globalSet index := law.plain (Plain.globalSet index)
  store arg := law.plain (Plain.store arg)

/-- However the computation ends, the machine that it leaves is related to the one that it found. -/
def Within (relation : Machine → Machine → Prop) (r : Run α) : Prop := ∀ m, relation m (final (r m))

theorem Within.bind {relation : Machine → Machine → Prop} (trans : ∀ a b c, relation a b → relation b c → relation a c)
    {r : Run α} {next : α → Run β} (first : Within relation r) (rest : ∀ a, Within relation (next a)) :
    Within relation (r >>= next) := by
  intro m
  have kept := first m
  cases outcome : r m with
  | ok a after =>
    rw [outcome] at kept
    rw [bind_of_ok outcome]
    exact trans _ _ _ kept (rest a after)
  | error halt after =>
    rw [outcome] at kept
    rw [bind_of_error outcome]
    exact kept

private theorem chain_related {effects relation : Machine → Machine → Prop} (refl : ∀ m, relation m m)
    (trans : ∀ a b c, relation a b → relation b c → relation a c)
    (effect : ∀ before after, effects before after → relation before after) {before after : Machine}
    (chain : ReflTransGen effects before after) : relation before after := by
  induction chain with
  | refl => exact refl _
  | tail _ last ih => exact trans _ _ _ ih (effect _ _ last)

theorem within_quiet {relation : Machine → Machine → Prop} (refl : ∀ m, relation m m)
    (trans : ∀ a b c, relation a b → relation b c → relation a c)
    (effect : ∀ before after, QuietEffect before after → relation before after) :
    QuietLaw (fun r => Within relation r) where
  quiet plain := fun m => chain_related refl trans effect (plain m).2
  bind first rest := Within.bind trans first rest

/-- A relation that allows every elementary effect holds between the start and the end of every
instruction, if it does of every call. -/
theorem within_law {relation : Machine → Machine → Prop} (refl : ∀ m, relation m m)
    (trans : ∀ a b c, relation a b → relation b c → relation a c)
    (effect : ∀ before after, Effect before after → relation before after) :
    Law (fun r => Within relation r) where
  toQuietLaw := within_quiet refl trans (fun _ _ quiet => effect _ _ (.quiet quiet))
  plain plain := fun m => chain_related refl trans effect (plain m).2

end WasmMachine.Proofs.InstructionEffects

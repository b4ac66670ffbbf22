import WasmMachine.Proofs.InstructionEffects

/-! What running code cannot touch. Of all that instances share, an instruction writes only to mutable globals and to
the first memory of its own instance, and never makes a memory longer or shorter. So the index spaces, the tables,
the other memories and the constants are after a call what they were before it, however the call ends. -/

namespace WasmMachine.Proofs.CodeFootprint
open CallParts InstructionEffects

/-- A memory but for its contents. -/
def memoryShape (memory : Memory) : Limits × Nat := (memory.limits, memory.size)

/-- A global but for its value. -/
def globalShape (g : Global) : GlobalType × Bool := (g.type, g.initialized)

/-- What an instance has, but for what changes while it runs: its operands, its frames and its budget. -/
structure SameStore (before after : Store) : Prop where
  types : after.types = before.types
  functions : after.functions = before.functions
  tables : after.tables = before.tables
  memories : after.memories = before.memories
  globals : after.globals = before.globals
  config : after.config = before.config
  capacity : after.stack.capacity = before.stack.capacity

/-- What instances share, but for the values of variables and the contents of one memory, if there is one. -/
structure SameObjects (written : Option Nat) (before after : Heap) : Prop where
  functions : after.functions = before.functions
  tables : after.tables = before.tables
  memories : after.memories.map memoryShape = before.memories.map memoryShape
  contents : ∀ id : Nat, written ≠ some id → after.memories[id]? = before.memories[id]?
  globals : after.globals.map globalShape = before.globals.map globalShape
  constants : ∀ (id : Nat) (g : Global), before.globals[id]? = some g → g.type.isMutable = false →
    after.globals[id]? = some g

/-- Code has run between the two states, and has left everything alone that it must not touch. -/
structure Untouched (before after : Machine) : Prop where
  store : SameStore before.store after.store
  heap : SameObjects before.store.memories[0]? before.heap after.heap

theorem SameStore.running {s : Store} {stack : OperandStack} {frames : List Frame} {steps : Option Nat}
    (capacity : stack.capacity = s.stack.capacity) : SameStore s { s with stack, frames, steps } :=
  ⟨rfl, rfl, rfl, rfl, rfl, rfl, capacity⟩

theorem SameStore.trans {a b c : Store} (first : SameStore a b) (second : SameStore b c) : SameStore a c :=
  ⟨second.types.trans first.types, second.functions.trans first.functions, second.tables.trans first.tables,
    second.memories.trans first.memories, second.globals.trans first.globals, second.config.trans first.config,
    second.capacity.trans first.capacity⟩

theorem SameObjects.refl (written : Option Nat) (h : Heap) : SameObjects written h h :=
  ⟨rfl, rfl, rfl, fun _ _ => rfl, rfl, fun _ _ found _ => found⟩

theorem SameObjects.trans {written : Option Nat} {a b c : Heap} (first : SameObjects written a b)
    (second : SameObjects written b c) : SameObjects written a c where
  functions := second.functions.trans first.functions
  tables := second.tables.trans first.tables
  memories := second.memories.trans first.memories
  contents id other := (second.contents id other).trans (first.contents id other)
  globals := second.globals.trans first.globals
  constants id g found constant := second.constants id g (first.constants id g found constant) constant

/-- Work on operands and frames, payments and reports. -/
theorem Untouched.running {m : Machine} {stack : OperandStack} {frames : List Frame} {steps : Option Nat}
    {journal : Journal} {usage : Usage} (capacity : stack.capacity = m.store.stack.capacity) :
    Untouched m { heap := m.heap, store := { m.store with stack, frames, steps }, journal, usage } :=
  ⟨SameStore.running capacity, SameObjects.refl _ _⟩

theorem Untouched.refl (m : Machine) : Untouched m m := Untouched.running rfl

theorem Untouched.trans (a b c : Machine) (first : Untouched a b) (second : Untouched b c) : Untouched a c := by
  refine ⟨first.store.trans second.store, first.heap.trans ?_⟩
  have later := second.heap
  rw [first.store.memories] at later
  exact later

section Writing

/-- Replacing an object by one that looks the same from afar. -/
theorem map_set_of_same {α β : Type} {objects : Array α} {id : Nat} {old new : α} {view : α → β}
    (found : objects[id]? = some old) (same : view new = view old) :
    (objects.setIfInBounds id new).map view = objects.map view := by
  apply Array.ext_getElem?
  intro other
  rw [Array.getElem?_map, Array.getElem?_map, Array.getElem?_setIfInBounds]
  split
  next here =>
    subst other
    rw [found, if_pos (Array.getElem?_eq_some_iff.mp found).1]
    exact congrArg some same
  · rfl

theorem write_shape {memory changed : Memory} {address : UInt64} {new : List UInt8}
    (written : memory.write address new = .ok changed) : memoryShape changed = memoryShape memory := by
  unfold Memory.write at written
  split at written
  · cases written
    exact congrArg (Prod.mk _) (Bytes.overlay_size _ _ _)
  · cases written

/-- Only a variable is ever set, and it keeps its type. -/
theorem set_variable {g changed : Global} {index : UInt32} {value : Value} (set : g.set index value = .ok changed) :
    g.type.isMutable = true ∧ globalShape changed = globalShape g := by
  unfold Global.set at set
  by_cases mutable : g.type.isMutable = true
  · simp only [mutable, Bool.not_true, Bool.false_eq_true, if_false] at set
    unfold Global.checkType at set
    split at set
    · cases set
      exact ⟨mutable, rfl⟩
    · cases set
  · simp only [mutable, Bool.not_false, if_true] at set
    cases set

end Writing

theorem SameObjects.setMemory {h : Heap} {id : Nat} {memory changed : Memory} (found : h.memories[id]? = some memory)
    (same : memoryShape changed = memoryShape memory) : SameObjects (some id) h (h.setMemory id changed) where
  functions := rfl
  tables := rfl
  memories := map_set_of_same found same
  contents _ elsewhere := Array.getElem?_setIfInBounds_ne (fun equal => elsewhere (congrArg some equal))
  globals := rfl
  constants _ _ found _ := found

theorem SameObjects.setGlobal {h : Heap} {id : Nat} {g changed : Global} (found : h.globals[id]? = some g)
    (mutable : g.type.isMutable = true) (same : globalShape changed = globalShape g) (written : Option Nat) :
    SameObjects written h (h.setGlobal id changed) where
  functions := rfl
  tables := rfl
  memories := rfl
  contents _ _ := rfl
  globals := map_set_of_same found same
  constants other constant stored immutable := by
    have elsewhere : id ≠ other := by
      rintro rfl
      rw [found] at stored
      cases stored
      rw [mutable] at immutable
      cases immutable
    exact (Array.getElem?_setIfInBounds_ne elsewhere).trans stored

theorem stack_capacity {before after : OperandStack} (effect : StackEffect before after) :
    after.capacity = before.capacity := by
  cases effect with
  | push value pushed =>
    unfold OperandStack.pushI32 at pushed
    dsimp only at pushed
    split at pushed
    · cases pushed
      rfl
    · cases pushed
  | pop value popped =>
    unfold OperandStack.popI32 at popped
    split at popped
    · cases popped
      rfl
    · cases popped
  | underflow trap failed =>
    unfold OperandStack.popI32 at failed
    split at failed
    · cases failed
    · cases failed
      rfl

private theorem effect_untouched (before after : Machine) (effect : Effect before after) : Untouched before after := by
  cases effect with
  | quiet effect =>
    cases effect with
    | stack changed => exact Untouched.running (stack_capacity changed)
    | note event => exact Untouched.running rfl
    | executed mnemonic => exact Untouched.running rfl
    | hostCall call => exact Untouched.running rfl
  | setLocal innermost set => exact Untouched.running rfl
  | setGlobal place found set =>
    obtain ⟨mutable, same⟩ := set_variable set
    exact ⟨SameStore.running rfl, SameObjects.setGlobal found mutable same _⟩
  | setMemory place found written =>
    refine ⟨SameStore.running rfl, ?_⟩
    rw [place]
    exact SameObjects.setMemory found (write_shape written)

theorem untouched_law : Law (fun r => Within Untouched r) :=
  within_law Untouched.refl Untouched.trans effect_untouched

theorem within_inFrame {α : Type} {r : Run α} (frame : Frame) (body : Within Untouched r) :
    Within Untouched (Run.inFrame frame r) := by
  intro m
  cases pushed : Run.pushFrame frame m with
  | error halt after =>
    obtain ⟨_, rfl⟩ := pushFrame_eq_error pushed
    rw [inFrame_of_full pushed]
    exact Untouched.refl _
  | ok _ entered =>
    rw [inFrame_of_entered pushed, final_leave]
    obtain ⟨_, same⟩ := pushFrame_eq_ok pushed
    have enters : Untouched m entered := same ▸ Untouched.running rfl
    have leaves : Untouched (final (r entered)) (final (r entered)).popFrame := Untouched.running rfl
    exact Untouched.trans _ _ _ enters (Untouched.trans _ _ _ (body entered) leaves)

theorem consumeStep_untouched : Within Untouched Run.consumeStep := by
  intro m
  simp only [Run.consumeStep]
  split <;> exact Untouched.running rfl

theorem runFrom_untouched (fuel : Nat) (a : Arena) (id : Option NodeId) :
    Within Untouched (Arena.runFrom fuel a id) :=
  untouched_law.instructions.runFrom untouched_law.parts (fun kept => kept) within_inFrame consumeStep_untouched
    untouched_law.count (fun m => Untouched.refl m) fuel a id

theorem invoke_untouched (fuel : Nat) (f : Function) (type : FunctionType) (given : List Value) :
    Within Untouched (f.invoke fuel type given) :=
  untouched_law.parts.invoke (fun frame p => within_inFrame frame (runFrom_untouched fuel p.arena p.arena.entry)) f type
    given

theorem evaluate_untouched (fuel : Nat) (code : Code) (type : ValueType) :
    Within Untouched (code.evaluate fuel type) :=
  untouched_law.bind (within_inFrame {} (runFrom_untouched fuel _ _)) (fun _ => untouched_law.parts.popTyped type)

/-- Whatever a call comes to, it has changed no index space and no limit, no slot of a table, no constant, and of no
global anything but the value; and memories only in what the first one of the caller's instance holds. -/
theorem call_leaves_untouched (fuel : Nat) (f : Function) (type : FunctionType) (given : List Value) (m : Machine) :
    Untouched m (final (f.invoke fuel type given m)) := invoke_untouched fuel f type given m

end WasmMachine.Proofs.CodeFootprint

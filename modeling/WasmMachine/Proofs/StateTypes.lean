import WasmMachine.Proofs.RunMoments

/-! The types of what the machine holds. Locals and globals are written only through checks, so running code changes
neither the types of the locals of any frame nor the declared types of globals, and keeps every global at a value of
its declared type. -/

namespace WasmMachine.Proofs.StateTypes
open CallParts InstructionEffects RunMoments

def frameTypes (frame : Frame) : List ValueType := frame.locals.toList.map Value.type

/-- The types of the locals of a call: those of the parameters, and then those of the declared groups. -/
def signature (type : FunctionType) (locals : List LocalGroup) : List ValueType :=
  type.params ++ locals.flatMap fun group => List.replicate group.count.toNat group.type

/-- Every global holds a value of its declared type. -/
def GlobalsTyped (heap : Heap) : Prop := ∀ g ∈ heap.globals, g.value.type = g.type.valueType

theorem frameTypes_set {frame changed : Frame} {index : UInt32} {value : Value}
    (set : frame.set index value = .ok changed) : frameTypes changed = frameTypes frame := by
  unfold Frame.set at set
  split at set
  · cases set
  next old found =>
    split at set
    next same =>
      cases set
      have stored : (frameTypes frame)[index.toNat]? = some value.type := by
        rw [frameTypes, List.getElem?_map, Array.getElem?_toList, found]
        exact congrArg some same
      obtain ⟨bound, here⟩ := List.getElem?_eq_some_iff.mp stored
      have replaced : frameTypes ⟨frame.locals.setIfInBounds index.toNat value⟩ =
          (frameTypes frame).set index.toNat value.type := by
        simp only [frameTypes, Array.toList_setIfInBounds, List.map_set]
      rw [replaced, ← here, List.set_getElem_self]
    · cases set

/-- What comes after the check of a value has come past it. -/
theorem checkType_eq_ok {α : Type} {type : GlobalType} {value : Value} {a b : α}
    (done : (do Global.checkType type value; return a : Except Trap α) = .ok b) :
    value.type = type.valueType ∧ a = b := by
  unfold Global.checkType at done
  by_cases same : value.type = type.valueType
  · rw [if_pos same] at done
    cases done
    exact ⟨same, rfl⟩
  · rw [if_neg same] at done
    cases done

theorem global_create {g : Global} {type : GlobalType} {value : Value} (made : Global.create type value = .ok g) :
    g.value.type = g.type.valueType := by
  obtain ⟨typed, rfl⟩ := checkType_eq_ok made
  exact typed

theorem global_set {g changed : Global} {index : UInt32} {value : Value} (set : g.set index value = .ok changed) :
    changed.type = g.type ∧ changed.value.type = changed.type.valueType := by
  unfold Global.set at set
  split at set
  · cases set
  · obtain ⟨typed, rfl⟩ := checkType_eq_ok set
    exact ⟨rfl, typed⟩

theorem global_storeInitial {g changed : Global} {index : UInt32} {value : Value}
    (stored : g.storeInitial index value = .ok changed) : changed.value.type = changed.type.valueType := by
  unfold Global.storeInitial at stored
  split at stored
  · cases stored
  · obtain ⟨typed, rfl⟩ := checkType_eq_ok stored
    exact typed

theorem globalsTyped_set {heap : Heap} {g : Global} (typed : GlobalsTyped heap) (held : g.value.type = g.type.valueType)
    (id : Nat) : GlobalsTyped (heap.setGlobal id g) := by
  intro other stored
  obtain before | rfl := Array.mem_or_eq_of_mem_setIfInBounds stored
  · exact typed other before
  · exact held

theorem globalsTyped_add {heap : Heap} {g : Global} (typed : GlobalsTyped heap)
    (held : g.value.type = g.type.valueType) : GlobalsTyped (heap.addGlobal g) := by
  intro other stored
  obtain before | rfl := Array.mem_push.mp stored
  · exact typed other before
  · exact held

theorem zero_type (type : ValueType) : (Value.zero type).type = type := by
  cases type <;> rfl

/-- Between two moments of one body, or before and after a call. -/
structure KeepsTypes (before after : Machine) : Prop where
  frames : after.store.frames.map frameTypes = before.store.frames.map frameTypes
  globals : GlobalsTyped before.heap → GlobalsTyped after.heap
  declared : ∀ id : Nat, (after.heap.globals[id]?).map Global.type = (before.heap.globals[id]?).map Global.type

theorem KeepsTypes.refl (m : Machine) : KeepsTypes m m := ⟨rfl, id, fun _ => rfl⟩

theorem KeepsTypes.trans (a b c : Machine) (first : KeepsTypes a b) (second : KeepsTypes b c) : KeepsTypes a c :=
  ⟨second.frames.trans first.frames, fun typed => second.globals (first.globals typed),
    fun id => (second.declared id).trans (first.declared id)⟩

/-- Globals hold values of their declared types, and the locals of the active calls have these types, the innermost
call first. -/
structure WellTyped (calls : List (List ValueType)) (m : Machine) : Prop where
  globals : GlobalsTyped m.heap
  frames : m.store.frames.map frameTypes = calls

theorem KeepsTypes.wellTyped {calls : List (List ValueType)} {before after : Machine} (kept : KeepsTypes before after)
    (typed : WellTyped calls before) : WellTyped calls after :=
  ⟨kept.globals typed.globals, kept.frames.trans typed.frames⟩

theorem KeepsTypes.nonempty {before after : Machine} (kept : KeepsTypes before after)
    (inside : before.store.frames ≠ []) : after.store.frames ≠ [] := by
  intro none
  have frames := kept.frames
  rw [none] at frames
  exact inside (List.map_eq_nil_iff.mp frames.symm)

private theorem effect_types (before after : Machine) (effect : Effect before after) : KeepsTypes before after := by
  cases effect with
  | quiet effect => cases effect <;> exact ⟨rfl, id, fun _ => rfl⟩
  | setMemory place found written => exact ⟨rfl, id, fun _ => rfl⟩
  | setLocal innermost set =>
    refine ⟨?_, id, fun _ => rfl⟩
    rw [innermost, List.map_cons, List.map_cons, frameTypes_set set]
  | @setGlobal id global index value changed place found set =>
    obtain ⟨same, held⟩ := global_set set
    refine ⟨rfl, fun typed => globalsTyped_set typed held id, fun other => ?_⟩
    simp only [Heap.setGlobal, Array.getElem?_setIfInBounds]
    split
    next here =>
      subst other
      split
      · rw [found]
        exact congrArg some same
      next outside => rw [Array.getElem?_eq_none (Nat.le_of_not_lt outside)]
    · rfl

theorem types_law : Law (fun r => Within KeepsTypes r) := within_law KeepsTypes.refl KeepsTypes.trans effect_types

theorem within_inFrame {α : Type} {r : Run α} (frame : Frame) (body : Within KeepsTypes r) :
    Within KeepsTypes (Run.inFrame frame r) := by
  intro m
  cases pushed : Run.pushFrame frame m with
  | error halt after =>
    obtain ⟨_, rfl⟩ := pushFrame_eq_error pushed
    rw [inFrame_of_full pushed]
    exact KeepsTypes.refl _
  | ok _ entered =>
    rw [inFrame_of_entered pushed, final_leave]
    have kept := body entered
    obtain ⟨_, rfl⟩ := pushFrame_eq_ok pushed
    refine ⟨?_, kept.globals, kept.declared⟩
    -- The frame that was entered is the one that is left.
    have frames := congrArg List.tail kept.frames
    rw [← List.map_tail] at frames
    exact frames

theorem consumeStep_types : Within KeepsTypes Run.consumeStep := by
  intro m
  simp only [Run.consumeStep]
  split <;> exact ⟨rfl, id, fun _ => rfl⟩

theorem runFrom_types (fuel : Nat) (a : Arena) (id : Option NodeId) : Within KeepsTypes (Arena.runFrom fuel a id) :=
  types_law.instructions.runFrom types_law.parts (fun kept => kept) within_inFrame consumeStep_types
    types_law.count (fun m => KeepsTypes.refl m) fuel a id

theorem invoke_types (fuel : Nat) (f : Function) (type : FunctionType) (given : List Value) :
    Within KeepsTypes (f.invoke fuel type given) :=
  types_law.parts.invoke (fun frame p => within_inFrame frame (runFrom_types fuel p.arena p.arena.entry)) f type given

theorem step_types (fuel : Nat) (a : Arena) (id : NodeId) (node : Node) :
    Within KeepsTypes (a.step (Function.invoke fuel) id node) :=
  types_law.instructions.step types_law.count (invoke_types fuel) a id node

theorem evaluate_types (fuel : Nat) (code : Code) (type : ValueType) :
    Within KeepsTypes (code.evaluate fuel type) :=
  types_law.bind (within_inFrame {} (runFrom_types fuel _ _)) (fun _ => types_law.parts.popTyped type)

/-- An instruction that comes to a call has kept all types. -/
theorem types_of_calls {o : Op} {m ready : Machine} {f : Function} {type : FunctionType}
    (calls : Calls o m f type ready) : KeepsTypes m ready := by
  have stops : ∀ f type given, Within KeepsTypes ((fun _ _ _ => throw .outOfFuel : Caller) f type given) :=
    fun _ _ _ m => KeepsTypes.refl m
  have same := types_law.instructions.op stops o m
  rw [calls (fun _ _ _ => throw .outOfFuel)] at same
  exact same

end WasmMachine.Proofs.StateTypes

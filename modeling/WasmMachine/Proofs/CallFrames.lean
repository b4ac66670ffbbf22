import WasmMachine.Proofs.RunMoments

/-! Calls leave the frames as they found them. A body may set the locals of its own frame and nothing else
of the frames; a call enters a frame on top of the others and leaves it again however the body ends. So
no outcome, at any depth of nested calls, can reach the locals of a caller. -/

namespace WasmMachine.Proofs.CallFrames
open CallParts InstructionEffects RunMoments

/-- Between two moments of one body: the frames below the innermost one are the same, and calls on the way
went no deeper than allowed. -/
structure SameCallers (before after : Machine) : Prop where
  callers : after.store.frames.tail = before.store.frames.tail
  depth : after.store.frames.length = before.store.frames.length
  config : after.store.config = before.store.config
  deepest : after.usage.deepest ≤ max before.usage.deepest before.store.config.maxCallDepth

/-- Before and after a call: all frames are the same. -/
structure SameFrames (before after : Machine) : Prop where
  frames : after.store.frames = before.store.frames
  config : after.store.config = before.store.config
  deepest : after.usage.deepest ≤ max before.usage.deepest before.store.config.maxCallDepth

theorem SameCallers.refl (m : Machine) : SameCallers m m := ⟨rfl, rfl, rfl, Nat.le_max_left _ _⟩

theorem SameFrames.refl (m : Machine) : SameFrames m m := ⟨rfl, rfl, Nat.le_max_left _ _⟩

theorem SameCallers.trans (a b c : Machine) (first : SameCallers a b) (second : SameCallers b c) : SameCallers a c := by
  refine ⟨second.callers.trans first.callers, second.depth.trans first.depth, second.config.trans first.config, ?_⟩
  have bound := second.deepest
  rw [first.config] at bound
  have := first.deepest
  omega

theorem SameFrames.trans (a b c : Machine) (first : SameFrames a b) (second : SameFrames b c) : SameFrames a c := by
  refine ⟨second.frames.trans first.frames, second.config.trans first.config, ?_⟩
  have bound := second.deepest
  rw [first.config] at bound
  have := first.deepest
  omega

theorem SameFrames.callers {before after : Machine} (same : SameFrames before after) : SameCallers before after :=
  ⟨congrArg List.tail same.frames, congrArg List.length same.frames, same.config, same.deepest⟩

private theorem quiet_frames (before after : Machine) (effect : QuietEffect before after) : SameFrames before after := by
  cases effect <;> exact ⟨rfl, rfl, Nat.le_max_left _ _⟩

/-- Setting a local is the only effect on frames, and it changes no frame but the innermost. -/
private theorem effect_callers (before after : Machine) (effect : Effect before after) : SameCallers before after := by
  cases effect with
  | quiet effect => exact (quiet_frames before after effect).callers
  | setLocal innermost set => exact ⟨by rw [innermost]; rfl, by rw [innermost]; rfl, rfl, Nat.le_max_left _ _⟩
  | setGlobal place found set => exact ⟨rfl, rfl, rfl, Nat.le_max_left _ _⟩
  | setMemory place found written => exact ⟨rfl, rfl, rfl, Nat.le_max_left _ _⟩

theorem callers_law : Law (fun r => Within SameCallers r) :=
  within_law SameCallers.refl SameCallers.trans effect_callers

theorem frames_law : QuietLaw (fun r => Within SameFrames r) :=
  within_quiet SameFrames.refl SameFrames.trans quiet_frames

theorem within_inFrame {α : Type} {r : Run α} (frame : Frame) (body : Within SameCallers r) :
    Within SameFrames (Run.inFrame frame r) := by
  intro m
  cases pushed : Run.pushFrame frame m with
  | error halt after =>
    obtain ⟨_, rfl⟩ := pushFrame_eq_error pushed
    rw [inFrame_of_full pushed]
    exact SameFrames.refl _
  | ok _ entered =>
    rw [inFrame_of_entered pushed, final_leave]
    have kept := body entered
    obtain ⟨room, rfl⟩ := pushFrame_eq_ok pushed
    have bound := kept.deepest
    -- Leaving takes away the frame that was entered, whatever the body has made of it.
    refine ⟨kept.callers, kept.config, ?_⟩
    simp only [Machine.popFrame] at bound ⊢
    omega

theorem consumeStep_callers : Within SameCallers Run.consumeStep := by
  intro m
  simp only [Run.consumeStep]
  split
  · exact ⟨rfl, rfl, rfl, Nat.le_max_left _ _⟩
  · exact SameCallers.refl m
  · exact ⟨rfl, rfl, rfl, Nat.le_max_left _ _⟩

theorem runFrom_callers (fuel : Nat) (a : Arena) (id : Option NodeId) :
    Within SameCallers (Arena.runFrom fuel a id) :=
  callers_law.instructions.runFrom frames_law.parts (fun kept m => (kept m).callers) within_inFrame consumeStep_callers
    callers_law.count (fun m => SameCallers.refl m) fuel a id

theorem invoke_frames (fuel : Nat) (f : Function) (type : FunctionType) (given : List Value) :
    Within SameFrames (f.invoke fuel type given) :=
  frames_law.parts.invoke (fun frame p => within_inFrame frame (runFrom_callers fuel p.arena p.arena.entry)) f type given

theorem step_callers (fuel : Nat) (a : Arena) (id : NodeId) (node : Node) :
    Within SameCallers (a.step (Call.invoke (Program.execute fuel)) id node) :=
  callers_law.instructions.step callers_law.count
    (fun f type given m => (invoke_frames fuel f type given m).callers) a id node

theorem evaluate_frames (fuel : Nat) (code : Code) (type : ValueType) : Within SameFrames (code.evaluate fuel type) :=
  frames_law.bind (within_inFrame {} (runFrom_callers fuel _ _))
    (fun _ => frames_law.quiet (Quiet.onStack (PlainStack.popTyped type)))

/-- At a moment of a body that started in `before`: its callers are still there, unchanged, below everything that
was called since, and there are no more frames than allowed. -/
structure Above (before seen : Machine) : Prop where
  callers : before.store.frames.tail <:+ seen.store.frames.tail
  depth : seen.store.frames.length ≤ max before.store.frames.length before.store.config.maxCallDepth

theorem SameCallers.above {before seen : Machine} (same : SameCallers before seen) : Above before seen := by
  refine ⟨?_, ?_⟩
  · exact same.callers ▸ List.suffix_rfl
  · rw [same.depth]
    exact Nat.le_max_left _ _

theorem SameCallers.above_trans {before between seen : Machine} (same : SameCallers before between)
    (above : Above between seen) : Above before seen := by
  refine ⟨?_, ?_⟩
  · rw [← same.callers]
    exact above.callers
  · rw [← same.depth, ← same.config]
    exact above.depth

/-- An instruction that comes to a call has not left its frame. -/
theorem callers_of_calls {o : Op} {m ready : Machine} {f : Function} {type : FunctionType}
    (calls : Calls o m f type ready) : SameCallers m ready := by
  -- Calling may as well stop at once: the state that it leaves is then the one in which the call begins.
  have stops : ∀ f type given, Within SameCallers ((fun _ _ _ => throw .outOfFuel : Caller) f type given) :=
    fun _ _ _ m => SameCallers.refl m
  have same := callers_law.instructions.op stops o m
  rw [calls (fun _ _ _ => throw .outOfFuel)] at same
  exact same

theorem frames_of_starts {type : FunctionType} {locals : List LocalGroup} {given : List Value} {m entered : Machine}
    (starts : Starts type locals given m entered) :
    entered.store.frames.tail = m.store.frames ∧ entered.store.frames.length = m.store.frames.length + 1 ∧
      m.store.frames.length < m.store.config.maxCallDepth ∧ entered.store.config = m.store.config := by
  obtain ⟨frame, prepared, outcome, pushed⟩ := starts
  have kept := frames_law.parts.prepare type locals given m
  rw [outcome] at kept
  obtain ⟨room, rfl⟩ := pushFrame_eq_ok pushed
  have frames := kept.frames
  have config := kept.config
  simp only [final] at frames config
  rw [frames, config] at room
  exact ⟨frames, congrArg (List.length · + 1) frames, room, config⟩

/-- A body sees its callers at every moment, however deep the calls below it go. -/
theorem moment_above {fuel : Nat} {a : Arena} {id : Option NodeId} {start seen : Machine}
    (moment : Moment fuel a id start seen) : Above start seen := by
  induction moment with
  | here => exact (SameCallers.refl _).above
  | ended => exact (runFrom_callers _ _ _ _).above
  | @later fuel a id node m paid next stepped seen found charged step rest ih =>
    have first := consumeStep_callers m
    have second := step_callers fuel a id node paid
    rw [charged] at first
    rw [step] at second
    exact (SameCallers.trans _ _ _ first second).above_trans ih
  | @inside fuel a id o parent next m paid reported own locals body type ready entered seen found charged noted calls
      starts rest ih =>
    have first := consumeStep_callers m
    have second := callers_law.count o.mnemonic paid
    rw [charged] at first
    rw [noted] at second
    have same := SameCallers.trans _ _ _ (SameCallers.trans _ _ _ first second) (callers_of_calls calls)
    obtain ⟨callers, deeper, room, config⟩ := frames_of_starts starts
    have bound := ih.depth
    apply same.above_trans
    refine ⟨?_, ?_⟩
    · -- The frame of the caller is among those that the called body keeps.
      have kept := ih.callers
      rw [callers] at kept
      exact (List.tail_suffix _).trans kept
    · rw [config] at bound
      omega

/-- The frames at all the moments of a call that began in `m` and has left the machine in `after`. -/
structure Balanced (m after : Machine) (moment : Machine → Prop) : Prop where
  frames : after.store.frames = m.store.frames
  deepest : after.usage.deepest ≤ max m.usage.deepest m.store.config.maxCallDepth
  callers : ∀ seen, moment seen → m.store.frames <:+ seen.store.frames
  depth : ∀ seen, moment seen → seen.store.frames.length ≤ max m.store.frames.length m.store.config.maxCallDepth

private theorem balanced {m after : Machine} {moment : Machine → Prop} (same : SameFrames m after)
    (moments : ∀ seen, moment seen → SameFrames m seen ∨
      m.store.frames <:+ seen.store.frames.tail ∧ seen.store.frames.length ≤ m.store.config.maxCallDepth) :
    Balanced m after moment := by
  refine ⟨same.frames, same.deepest, ?_, ?_⟩
  · intro seen reached
    obtain same | ⟨callers, _⟩ := moments seen reached
    · exact same.frames ▸ List.suffix_rfl
    · exact callers.trans (List.tail_suffix _)
  · intro seen reached
    obtain same | ⟨_, depth⟩ := moments seen reached
    · rw [same.frames]
      exact Nat.le_max_left _ _
    · exact Nat.le_trans depth (Nat.le_max_right _ _)

/-- A call gives back the frames that it found, with the locals that they had, whatever its outcome; and until
then they all stand unchanged below the frames of what it calls, which are never more than allowed. The same
holds of the evaluation of a constant expression. -/
theorem call_restores_frames (fuel : Nat) (m : Machine) :
    (∀ (f : Function) (type : FunctionType) (given : List Value),
      Balanced m (final (f.invoke fuel type given m)) (CallMoment fuel type given m f)) ∧
    (∀ (code : Code) (type : ValueType),
      Balanced m (final (code.evaluate fuel type m)) (EvaluationMoment fuel code type m)) := by
  refine ⟨?_, ?_⟩
  · intro f type given
    apply balanced (invoke_frames fuel f type given m)
    intro seen moment
    cases moment with
    | before => exact .inl (SameFrames.refl m)
    | after => exact .inl (invoke_frames fuel f type given m)
    | body starts moment =>
      obtain ⟨callers, deeper, room, config⟩ := frames_of_starts starts
      have above := moment_above moment
      have bound := above.depth
      rw [config] at bound
      exact .inr ⟨callers ▸ above.callers, by omega⟩
  · intro code type
    apply balanced (evaluate_frames fuel code type m)
    intro seen moment
    cases moment with
    | before => exact .inl (SameFrames.refl m)
    | after => exact .inl (evaluate_frames fuel code type m)
    | body pushed moment =>
      obtain ⟨room, rfl⟩ := pushFrame_eq_ok pushed
      have above := moment_above moment
      have bound := above.depth
      simp only [List.length_cons] at bound
      exact .inr ⟨above.callers, by omega⟩

def endlessCall : Function := .defined ⟨[], []⟩ [] (.ofCode (.op (.call 0) .nil))

def endlessCaller : Machine :=
  { heap := { functions := #[some endlessCall] }, store := { functions := #[0], config := { maxCallDepth := 2 } } }

/-- The depth that is allowed is reached by a call within the call, and all frames are gone at the end. -/
theorem endlessCall_restores_frames :
    (∃ seen, CallMoment 5 ⟨[], []⟩ [] endlessCaller endlessCall seen ∧ seen.store.frames.length = 2) ∧
      Balanced endlessCaller (final (endlessCall.invoke 5 ⟨[], []⟩ [] endlessCaller))
        (CallMoment 5 ⟨[], []⟩ [] endlessCaller endlessCall) := by
  refine ⟨⟨_, .body ⟨_, _, rfl, rfl⟩ (.inside rfl rfl rfl (calls_direct rfl) ⟨_, _, rfl, rfl⟩ .here), rfl⟩, ?_⟩
  exact (call_restores_frames 5 endlessCaller).1 endlessCall ⟨[], []⟩ []

end WasmMachine.Proofs.CallFrames

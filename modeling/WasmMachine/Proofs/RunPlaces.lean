import WasmMachine.Proofs.TypeFaults

/-! The places of a run: before each node that is run, at any depth of nested calls. A place is reached inside the
frames of the calls that led to it, and what stands at a place tells which calls are made and what they come to. -/

namespace WasmMachine.Proofs.RunPlaces
open Sequencing CallParts InstructionEffects RunMoments StateTypes TypeFaults

/-- What runs code in a frame of its own: a call, or a constant expression. -/
inductive Activity where
  | call (f : Function) (type : FunctionType) (given : List Value)
  | evaluation (code : Code) (type : ValueType)

/-- The node that is run next, and the machine that runs it. -/
structure Place where
  fuel : Nat
  arena : Arena
  node : Option NodeId
  machine : Machine

namespace Place

def outcome (p : Place) : EStateM.Result Halt Machine Unit := Arena.runFrom p.fuel p.arena p.node p.machine

/-- One node was run, with all that it calls. -/
inductive Steps : Place → Place → Prop where
  | intro {fuel a id node m paid next stepped} (found : a.nodes[id]? = some node)
      (charged : Run.consumeStep m = .ok () paid)
      (step : a.step (Function.invoke fuel) id node paid = .ok next stepped) :
      Steps ⟨fuel + 1, a, some id, m⟩ ⟨fuel, a, next, stepped⟩

/-- The node is an instruction that calls a function, once it has come to the state `ready`. -/
inductive Calls : Place → Function → FunctionType → Machine → Prop where
  | intro {fuel a id o parent next m paid reported f type ready} (found : a.nodes[id]? = some ⟨.op o, parent, next⟩)
      (charged : Run.consumeStep m = .ok () paid)
      (noted : Run.noteExecuted o.mnemonic paid = .ok () reported)
      (calls : RunMoments.Calls o reported f type ready) : Calls ⟨fuel + 1, a, some id, m⟩ f type ready

end Place

/-- The activity comes to enter a frame, whose locals have these types, and starts to run code there. -/
inductive Activity.Enters (fuel : Nat) (m : Machine) : Activity → List ValueType → Place → Prop where
  | call {own locals body type given entered} (starts : Starts type locals given m entered) :
      Enters fuel m (.call (.defined own locals body) type given) (signature type locals)
        ⟨fuel, body.arena, body.arena.entry, entered⟩
  | evaluation {code type entered} (pushed : Run.pushFrame {} m = .ok () entered) :
      Enters fuel m (.evaluation code type) []
        ⟨fuel, (Program.ofCode code).arena, (Program.ofCode code).arena.entry, entered⟩

/-- A run that is at one place comes to another one, inside calls with frames of these types, the innermost first. -/
inductive Visits : Place → List (List ValueType) → Place → Prop where
  | here {p} : Visits p [] p
  | later {p next calls q} (steps : p.Steps next) (rest : Visits next calls q) : Visits p calls q
  | inside {fuel a id m f type ready types start calls q} (called : Place.Calls ⟨fuel + 1, a, id, m⟩ f type ready)
      (enters : (Activity.call f type []).Enters fuel ready types start) (rest : Visits start calls q) :
      Visits ⟨fuel + 1, a, id, m⟩ (calls ++ [types]) q

def Activity.leaves (fuel : Nat) (m : Machine) : Activity → Machine
  | .call f type given => final (f.invoke fuel type given m)
  | .evaluation code type => final (code.evaluate fuel type m)

/-- The states of an activity, each with the types of the calls in which it is passed through. -/
inductive Activity.Shows (fuel : Nat) (m : Machine) (x : Activity) : List (List ValueType) → Machine → Prop where
  | before : Shows fuel m x [] m
  | place {types start calls q} (enters : x.Enters fuel m types start) (visits : Visits start calls q) :
      Shows fuel m x (calls ++ [types]) q.machine
  -- the end of a body, or the state that a failed instruction has left
  | ended {types start calls q} (enters : x.Enters fuel m types start) (visits : Visits start calls q) :
      Shows fuel m x (calls ++ [types]) (final q.outcome)
  | after : Shows fuel m x [] (x.leaves fuel m)

section Types

theorem steps_types {p q : Place} (steps : p.Steps q) : KeepsTypes p.machine q.machine := by
  obtain @⟨fuel, a, id, node, m, paid, next, stepped, found, charged, step⟩ := steps
  have first := consumeStep_types m
  have second := step_types fuel a id node paid
  rw [charged] at first
  rw [step] at second
  exact KeepsTypes.trans _ _ _ first second

theorem calls_types {p : Place} {f : Function} {type : FunctionType} {ready : Machine} (called : p.Calls f type ready) :
    KeepsTypes p.machine ready := by
  obtain @⟨fuel, a, id, o, parent, next, m, paid, reported, f, type, ready, found, charged, noted, calls⟩ := called
  have first := consumeStep_types m
  have second := types_law.count o.mnemonic paid
  rw [charged] at first
  rw [noted] at second
  exact KeepsTypes.trans _ _ _ (KeepsTypes.trans _ _ _ first second) (types_of_calls calls)

/-- The entered frame has the declared types, and stands on those that were there. -/
theorem enters_types {fuel : Nat} {m : Machine} {x : Activity} {types : List ValueType} {p : Place}
    (enters : x.Enters fuel m types p) :
    p.machine.store.frames.map frameTypes = types :: m.store.frames.map frameTypes ∧
      (GlobalsTyped m.heap → GlobalsTyped p.machine.heap) := by
  cases enters with
  | @call own locals body type given entered starts =>
    obtain ⟨frame, prepared, outcome, pushed⟩ := starts
    have kept := types_law.parts.prepare type locals given m
    have made := (settles_prepare (fun _ => id)).ok outcome
    rw [outcome] at kept
    obtain ⟨_, rfl⟩ := pushFrame_eq_ok pushed
    exact ⟨congrArg₂ List.cons made kept.frames, kept.globals⟩
  | evaluation pushed =>
    obtain ⟨_, rfl⟩ := pushFrame_eq_ok pushed
    exact ⟨rfl, id⟩

/-- At every place of a run the frames have the types of the calls that led there. -/
theorem visits_types {p q : Place} {calls : List (List ValueType)} (visits : Visits p calls q) :
    q.machine.store.frames.map frameTypes = calls ++ p.machine.store.frames.map frameTypes ∧
      (GlobalsTyped p.machine.heap → GlobalsTyped q.machine.heap) := by
  induction visits with
  | here => exact ⟨rfl, id⟩
  | later steps rest ih =>
    have kept := steps_types steps
    exact ⟨ih.1.trans (congrArg (_ ++ ·) kept.frames), fun typed => ih.2 (kept.globals typed)⟩
  | inside called enters rest ih =>
    have kept := calls_types called
    obtain ⟨frames, globals⟩ := enters_types enters
    refine ⟨?_, fun typed => ih.2 (globals (kept.globals typed))⟩
    rw [ih.1, frames, kept.frames, List.append_assoc]
    rfl

theorem leaves_types (fuel : Nat) (m : Machine) (x : Activity) : KeepsTypes m (x.leaves fuel m) := by
  cases x with
  | call f type given => exact invoke_types fuel f type given m
  | evaluation code type => exact evaluate_types fuel code type m

theorem wellTyped_of_visits {fuel : Nat} {m : Machine} {x : Activity} {types : List ValueType} {start q : Place}
    {calls : List (List ValueType)} (typed : WellTyped [] m) (enters : x.Enters fuel m types start)
    (visits : Visits start calls q) : WellTyped (calls ++ [types]) q.machine := by
  obtain ⟨entered, keeps⟩ := enters_types enters
  obtain ⟨visited, keepsOn⟩ := visits_types visits
  refine ⟨keepsOn (keeps typed.globals), ?_⟩
  rw [visited, entered, typed.frames]

/-- All along an activity, globals and the locals of all calls keep to their types. -/
theorem shows_wellTyped {fuel : Nat} {m seen : Machine} {x : Activity} {calls : List (List ValueType)}
    (typed : WellTyped [] m) (shows : x.Shows fuel m calls seen) : WellTyped calls seen := by
  cases shows with
  | before => exact typed
  | place enters visits => exact wellTyped_of_visits typed enters visits
  | ended enters visits => exact (runFrom_types _ _ _ _).wellTyped (wellTyped_of_visits typed enters visits)
  | after => exact (leaves_types fuel m x).wellTyped typed

end Types

section Faults

/-- On the way from this place a host function is called whose answer is this trap. -/
def Place.HostFault (p : Place) (t : Trap) : Prop :=
  ∃ calls q own function type ready, Visits p calls q ∧ q.Calls (.host own function) type ready ∧
    HostAnswers type function [] ready t

/-- The activity is a call of such a host function, or comes to one. -/
inductive Activity.HostFault (fuel : Nat) (m : Machine) : Activity → Trap → Prop where
  | direct {own function type given t} (answers : HostAnswers type function given m t) :
      HostFault fuel m (.call (.host own function) type given) t
  | inside {x types p t} (enters : x.Enters fuel m types p) (fault : p.HostFault t) : HostFault fuel m x t

theorem hostFault_later {p next : Place} {t : Trap} (steps : p.Steps next) (fault : next.HostFault t) :
    p.HostFault t := by
  obtain ⟨calls, q, own, function, type, ready, visits, rest⟩ := fault
  exact ⟨calls, q, own, function, type, ready, .later steps visits, rest⟩

theorem hostFault_called {fuel : Nat} {a : Arena} {id : Option NodeId} {m ready : Machine} {f : Function}
    {type : FunctionType} {t : Trap} (called : Place.Calls ⟨fuel + 1, a, id, m⟩ f type ready)
    (fault : (Activity.call f type []).HostFault fuel ready t) : Place.HostFault ⟨fuel + 1, a, id, m⟩ t := by
  cases fault with
  | direct answers => exact ⟨_, _, _, _, _, _, .here, called, answers⟩
  | inside enters fault =>
    obtain ⟨calls, q, own, function, type, ready, visits, rest⟩ := fault
    exact ⟨_, q, own, function, type, ready, .inside called enters visits, rest⟩

theorem enters_nonempty {fuel : Nat} {m : Machine} {x : Activity} {types : List ValueType} {p : Place}
    (enters : x.Enters fuel m types p) : p.machine.store.frames ≠ [] := by
  intro none
  have frames := (enters_types enters).1
  rw [none] at frames
  cases frames

/-- Bodies that blame the host make calls that blame the host or the given arguments. -/
theorem settles_call {fuel : Nat} (bodies : ∀ a id (m : Machine), m.store.frames ≠ [] →
      Settles (Blames (Place.HostFault ⟨fuel, a, id, m⟩)) (fun _ _ => True) (Arena.runFrom fuel a id) m)
    (f : Function) (type : FunctionType) (given : List Value) (m : Machine) :
    Settles (Blames fun t => GivenMismatch type given t ∨ (Activity.call f type given).HostFault fuel m t)
      (fun result _ => result.map Value.type = type.result) (f.invoke fuel type given) m := by
  cases f with
  | host own function =>
    unfold Function.invoke
    rw [invoke_host]
    exact settles_callHost (fun _ => .inl) (fun _ answers => .inr (.direct answers))
  | defined own locals body =>
    apply settles_invoke_defined (fun _ => .inl)
    intro entered after t starts failed fault
    have enters : (Activity.call (.defined own locals body) type given).Enters fuel m (signature type locals)
        ⟨fuel, body.arena, body.arena.entry, entered⟩ := .call starts
    have blamed := (bodies _ _ _ (enters_nonempty enters)).error failed
    exact .inr (.inside enters (blamed fault))

/-- Calls from code have no arguments but operands, so they blame the host alone. -/
theorem settles_fromCode {fuel : Nat} {a : Arena} {id : Option NodeId} {m ready : Machine} {f : Function}
    {type : FunctionType} (call : Settles
      (Blames fun t => GivenMismatch type [] t ∨ (Activity.call f type []).HostFault fuel ready t)
      (fun result _ => result.map Value.type = type.result) (f.invoke fuel type []) ready)
    (called : Place.Calls ⟨fuel + 1, a, id, m⟩ f type ready) :
    Settles (Blames (Place.HostFault ⟨fuel + 1, a, id, m⟩)) (fun _ _ => True)
      (Call.fromCode (Function.invoke fuel) f type) ready := by
  have causes : ∀ t, GivenMismatch type [] t ∨ (Activity.call f type []).HostFault fuel ready t →
      Place.HostFault ⟨fuel + 1, a, id, m⟩ t := by
    rintro t (impossible | fault)
    · exact absurd impossible (no_givenMismatch type t)
    · exact hostFault_called called fault
  apply (call.explain (Blames.imp causes)).bind
  intro result between _
  cases result with
  | none => trivial
  | some value =>
    exact (settles_onStack (settles_pushValue between.store.stack value)).weaken (fun _ _ _ => trivial)

theorem settles_charge {cause : Trap → Prop} {m : Machine} :
    Settles (Blames cause) (fun _ paid => paid.store.frames = m.store.frames) Run.consumeStep m := by
  simp only [Settles, Run.consumeStep]
  cases m.store.steps with
  | none => rfl
  | some left =>
    cases left with
    | zero => exact fun fault => False.elim fault
    | succ left => rfl

theorem settles_step {fuel : Nat} {a : Arena} {id : NodeId} {node : Node} {m paid : Machine}
    (calls : ∀ f type given m, Settles
      (Blames fun t => GivenMismatch type given t ∨ (Activity.call f type given).HostFault fuel m t)
      (fun result _ => result.map Value.type = type.result) (f.invoke fuel type given) m)
    (found : a.nodes[id]? = some node) (charged : Run.consumeStep m = .ok () paid) (inside : paid.store.frames ≠ []) :
    Settles (Blames (Place.HostFault ⟨fuel + 1, a, some id, m⟩)) (fun _ _ => True)
      (a.step (Function.invoke fuel) id node) paid := by
  apply (settles_count node.op.mnemonic).known.bind
  rintro _ reported ⟨noted, same⟩
  obtain ⟨op, parent, next⟩ := node
  cases op with
  | block first => trivial
  | loop first => trivial
  | cond thenFirst elseFirst =>
    apply (settles_onStack (settles_popCondition reported.store.stack)).bind
    intro condition _ _
    cases condition <;> trivial
  | op o =>
    have runs : Settles (Blames (Place.HostFault ⟨fuel + 1, a, some id, m⟩)) (fun _ _ => True)
        (o.run (Function.invoke fuel)) reported := by
      rcases op_calls_or_settles _ (same ▸ inside : reported.store.frames ≠ []) o with ⟨f, type, ready, here⟩ | settles
      · have called : Place.Calls ⟨fuel + 1, a, some id, m⟩ f type ready := .intro found charged noted here
        apply Settles.of_eq (here (Function.invoke fuel))
        exact (settles_fromCode (calls f type [] ready) called).bind (fun _ _ _ => trivial)
      · exact settles _
    apply runs.bind
    intro jump between _
    exact (settles_lift (fun t failed fault => absurd fault (follow_fault failed))).weaken (fun _ _ _ => trivial)

/-- A fault of types in the course of a run was answered by a host function. -/
theorem settles_runFrom (fuel : Nat) (a : Arena) (id : Option NodeId) (m : Machine) (inside : m.store.frames ≠ []) :
    Settles (Blames (Place.HostFault ⟨fuel, a, id, m⟩)) (fun _ _ => True) (Arena.runFrom fuel a id) m := by
  induction fuel generalizing a id m with
  | zero =>
    cases id with
    | none => trivial
    | some id => trivial
  | succ fuel ih =>
    cases id with
    | none => trivial
    | some id =>
      have calls := settles_call (fun a id m => ih a id m)
      apply settles_charge.known.bind
      rintro _ paid ⟨charged, frames⟩
      cases found : a.nodes[id]? with
      | none => trivial
      | some node =>
        have inside : paid.store.frames ≠ [] := by
          rw [frames]
          exact inside
        apply (settles_step calls found charged inside).known.bind
        rintro next stepped ⟨step, _⟩
        have steps : Place.Steps ⟨fuel + 1, a, some id, m⟩ ⟨fuel, a, next, stepped⟩ := .intro found charged step
        have kept := step_types fuel a id node paid
        rw [step] at kept
        exact (ih a next stepped (kept.nonempty inside)).explain (Blames.imp (fun _ => hostFault_later steps))

theorem settles_invoke (fuel : Nat) (f : Function) (type : FunctionType) (given : List Value) (m : Machine) :
    Settles (Blames fun t => GivenMismatch type given t ∨ (Activity.call f type given).HostFault fuel m t)
      (fun result _ => result.map Value.type = type.result) (f.invoke fuel type given) m :=
  settles_call (settles_runFrom fuel) f type given m

theorem settles_evaluate (fuel : Nat) (code : Code) (type : ValueType) (m : Machine) :
    Settles (Blames ((Activity.evaluation code type).HostFault fuel m)) (fun value _ => value.type = type)
      (code.evaluate fuel type) m := by
  have body : Settles (Blames ((Activity.evaluation code type).HostFault fuel m)) (fun _ _ => True)
      (Run.inFrame {} ((Program.ofCode code).execute fuel)) m := by
    apply settles_inFrame
    intro entered after t pushed failed fault
    have enters : (Activity.evaluation code type).Enters fuel m [] _ := .evaluation pushed
    exact .inside enters ((settles_runFrom _ _ _ _ (enters_nonempty enters)).error failed fault)
  apply body.bind
  intro _ between _
  apply (settles_onStack (settles_popTyped between.store.stack type)).weaken
  rintro value _ ⟨stack, typed, _⟩
  exact typed

end Faults

end WasmMachine.Proofs.RunPlaces

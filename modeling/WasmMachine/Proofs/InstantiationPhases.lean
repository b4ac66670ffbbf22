import WasmMachine.Instance.Session
import WasmMachine.Proofs.CallFrames
import WasmMachine.Proofs.RunPlaces

/-! Instantiation in phases. Most of them only put things in place; the others run code, which is a constant expression
or the start function. So the states of an instantiation are those between its phases and those of the code that
its phases run. -/

namespace WasmMachine.Proofs.InstantiationPhases
open Sequencing InstructionEffects StateTypes TypeFaults RunPlaces Instantiation

variable {α β : Type}

/-- No frame is left behind or taken away, and no global comes to hold a value of another type. -/
structure Undisturbed (before after : Machine) : Prop where
  frames : after.store.frames = before.store.frames
  globals : GlobalsTyped before.heap → GlobalsTyped after.heap

theorem Undisturbed.refl (m : Machine) : Undisturbed m m := ⟨rfl, id⟩

theorem Undisturbed.trans (a b c : Machine) (first : Undisturbed a b) (second : Undisturbed b c) : Undisturbed a c :=
  ⟨second.frames.trans first.frames, fun typed => second.globals (first.globals typed)⟩

theorem Undisturbed.wellTyped {before after : Machine} (undisturbed : Undisturbed before after)
    (typed : WellTyped [] before) : WellTyped [] after :=
  ⟨undisturbed.globals typed.globals, (congrArg (List.map frameTypes) undisturbed.frames).trans typed.frames⟩

/-- A computation that runs no code: it disturbs nothing and cannot fail by a fault of types. -/
structure Inert (r : Run α) : Prop where
  undisturbed : Within Undisturbed r
  faultless : ∀ m, Settles (Blames fun _ => False) (fun _ _ => True) r m

namespace Inert

theorem bind {r : Run α} {next : α → Run β} (first : Inert r) (rest : ∀ a, Inert (next a)) : Inert (r >>= next) where
  undisturbed := Within.bind Undisturbed.trans first.undisturbed (fun a => (rest a).undisturbed)
  faultless m := (first.faultless m).bind (fun a between _ => (rest a).faultless between)

theorem pure (a : α) : Inert (Pure.pure a : Run α) := ⟨Undisturbed.refl, fun _ => trivial⟩

theorem lift {result : Except Trap α} (harmless : ∀ t, result = .error t → ¬ TypeFault t) : Inert (Run.lift result) := by
  cases result with
  | ok a => exact pure a
  | error t => exact ⟨Undisturbed.refl, fun _ fault => harmless t rfl fault⟩

theorem trap {t : Trap} (harmless : ¬ TypeFault t) : Inert (Run.trap t : Run α) :=
  ⟨Undisturbed.refl, fun _ fault => harmless fault⟩

theorem look {f : Machine → Except Trap α} (harmless : ∀ m t, f m = .error t → ¬ TypeFault t) : Inert (Run.look f) :=
  ⟨fun m => (lift (harmless m)).undisturbed m, fun m => (lift (harmless m)).faultless m⟩

/-- Changes to anything but frames and globals. -/
theorem elsewhere {r : Run Unit} (change : ∀ m, ∃ after, r m = .ok () after ∧
      after.store.frames = m.store.frames ∧ after.heap.globals = m.heap.globals) : Inert r := by
  refine ⟨fun m => ?_, fun m => ?_⟩
  · obtain ⟨after, done, frames, globals⟩ := change m
    rw [done]
    exact ⟨frames, fun typed g held => typed g (globals ▸ held)⟩
  · obtain ⟨after, done, _⟩ := change m
    rw [Settles, done]
    trivial

theorem note (event : Event) : Inert (Run.note event) := elsewhere (fun _ => ⟨_, rfl, rfl, rfl⟩)

end Inert

theorem inert_found {f : Machine → Option α} {space : IndexSpace} {index : UInt32} (other : space ≠ .frame) :
    Inert (Run.look fun m => Machine.found space index (f m)) :=
  Inert.look (fun _ _ failed => found_fault failed other)

theorem inert_bindImport (offers : Imports) (i : Import) : Inert (bindImport offers i) := by
  apply Inert.bind
  · apply Inert.lift
    intro t failed
    unfold Imports.resolve at failed
    split at failed
    · cases failed
    · cases failed
      exact id
  · intro offer
    split
    · exact Inert.bind (inert_found (by decide)) (fun _ => Inert.elsewhere (fun _ => ⟨_, rfl, rfl, rfl⟩))
    · exact Inert.elsewhere (fun _ => ⟨_, rfl, rfl, rfl⟩)
    · exact Inert.elsewhere (fun _ => ⟨_, rfl, rfl, rfl⟩)
    · exact Inert.elsewhere (fun _ => ⟨_, rfl, rfl, rfl⟩)
    · exact Inert.trap id

theorem inert_defineFunction (type : UInt32) (body : FunctionBody) : Inert (defineFunction type body) :=
  Inert.bind (inert_found (by decide)) (fun _ => Inert.elsewhere (fun _ => ⟨_, rfl, rfl, rfl⟩))

theorem inert_defineTable (type : TableType) : Inert (defineTable type) := by
  apply Inert.bind
  · apply Inert.lift
    intro t failed
    unfold Table.create at failed
    split at failed
    · cases failed
      exact id
    · cases failed
  · exact fun _ => Inert.elsewhere (fun _ => ⟨_, rfl, rfl, rfl⟩)

theorem checkLimits_fault {limits : Limits} {t : Trap} (failed : Memory.checkLimits limits = .error t) :
    ¬ TypeFault t := by
  unfold Memory.checkLimits at failed
  by_cases beyond : Memory.maxPages < limits.min
  · rw [if_pos beyond] at failed
    cases failed
    exact id
  · rw [if_neg beyond] at failed
    cases bounded : limits.max with
    | none =>
      rw [bounded] at failed
      cases failed
    | some max =>
      rw [bounded] at failed
      by_cases above : max < limits.min
      · simp only [above, if_true] at failed
        cases failed
        exact id
      · simp only [above, if_false] at failed
        cases failed

theorem inert_defineMemory (limits : Limits) : Inert (defineMemory limits) := by
  apply Inert.bind
  · apply Inert.lift
    intro t failed
    unfold Memory.create at failed
    split at failed
    · cases failed
    next refused =>
      cases failed
      exact checkLimits_fault refused
  · exact fun _ => Inert.elsewhere (fun _ => ⟨_, rfl, rfl, rfl⟩)

theorem inert_collectExports (exports : List Export) (found : Exports) : Inert (collectExports exports found) := by
  induction exports generalizing found with
  | nil => exact Inert.pure found
  | cons e others ih =>
    unfold collectExports
    split
    · exact Inert.bind (inert_found (by decide)) (fun id => ih _)
    · exact Inert.bind (Inert.note _) (fun _ => ih found)

theorem inert_bindSlots (table slot : UInt32) (indices : List UInt32) : Inert (bindSlots table slot indices) := by
  induction indices generalizing slot with
  | nil => exact Inert.pure ()
  | cons index others ih =>
    apply Inert.bind (inert_found (by decide))
    intro function
    apply Inert.bind (inert_found (by decide))
    intro place
    apply Inert.bind (inert_found (by decide))
    intro t
    apply Inert.bind
    · apply Inert.lift
      intro t failed
      unfold Table.set at failed
      split at failed
      · cases failed
      · cases failed
        exact id
    · intro changed
      exact Inert.bind (Inert.elsewhere (fun _ => ⟨_, rfl, rfl, rfl⟩)) (fun _ => ih (slot + 1))

theorem inert_bindElement (segment : Nat) (table slot : UInt32) (indices : List UInt32) : Inert (do
    let _ ← Run.look (·.table table)
    bindSlots table slot indices
    Run.note (.elementApplied segment indices.length table slot)) := by
  apply Inert.bind (inert_found (by decide))
  intro _
  exact Inert.bind (inert_bindSlots table slot indices) (fun _ => Inert.note _)

theorem inert_copyToMemory (memory : UInt32) (offset : Int32) (bytes : List UInt8) :
    Inert (copyToMemory memory offset bytes) := by
  apply Inert.bind (inert_found (by decide))
  intro place
  apply Inert.bind (inert_found (by decide))
  intro target
  exact Inert.bind (Inert.lift (fun _ => write_fault)) (fun _ => Inert.elsewhere (fun _ => ⟨_, rfl, rfl, rfl⟩))

/-- One step of an instantiation. -/
inductive Phase where
  | setup (r : Run Unit) (inert : Inert r)
  | global (decl : GlobalDecl)
  | start (index : UInt32)
  | element (segment : Nat) (e : Element)
  | data (segment : Nat) (d : DataSegment)

namespace Phase

def run (fuel : Nat) : Phase → Run Unit
  | setup r _ => r
  | global decl => defineGlobal fuel decl
  | start index => do
    Run.note (.startInvoked index)
    let f ← Run.look (·.function index)
    let _ ← f.invoke fuel f.type []
  | element segment e => applyElement fuel segment e
  | data segment d => applyDataSegment fuel segment d

/-- The phase comes to run code, in the state `ready`. -/
inductive Begins (m : Machine) : Phase → Activity → Machine → Prop where
  | global {decl ready} (added : addGlobal (.declared decl.type) m = .ok () ready) :
      Begins m (.global decl) (.evaluation decl.init decl.type.valueType) ready
  | start {index f ready} (noted : Run.note (.startInvoked index) m = .ok () ready)
      (found : ready.function index = .ok f) : Begins m (.start index) (.call f f.type []) ready
  | element {segment e table offset indices} (mode : e.mode = .active table offset)
      (items : e.items = .functions indices) : Begins m (.element segment e) (.evaluation offset .i32) m
  | data {segment d offset} (mode : d.mode = .active offset) :
      Begins m (.data segment d) (.evaluation offset .i32) m
  | explicitData {segment d memory offset} (mode : d.mode = .activeExplicit memory offset) :
      Begins m (.data segment d) (.evaluation offset .i32) m

end Phase

def perform (fuel : Nat) (phases : List Phase) : Run Unit := phases.forM (Phase.run fuel)

section Phases

variable (offers : Imports) (m : Module)

def importPhases : List Phase :=
  (m.imports?.getD []).map (fun i => .setup (bindImport offers i) (inert_bindImport offers i)) ++
    [.setup (fun m => Run.note (.importsResolved m.store.functions.size m.store.tables.size m.store.memories.size
      m.store.globals.size) m) (Inert.elsewhere fun _ => ⟨_, rfl, rfl, rfl⟩)]

def matchBodies (types : List UInt32) (bodies : List FunctionBody) : Run Unit :=
  if types.length ≠ bodies.length then
    Run.trap (.invalidIndex .code (UInt32.ofNat (min types.length bodies.length)))
  else return ()

theorem inert_matchBodies (types : List UInt32) (bodies : List FunctionBody) : Inert (matchBodies types bodies) := by
  unfold matchBodies
  split
  · exact Inert.trap id
  · exact Inert.pure ()

def functionPhases : List Phase :=
  let types := m.functions?.getD []
  let bodies := m.bodies?.getD []
  .setup (matchBodies types bodies) (inert_matchBodies types bodies) ::
    (types.zip bodies).map (fun (type, body) => .setup (defineFunction type body) (inert_defineFunction type body)) ++
    [.setup (Run.note (.functionsDefined bodies.length)) (Inert.note _)]

def globalPhases : List Phase :=
  match m.globals? with
  | none => []
  | some decls => decls.map .global ++ [.setup (Run.note (.globalsInitialized decls.length)) (Inert.note _)]

def exportPhase : Phase :=
  .setup (do let _ ← collectExports (m.exports?.getD []) {}) (Inert.bind (inert_collectExports _ _) fun _ => Inert.pure ())

/-- An instantiation, one step after the other. -/
def phases : List Phase :=
  [.setup (Run.modifyStore fun s => { s with types := m.types?.getD [] }) (Inert.elsewhere fun _ => ⟨_, rfl, rfl, rfl⟩)] ++
    importPhases offers m ++ functionPhases m ++
    (m.tables?.getD []).map (fun type => .setup (defineTable type) (inert_defineTable type)) ++
    (m.memories?.getD []).map (fun limits => .setup (defineMemory limits) (inert_defineMemory limits)) ++
    globalPhases m ++ [exportPhase m] ++ m.start?.toList.map .start ++
    (m.elements?.getD []).zipIdx.map (fun (e, segment) => .element segment e) ++
    (m.data?.getD []).zipIdx.map (fun (d, segment) => .data segment d)

end Phases

section Equation

variable (fuel : Nat)

theorem perform_append (first rest : List Phase) :
    perform fuel (first ++ rest) = (do perform fuel first; perform fuel rest) := List.forM_append

theorem perform_single (p : Phase) : perform fuel [p] = p.run fuel := by
  simp [perform]

theorem perform_map {items : List α} {phase : α → Phase} {step : α → Run Unit}
    (same : ∀ a, (phase a).run fuel = step a) : perform fuel (items.map phase) = items.forM step := by
  induction items with
  | nil => rfl
  | cons item items ih =>
    change (do (phase item).run fuel; perform fuel (items.map phase)) = (do step item; items.forM step)
    rw [same, ih]

theorem perform_elements (segment : Nat) (elements : List Element) :
    perform fuel ((elements.zipIdx segment).map fun (e, segment) => .element segment e) =
      applyElements fuel segment elements := by
  induction elements generalizing segment with
  | nil => rfl
  | cons e others ih =>
    change (do applyElement fuel segment e; perform fuel _) = (do applyElement fuel segment e; applyElements fuel _ others)
    rw [ih]

theorem perform_data (segment : Nat) (data : List DataSegment) :
    perform fuel ((data.zipIdx segment).map fun (d, segment) => .data segment d) = applyData fuel segment data := by
  induction data generalizing segment with
  | nil => rfl
  | cons d others ih =>
    change (do applyDataSegment fuel segment d; perform fuel _) =
      (do applyDataSegment fuel segment d; applyData fuel _ others)
    rw [ih]

theorem perform_imports (offers : Imports) (m : Module) : perform fuel (importPhases offers m) = bindImports offers m := by
  rw [importPhases, perform_append, perform_single, perform_map fuel (fun _ => rfl)]
  rfl

private theorem trap_bind {t : Trap} {next : α → Run β} : Run.trap t >>= next = Run.trap t := rfl

theorem perform_functions (m : Module) : perform fuel (functionPhases m) = defineFunctions m := by
  rw [functionPhases, defineFunctions]
  dsimp only
  rw [List.cons_append, ← List.singleton_append, perform_append, perform_append, perform_single, perform_single,
    perform_map fuel (fun _ => rfl)]
  simp only [Phase.run, matchBodies]
  split
  · simp only [trap_bind]
  · simp only [pure_bind]

theorem perform_globals (m : Module) : perform fuel (globalPhases m) = defineGlobals fuel m := by
  unfold globalPhases defineGlobals
  cases m.globals? with
  | none => rfl
  | some decls =>
    dsimp only
    rw [perform_append, perform_single, perform_map fuel (fun _ => rfl)]
    rfl

theorem perform_start (m : Module) : perform fuel (m.start?.toList.map .start) = runStart fuel m := by
  unfold runStart
  cases m.start? with
  | none => rfl
  | some index => exact perform_single fuel _

/-- The phases are the instantiation, but for the exports that it returns. -/
theorem perform_phases (offers : Imports) (m : Module) :
    perform fuel (phases offers m) = (do let _ ← m.instantiate fuel offers) := by
  simp only [phases, perform_append, perform_single, perform_imports, perform_functions, perform_globals, perform_start,
    perform_elements, perform_data]
  rw [perform_map fuel (fun _ => rfl), perform_map fuel (fun _ => rfl)]
  simp only [Module.instantiate, bind_assoc, exportPhase, Phase.run, pure_bind, bind_pure_unit]

end Equation

section Code

variable (fuel : Nat)

theorem evaluate_undisturbed (code : Code) (type : ValueType) : Within Undisturbed (code.evaluate fuel type) :=
  fun m => ⟨(CallFrames.evaluate_frames fuel code type m).frames, (evaluate_types fuel code type m).globals⟩

theorem invoke_undisturbed (f : Function) (type : FunctionType) (given : List Value) :
    Within Undisturbed (f.invoke fuel type given) :=
  fun m => ⟨(CallFrames.invoke_frames fuel f type given m).frames, (invoke_types fuel f type given m).globals⟩

theorem evaluateOffset_undisturbed (code : Code) : Within Undisturbed (evaluateOffset fuel code) := by
  apply Within.bind Undisturbed.trans (evaluate_undisturbed fuel code .i32)
  intro value
  cases value.toI32? with
  | some v => exact fun m => Undisturbed.refl m
  | none => exact fun m => Undisturbed.refl m

theorem settles_evaluateOffset (code : Code) (m : Machine) :
    Settles (Blames ((Activity.evaluation code .i32).HostFault fuel m)) (fun _ _ => True) (evaluateOffset fuel code) m := by
  apply (settles_evaluate fuel code .i32 m).bind
  intro value between typed
  cases value with
  | i32 v => trivial
  | i64 v | f32 v | f64 v => cases typed

theorem found_some {space : IndexSpace} {index : UInt32} {o : Option α} {a : α}
    (found : Machine.found space index o = .ok a) : o = some a := by
  cases o with
  | none => cases found
  | some b => exact congrArg some (Except.ok.inj found)

theorem storeInitial_undisturbed (g : Global) (index : UInt32) (value : Value) (id : Nat) :
    Within Undisturbed (do
      let changed ← Run.lift (g.storeInitial index value)
      Run.modifyHeap (·.setGlobal id changed)) := by
  intro m
  cases stored : g.storeInitial index value with
  | error t => exact Undisturbed.refl m
  | ok changed => exact ⟨rfl, fun typed => globalsTyped_set typed (global_storeInitial stored) id⟩

theorem storeInitial_fault {g : Global} {index : UInt32} {value : Value} {t : Trap}
    (typed : value.type = g.type.valueType) (failed : g.storeInitial index value = .error t) : ¬ TypeFault t := by
  unfold Global.storeInitial at failed
  split at failed
  · cases failed
    exact id
  · rw [Global.checkType, if_pos typed] at failed
    cases failed

theorem addGlobal_undisturbed (type : GlobalType) : Within Undisturbed (addGlobal (.declared type)) :=
  fun _ => ⟨rfl, fun typed => globalsTyped_add typed (zero_type type.valueType)⟩

theorem defineGlobal_undisturbed (decl : GlobalDecl) : Within Undisturbed (defineGlobal fuel decl) := by
  have sizes : Within Undisturbed
      (fun m => .ok (m.store.globals.size, m.heap.globals.size) m : Run (Nat × Nat)) := fun m => Undisturbed.refl m
  apply Within.bind Undisturbed.trans sizes
  rintro ⟨index, id⟩
  apply Within.bind Undisturbed.trans (addGlobal_undisturbed decl.type)
  intro _
  apply Within.bind Undisturbed.trans (evaluate_undisturbed fuel decl.init decl.type.valueType)
  intro value
  apply Within.bind Undisturbed.trans (inert_found (by decide)).undisturbed
  intro global
  exact storeInitial_undisturbed global (UInt32.ofNat index) value id

/-- The global still has its type when its initial value has been computed, and the value was asked for by it. -/
theorem settles_defineGlobal {cause : Trap → Prop} (decl : GlobalDecl) (m : Machine)
    (host_cause : ∀ ready t, addGlobal (.declared decl.type) m = .ok () ready →
      (Activity.evaluation decl.init decl.type.valueType).HostFault fuel ready t → cause t) :
    Settles (Blames cause) (fun _ _ => True) (defineGlobal fuel decl) m := by
  have sizes : Settles (Blames cause)
      (fun found after => found = (m.store.globals.size, m.heap.globals.size) ∧ after = m)
      (fun m => .ok (m.store.globals.size, m.heap.globals.size) m) m := ⟨rfl, rfl⟩
  apply sizes.bind
  rintro _ before ⟨rfl, rfl⟩
  have declared : Settles (Blames cause) (fun _ ready => addGlobal (.declared decl.type) before = .ok () ready)
      (addGlobal (.declared decl.type)) before := rfl
  apply declared.bind
  intro _ ready added
  have value := settles_evaluate fuel decl.init decl.type.valueType ready
  apply (value.explain (Blames.imp (fun t => host_cause ready t added))).known.bind
  rintro value _ ⟨evaluated, typed⟩
  apply (settles_found (by decide)).bind
  rintro global after ⟨found, rfl⟩
  have same : global.type = decl.type := by
    have kept := (evaluate_types fuel decl.init decl.type.valueType ready).declared before.heap.globals.size
    have here : after.heap.globals[before.heap.globals.size]? = some global := found_some found
    have first : ready.heap.globals[before.heap.globals.size]? = some (.declared decl.type) := by
      cases added
      exact Array.getElem?_push_size
    rw [evaluated, first] at kept
    simp only [final] at kept
    rw [here] at kept
    exact Option.some.inj kept
  have fits : value.type = global.type.valueType := by rw [same, typed]
  apply (settles_lift (fun t failed fault => absurd fault (storeInitial_fault fits failed))).bind
  intro changed _ _
  trivial

theorem applyElement_undisturbed (segment : Nat) (e : Element) : Within Undisturbed (applyElement fuel segment e) := by
  unfold applyElement
  split
  · exact (Inert.note _).undisturbed
  · exact (Inert.note _).undisturbed
  · split
    · exact (Inert.trap id).undisturbed
    · apply Within.bind Undisturbed.trans (evaluateOffset_undisturbed fuel _)
      exact fun offset => (inert_bindElement segment _ offset.toUInt32 _).undisturbed

theorem applyDataAt_undisturbed (segment : Nat) (memory : UInt32) (offset : Code) (bytes : List UInt8) :
    Within Undisturbed (applyDataAt fuel segment memory offset bytes) := by
  apply Within.bind Undisturbed.trans (evaluateOffset_undisturbed fuel offset)
  intro offset
  exact Within.bind Undisturbed.trans (inert_copyToMemory memory offset bytes).undisturbed
    (fun _ => (Inert.note _).undisturbed)

theorem settles_applyDataAt (segment : Nat) (memory : UInt32) (offset : Code) (bytes : List UInt8) (m : Machine) :
    Settles (Blames ((Activity.evaluation offset .i32).HostFault fuel m)) (fun _ _ => True)
      (applyDataAt fuel segment memory offset bytes) m := by
  apply (settles_evaluateOffset fuel offset m).bind
  intro place between _
  have rest := (inert_copyToMemory memory place bytes).bind
    (fun _ => Inert.note (.dataApplied segment bytes.length memory place))
  exact (rest.faultless between).explain (Blames.imp (fun _ => False.elim))

theorem phase_undisturbed (p : Phase) : Within Undisturbed (p.run fuel) := by
  cases p with
  | setup r inert => exact inert.undisturbed
  | global decl => exact defineGlobal_undisturbed fuel decl
  | start index =>
    apply Within.bind Undisturbed.trans (Inert.note _).undisturbed
    intro _
    apply Within.bind Undisturbed.trans (inert_found (by decide)).undisturbed
    intro f
    exact Within.bind Undisturbed.trans (invoke_undisturbed fuel f f.type []) (fun _ m => Undisturbed.refl m)
  | element segment e => exact applyElement_undisturbed fuel segment e
  | data segment d =>
    simp only [Phase.run, applyDataSegment]
    split
    · exact (Inert.note _).undisturbed
    · exact applyDataAt_undisturbed fuel segment 0 _ d.bytes
    · exact applyDataAt_undisturbed fuel segment _ _ d.bytes

/-- A fault of types in a phase comes from the code that the phase runs. -/
theorem settles_phase (p : Phase) (m : Machine) :
    Settles (Blames fun t => ∃ x ready, p.Begins m x ready ∧ x.HostFault fuel ready t) (fun _ _ => True)
      (p.run fuel) m := by
  cases p with
  | setup r inert => exact (inert.faultless m).explain (Blames.imp (fun _ => False.elim))
  | global decl => exact settles_defineGlobal fuel decl m (fun ready t added fault => ⟨_, ready, .global added, fault⟩)
  | start index =>
    apply (settles_note (.startInvoked index)).known.bind
    rintro _ _ ⟨noted, _⟩
    apply (settles_found (by decide)).bind
    rintro f ready ⟨found, rfl⟩
    have causes : ∀ t, GivenMismatch f.type [] t ∨ (Activity.call f f.type []).HostFault fuel ready t →
        ∃ x ready, Phase.Begins m (.start index) x ready ∧ x.HostFault fuel ready t := by
      rintro t (impossible | fault)
      · exact absurd impossible (no_givenMismatch f.type t)
      · exact ⟨_, ready, .start noted found, fault⟩
    exact ((settles_invoke fuel f f.type [] ready).explain (Blames.imp causes)).bind (fun _ _ _ => trivial)
  | element segment e =>
    simp only [Phase.run, applyElement]
    split
    · exact trivial
    · exact trivial
    next table offset mode =>
      split
      · exact fun fault => False.elim fault
      next indices items =>
        have begins : Phase.Begins m (.element segment e) (.evaluation offset .i32) m := .element mode items
        apply ((settles_evaluateOffset fuel offset m).explain
          (Blames.imp (fun t fault => ⟨_, m, begins, fault⟩))).bind
        intro slot between _
        exact ((inert_bindElement segment table slot.toUInt32 indices).faultless between).explain
          (Blames.imp (fun _ => False.elim))
  | data segment d =>
    simp only [Phase.run, applyDataSegment]
    split
    · exact trivial
    next offset mode =>
      exact (settles_applyDataAt fuel segment 0 offset d.bytes m).explain
        (Blames.imp (fun t fault => ⟨_, m, .data mode, fault⟩))
    next memory offset mode =>
      exact (settles_applyDataAt fuel segment memory offset d.bytes m).explain
        (Blames.imp (fun t fault => ⟨_, m, .explicitData mode, fault⟩))

end Code

end WasmMachine.Proofs.InstantiationPhases

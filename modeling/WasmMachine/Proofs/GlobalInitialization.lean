import Mathlib.Logic.ExistsUnique
import WasmMachine.Proofs.IndexAgreement

/-! The order in which globals are initialized. A declared global is put in its place, its initial value is computed,
and the value is stored. So while code runs in an instantiation, of all globals in place only the one waits whose own
value is being computed, and those that are declared behind it are not in place yet. Code can see the one that waits,
as zero, and can write to it. -/

namespace WasmMachine.Proofs.GlobalInitialization
open Sequencing CallParts InstructionEffects CodeFootprint RunPlaces Instantiation InstantiationPhases
open IndexSpaces IndexAgreement
open TypeSoundness (halt?)

/-- The types of all globals, and whether they have been initialized. -/
def shapes (m : Machine) : List (GlobalType × Bool) := m.heap.globals.toList.map globalShape

def declares : Phase → List GlobalDecl
  | .global decl => [decl]
  | _ => []

def initialized (decls : List GlobalDecl) : List (GlobalType × Bool) := decls.map fun decl => (decl.type, true)

def waiting (decls : List GlobalDecl) : List (GlobalType × Bool) := decls.map fun decl => (decl.type, false)

section Code

/-- Running code leaves everything alone that it must not touch, also on the way. -/
theorem steps_untouched {p q : Place} (steps : p.Steps q) : Untouched p.machine q.machine := by
  obtain @⟨fuel, a, id, node, m, paid, next, stepped, found, charged, step⟩ := steps
  have first := consumeStep_untouched m
  have second := untouched_law.instructions.step untouched_law.count (invoke_untouched fuel) a id node paid
  rw [charged] at first
  rw [step] at second
  exact Untouched.trans _ _ _ first second

theorem untouched_of_calls {o : Op} {m ready : Machine} {f : Function} {type : FunctionType}
    (calls : RunMoments.Calls o m f type ready) : Untouched m ready := by
  have stops : ∀ f type given, Within Untouched ((fun _ _ _ => throw .outOfFuel : Caller) f type given) :=
    fun _ _ _ m => Untouched.refl m
  have same := untouched_law.instructions.op stops o m
  rw [calls (fun _ _ _ => throw .outOfFuel)] at same
  exact same

theorem calls_untouched {p : Place} {f : Function} {type : FunctionType} {ready : Machine}
    (called : p.Calls f type ready) : Untouched p.machine ready := by
  obtain @⟨fuel, a, id, o, parent, next, m, paid, reported, f, type, ready, found, charged, noted, calls⟩ := called
  have first := consumeStep_untouched m
  have second := untouched_law.count o.mnemonic paid
  rw [charged] at first
  rw [noted] at second
  exact Untouched.trans _ _ _ (Untouched.trans _ _ _ first second) (untouched_of_calls calls)

theorem enters_untouched {fuel : Nat} {m : Machine} {x : Activity} {types : List ValueType} {p : Place}
    (enters : x.Enters fuel m types p) : Untouched m p.machine := by
  cases enters with
  | @call own locals body type given entered starts =>
    obtain ⟨frame, prepared, outcome, pushed⟩ := starts
    have kept := untouched_law.parts.prepare type locals given m
    rw [outcome] at kept
    obtain ⟨_, rfl⟩ := pushFrame_eq_ok pushed
    exact Untouched.trans _ _ _ kept (Untouched.running rfl)
  | evaluation pushed =>
    obtain ⟨_, rfl⟩ := pushFrame_eq_ok pushed
    exact Untouched.running rfl

theorem visits_untouched {p q : Place} {calls : List (List ValueType)} (visits : Visits p calls q) :
    Untouched p.machine q.machine := by
  induction visits with
  | here => exact Untouched.refl _
  | later steps _ ih => exact Untouched.trans _ _ _ (steps_untouched steps) ih
  | inside called enters _ ih =>
    have entered := Untouched.trans _ _ _ (calls_untouched called) (enters_untouched enters)
    exact Untouched.trans _ _ _ entered ih

end Code

section Steady

variable {α : Type}

/-- No global is added or named, and none comes to be initialized. -/
structure SameGlobals (before after : Machine) : Prop where
  shapes : shapes after = shapes before
  names : after.store.globals = before.store.globals

theorem SameGlobals.trans (a b c : Machine) (first : SameGlobals a b) (second : SameGlobals b c) : SameGlobals a c :=
  ⟨second.shapes.trans first.shapes, second.names.trans first.names⟩

theorem sameGlobals_of_untouched {before after : Machine} (untouched : Untouched before after) :
    SameGlobals before after := by
  refine ⟨?_, untouched.store.globals⟩
  have same := congrArg Array.toList untouched.heap.globals
  rwa [Array.toList_map, Array.toList_map] at same

theorem steady_of_untouched {r : Run α} (untouched : Within Untouched r) : Within SameGlobals r :=
  fun m => sameGlobals_of_untouched (untouched m)

theorem steady_of_quiet {r : Run α} (quiet : Quiet r) : Within SameGlobals r :=
  steady_of_untouched (untouched_law.quiet quiet)

theorem matchBodies_steady (types : List UInt32) (bodies : List FunctionBody) :
    Within SameGlobals (matchBodies types bodies) := by
  unfold matchBodies
  split
  · exact steady_of_quiet (Quiet.trap _)
  · exact steady_of_quiet (Quiet.pure ())

theorem defineFunction_steady (type : UInt32) (body : FunctionBody) : Within SameGlobals (defineFunction type body) :=
  Within.bind SameGlobals.trans (steady_of_quiet (Quiet.look _)) (fun _ _ => ⟨rfl, rfl⟩)

theorem defineTable_steady (type : TableType) : Within SameGlobals (defineTable type) :=
  Within.bind SameGlobals.trans (steady_of_quiet (Quiet.lift _)) (fun _ _ => ⟨rfl, rfl⟩)

theorem defineMemory_steady (limits : Limits) : Within SameGlobals (defineMemory limits) :=
  Within.bind SameGlobals.trans (steady_of_quiet (Quiet.lift _)) (fun _ _ => ⟨rfl, rfl⟩)

theorem collectExports_steady (exports : List Export) (found : Exports) :
    Within SameGlobals (collectExports exports found) := by
  induction exports generalizing found with
  | nil => exact steady_of_quiet (Quiet.pure found)
  | cons e others ih =>
    unfold collectExports
    split
    · exact Within.bind SameGlobals.trans (steady_of_quiet (Quiet.look _)) (fun id => ih _)
    · exact Within.bind SameGlobals.trans (steady_of_quiet (Quiet.note _)) (fun _ => ih found)

theorem start_steady (fuel : Nat) (index : UInt32) : Within SameGlobals ((Phase.start index).run fuel) := by
  apply Within.bind SameGlobals.trans (steady_of_quiet (Quiet.note _))
  intro _
  apply Within.bind SameGlobals.trans (steady_of_quiet (Quiet.look _))
  intro f
  exact Within.bind SameGlobals.trans (steady_of_untouched (invoke_untouched fuel f f.type []))
    (fun _ => steady_of_quiet (Quiet.pure ()))

theorem evaluateOffset_steady (fuel : Nat) (code : Code) : Within SameGlobals (evaluateOffset fuel code) := by
  apply Within.bind SameGlobals.trans (steady_of_untouched (evaluate_untouched fuel code .i32))
  intro value
  cases value.toI32? with
  | some v => exact steady_of_quiet (Quiet.pure v)
  | none => exact steady_of_quiet (Quiet.trap _)

theorem bindSlots_steady (table slot : UInt32) (indices : List UInt32) :
    Within SameGlobals (bindSlots table slot indices) := by
  induction indices generalizing slot with
  | nil => exact steady_of_quiet (Quiet.pure ())
  | cons index others ih =>
    apply Within.bind SameGlobals.trans (steady_of_quiet (Quiet.look _))
    intro function
    apply Within.bind SameGlobals.trans (steady_of_quiet (Quiet.look _))
    intro place
    apply Within.bind SameGlobals.trans (steady_of_quiet (Quiet.look _))
    intro t
    apply Within.bind SameGlobals.trans (steady_of_quiet (Quiet.lift _))
    intro changed
    exact Within.bind SameGlobals.trans (fun _ => ⟨rfl, rfl⟩) (fun _ => ih (slot + 1))

theorem applyElement_steady (fuel segment : Nat) (e : Element) : Within SameGlobals (applyElement fuel segment e) := by
  unfold applyElement
  split
  · exact steady_of_quiet (Quiet.note _)
  · exact steady_of_quiet (Quiet.note _)
  · split
    · exact steady_of_quiet (Quiet.trap _)
    · apply Within.bind SameGlobals.trans (evaluateOffset_steady fuel _)
      intro offset
      apply Within.bind SameGlobals.trans (steady_of_quiet (Quiet.look _))
      intro _
      exact Within.bind SameGlobals.trans (bindSlots_steady _ _ _) (fun _ => steady_of_quiet (Quiet.note _))

theorem copyToMemory_steady (memory : UInt32) (offset : Int32) (bytes : List UInt8) :
    Within SameGlobals (copyToMemory memory offset bytes) := by
  apply Within.bind SameGlobals.trans (steady_of_quiet (Quiet.look _))
  intro id
  apply Within.bind SameGlobals.trans (steady_of_quiet (Quiet.look _))
  intro target
  exact Within.bind SameGlobals.trans (steady_of_quiet (Quiet.lift _)) (fun _ _ => ⟨rfl, rfl⟩)

theorem applyDataAt_steady (fuel segment : Nat) (memory : UInt32) (offset : Code) (bytes : List UInt8) :
    Within SameGlobals (applyDataAt fuel segment memory offset bytes) := by
  apply Within.bind SameGlobals.trans (evaluateOffset_steady fuel offset)
  intro place
  exact Within.bind SameGlobals.trans (copyToMemory_steady memory place bytes) (fun _ => steady_of_quiet (Quiet.note _))

theorem applyDataSegment_steady (fuel segment : Nat) (d : DataSegment) :
    Within SameGlobals (applyDataSegment fuel segment d) := by
  unfold applyDataSegment
  split
  · exact steady_of_quiet (Quiet.note _)
  · exact applyDataAt_steady fuel segment 0 _ d.bytes
  · exact applyDataAt_steady fuel segment _ _ d.bytes

end Steady

section Definition

variable {fuel : Nat} {m after : Machine} {decl : GlobalDecl}

/-- The state in which the initial value of a global is computed: the global is in place, and holds zero. -/
def inPlace (decl : GlobalDecl) (m : Machine) : Machine :=
  { m with
    heap := m.heap.addGlobal (.declared decl.type)
    store := { m.store with globals := m.store.globals.push m.heap.globals.size } }

theorem shapes_getElem? (m : Machine) (id : Nat) : (shapes m)[id]? = m.heap.globals[id]?.map globalShape := by
  simp [shapes]

theorem shapes_length (m : Machine) : (shapes m).length = m.heap.globals.size := by
  simp [shapes]

theorem shapes_inPlace (decl : GlobalDecl) (m : Machine) : shapes (inPlace decl m) = shapes m ++ waiting [decl] := by
  simp [shapes, inPlace, Heap.addGlobal, globalShape, Global.declared, waiting]

theorem evaluated_steady {value : Value} {ran : Machine}
    (evaluated : decl.init.evaluate fuel decl.type.valueType (inPlace decl m) = .ok value ran) :
    SameGlobals (inPlace decl m) ran := by
  have kept := steady_of_untouched (evaluate_untouched fuel decl.init decl.type.valueType) (inPlace decl m)
  rwa [evaluated] at kept

theorem storeInitial_eq_ok {g changed : Global} {index : UInt32} {value : Value}
    (stored : g.storeInitial index value = .ok changed) : changed = ⟨g.type, value, true⟩ := by
  unfold Global.storeInitial at stored
  split at stored
  · cases stored
  · unfold Global.checkType at stored
    split at stored
    · cases stored
      rfl
    · cases stored

/-- A global takes its value from its own expression. -/
theorem defineGlobal_eq_ok (done : defineGlobal fuel decl m = .ok () after) :
    ∃ value ran, decl.init.evaluate fuel decl.type.valueType (inPlace decl m) = .ok value ran ∧
      after = { ran with heap := ran.heap.setGlobal m.heap.globals.size ⟨decl.type, value, true⟩ } := by
  obtain ⟨⟨index, id⟩, _, sizes, first⟩ := bind_eq_ok done
  cases sizes
  obtain ⟨_, ready, added, second⟩ := bind_eq_ok first
  cases added
  obtain ⟨value, _, evaluated, third⟩ := bind_eq_ok second
  obtain ⟨g, _, looked, fourth⟩ := bind_eq_ok third
  obtain ⟨found, rfl⟩ := look_eq_ok looked
  obtain ⟨changed, ran, lifted, last⟩ := bind_eq_ok fourth
  obtain ⟨stored, rfl⟩ := lift_eq_ok lifted
  cases last
  have same : g.type = decl.type := by
    have seen := shapes_getElem? ran m.heap.globals.size
    rw [found_some found, (evaluated_steady evaluated).shapes, shapes_inPlace, waiting, List.map_singleton,
      ← shapes_length m, List.getElem?_concat_length] at seen
    exact congrArg Prod.fst (Option.some.inj seen).symm
  obtain rfl := storeInitial_eq_ok stored
  rw [← same]
  exact ⟨value, ran, same ▸ evaluated, rfl⟩

end Definition

section Phases

variable {fuel : Nat} {m after : Machine}

/-- Between the two states these globals were declared, which are at the end of the heap and of the index space and have
their initial values. -/
structure Defines (decls : List GlobalDecl) (before after : Machine) : Prop where
  shapes : shapes after = shapes before ++ initialized decls
  names : after.store.globals.toList = before.store.globals.toList ++ List.range' before.heap.globals.size decls.length

theorem Defines.size {decls : List GlobalDecl} {a b : Machine} (defines : Defines decls a b) :
    b.heap.globals.size = a.heap.globals.size + decls.length := by
  have lengths := congrArg List.length defines.shapes
  simpa [shapes_length, initialized] using lengths

theorem Defines.none {a b : Machine} (same : SameGlobals a b) : Defines [] a b :=
  ⟨same.shapes.trans (List.append_nil _).symm, by rw [same.names]; exact (List.append_nil _).symm⟩

theorem Defines.trans {first second : List GlobalDecl} {a b c : Machine} (head : Defines first a b)
    (tail : Defines second b c) : Defines (first ++ second) a c where
  shapes := by rw [tail.shapes, head.shapes, List.append_assoc, initialized, initialized, initialized, List.map_append]
  names := by rw [tail.names, head.names, head.size, List.append_assoc, List.range'_append_1, List.length_append]

theorem defineGlobal_defines {decl : GlobalDecl} (done : defineGlobal fuel decl m = .ok () after) :
    Defines [decl] m after := by
  obtain ⟨value, ran, evaluated, rfl⟩ := defineGlobal_eq_ok done
  have kept := evaluated_steady evaluated
  have stored : shapes { ran with heap := ran.heap.setGlobal m.heap.globals.size ⟨decl.type, value, true⟩ } =
      (shapes ran).set m.heap.globals.size (decl.type, true) := by
    simp [shapes, Heap.setGlobal, List.map_set, globalShape]
  refine ⟨?_, ?_⟩
  · rw [stored, kept.shapes, shapes_inPlace, ← shapes_length m, List.set_append_right _ _ (Nat.le_refl _)]
    simp [waiting, initialized]
  · rw [kept.names, inPlace, Array.toList_push]
    rfl

/-- A phase that declares no global leaves all of them as they are. -/
def Steady (fuel : Nat) (p : Phase) : Prop := declares p = [] → Within SameGlobals (p.run fuel)

theorem phase_defines {p : Phase} (steady : Steady fuel p) (done : p.run fuel m = .ok () after) :
    Defines (declares p) m after := by
  cases p with
  | global decl => exact defineGlobal_defines done
  | setup | start | element | data =>
    have kept := steady rfl m
    rw [done] at kept
    exact Defines.none kept

theorem perform_defines {list : List Phase} (steady : ∀ p ∈ list, Steady fuel p)
    (done : perform fuel list m = .ok () after) : Defines (list.flatMap declares) m after := by
  induction list generalizing m with
  | nil =>
    cases done
    exact Defines.none ⟨rfl, rfl⟩
  | cons p rest ih =>
    obtain ⟨_, between, head, tail⟩ := bind_eq_ok (show (do p.run fuel; perform fuel rest) m = _ from done)
    have first := phase_defines (steady p List.mem_cons_self) head
    exact first.trans (ih (fun q member => steady q (List.mem_cons_of_mem p member)) tail)

end Phases

section Imports

variable {offers : Imports} {module : Module} {m after : Machine}

/-- What is imported is named, which makes no global and initializes none. -/
def SameShapes (before after : Machine) : Prop := shapes after = shapes before

theorem SameShapes.trans (a b c : Machine) (first : SameShapes a b) (second : SameShapes b c) : SameShapes a c :=
  Eq.trans second first

theorem bindImport_shapes (offers : Imports) (i : Import) : Within SameShapes (bindImport offers i) := by
  apply Within.bind SameShapes.trans (fun m => (steady_of_quiet (Quiet.lift _) m).shapes)
  intro offer
  split
  · exact Within.bind SameShapes.trans (fun m => (steady_of_quiet (Quiet.look _) m).shapes) (fun _ _ => rfl)
  · exact fun _ => rfl
  · exact fun _ => rfl
  · exact fun _ => rfl
  · exact fun m => (steady_of_quiet (Quiet.trap _) m).shapes

theorem bindImports_shapes (bound : bindImports offers module m = .ok () after) : shapes after = shapes m := by
  have all : ∀ imports : List Import, Within SameShapes (imports.forM (bindImport offers)) := by
    intro imports
    induction imports with
    | nil => exact fun _ => rfl
    | cons i others ih => exact Within.bind SameShapes.trans (bindImport_shapes offers i) (fun _ => ih)
  have kept : Within SameShapes (bindImports offers module) :=
    Within.bind SameShapes.trans (all _) (fun _ _ => rfl)
  have same := kept m
  rwa [bound] at same

theorem named_foldl (entries : List Entry) (s : Space) :
    (entries.foldl Space.add s).named.length = s.named.length + entries.length := by
  induction entries generalizing s with
  | nil => rfl
  | cons e others ih =>
    have one : (s.add e).named.length = s.named.length + 1 := by cases e <;> simp [Space.add]
    rw [List.foldl_cons, ih, one, List.length_cons, Nat.add_assoc, Nat.add_comm 1]

/-- Each import of a global names one, and makes none. -/
theorem bindImports_names (bound : bindImports offers module m = .ok () after) :
    after.store.globals.size = m.store.globals.size + (importsOf module .global).length := by
  have lengths := congrArg (fun s => s.named.length) ((bindImports_adds rfl bound).spaces .global)
  rw [named_foldl, List.length_map] at lengths
  simpa [space, names] using lengths

theorem inert_types (module : Module) : Inert (Run.modifyStore fun s => { s with types := module.types?.getD [] }) :=
  Inert.elsewhere fun _ => ⟨_, rfl, rfl, rfl⟩

/-- The phases that name what is imported. -/
def bindingPhases (offers : Imports) (module : Module) : List Phase :=
  .setup (Run.modifyStore fun s => { s with types := module.types?.getD [] }) (inert_types module) ::
    importPhases offers module

/-- The phases that make things, and run code. -/
def definingPhases (module : Module) : List Phase :=
  functionPhases module ++ (module.tables?.getD []).map (fun type => .setup (defineTable type) (inert_defineTable type)) ++
    (module.memories?.getD []).map (fun limits => .setup (defineMemory limits) (inert_defineMemory limits)) ++
    globalPhases module ++ [exportPhase module] ++ module.start?.toList.map .start ++
    (module.elements?.getD []).zipIdx.map (fun (e, segment) => .element segment e) ++
    (module.data?.getD []).zipIdx.map (fun (d, segment) => .data segment d)

theorem phases_eq (offers : Imports) (module : Module) :
    phases offers module = bindingPhases offers module ++ definingPhases module := by
  simp only [phases, bindingPhases, definingPhases, List.append_assoc, List.cons_append, List.nil_append]

theorem bindingPhases_setup (offers : Imports) (module : Module) :
    ∀ p ∈ bindingPhases offers module, ∃ r inert, p = .setup r inert := by
  simp only [bindingPhases, importPhases, List.forall_mem_cons, List.forall_mem_append, List.forall_mem_map]
  exact ⟨⟨_, _, rfl⟩, fun i _ => ⟨_, _, rfl⟩, ⟨_, _, rfl⟩, fun p none => absurd none List.not_mem_nil⟩

theorem perform_bindingPhases {fuel : Nat} (performed : perform fuel (bindingPhases offers module) m = .ok () after) :
    shapes after = shapes m ∧ after.store.globals.size = m.store.globals.size + (importsOf module .global).length := by
  rw [bindingPhases, ← List.singleton_append, perform_append, perform_single, perform_imports] at performed
  obtain ⟨_, _, typed, bound⟩ := bind_eq_ok performed
  cases typed
  have shaped := bindImports_shapes bound
  have named := bindImports_names bound
  exact ⟨shaped, named⟩

theorem functionPhases_steady (fuel : Nat) (module : Module) : ∀ p ∈ functionPhases module, Steady fuel p := by
  simp only [functionPhases, List.forall_mem_append, List.forall_mem_map, List.forall_mem_singleton, List.forall_mem_cons]
  exact ⟨⟨fun _ => matchBodies_steady _ _, fun definition _ _ => defineFunction_steady definition.1 definition.2⟩,
    fun _ => steady_of_quiet (Quiet.note _)⟩

theorem globalPhases_steady (fuel : Nat) (module : Module) : ∀ p ∈ globalPhases module, Steady fuel p := by
  unfold globalPhases
  split
  · exact fun p none => absurd none List.not_mem_nil
  · simp only [List.forall_mem_append, List.forall_mem_map, List.forall_mem_singleton]
    exact ⟨fun decl _ impossible => absurd impossible (List.cons_ne_nil _ _), fun _ => steady_of_quiet (Quiet.note _)⟩

theorem definingPhases_steady (fuel : Nat) (module : Module) : ∀ p ∈ definingPhases module, Steady fuel p := by
  have exported : Steady fuel (exportPhase module) := fun _ =>
    Within.bind SameGlobals.trans (collectExports_steady _ _) (fun _ => steady_of_quiet (Quiet.pure ()))
  simp only [definingPhases, List.forall_mem_append, List.forall_mem_map, List.forall_mem_singleton]
  exact ⟨⟨⟨⟨⟨⟨⟨functionPhases_steady fuel module, fun type _ _ => defineTable_steady type⟩,
    fun limits _ _ => defineMemory_steady limits⟩, globalPhases_steady fuel module⟩, exported⟩,
    fun index _ _ => start_steady fuel index⟩, fun segment _ _ => applyElement_steady fuel segment.2 segment.1⟩,
    fun segment _ _ => applyDataSegment_steady fuel segment.2 segment.1⟩

theorem declares_bindingPhases (offers : Imports) (module : Module) :
    (bindingPhases offers module).flatMap declares = [] := by
  rw [List.flatMap_eq_nil_iff]
  intro p member
  obtain ⟨r, inert, rfl⟩ := bindingPhases_setup offers module p member
  rfl

theorem declares_definingPhases (module : Module) :
    (definingPhases module).flatMap declares = module.globals?.getD [] := by
  have globals : (globalPhases module).flatMap declares = module.globals?.getD [] := by
    unfold globalPhases
    cases module.globals? with
    | none => rfl
    | some decls => simp [List.flatMap_map, declares]
  have others : ∀ {α : Type} (items : List α), items.flatMap (fun _ => ([] : List GlobalDecl)) = [] := by
    intro α items
    exact List.flatMap_eq_nil_iff.mpr (fun _ _ => rfl)
  simp [definingPhases, functionPhases, exportPhase, globals, others, List.flatMap_map, declares]

end Imports

section Places

variable {fuel : Nat} {offers : Imports} {module : Module} {m : Machine}

/-- Of the phases of an instantiation those in front have been performed, and the code that the next one runs has come
to this place. -/
structure RunsAt (fuel : Nat) (offers : Imports) (module : Module) (m : Machine) (front : List Phase) (p : Phase)
    (q : Place) : Prop where
  next : ∃ back, phases offers module = front ++ p :: back
  code : ∃ now x ready types start calls, perform fuel front m = .ok () now ∧ p.Begins now x ready ∧
    x.Enters fuel ready types start ∧ Visits start calls q

/-- How many globals the code of the module can name before the first one that it declares. -/
def imported (module : Module) (m : Machine) : Nat := m.store.globals.size + (importsOf module .global).length

/-- These globals are the last ones of the heap and of the index space. -/
structure Ends (m : Machine) (module : Module) (flags : List (GlobalType × Bool)) (seen : Machine) : Prop where
  shapes : shapes seen = shapes m ++ flags
  names : ∃ bound : List Nat, bound.length = imported module m ∧
    seen.store.globals.toList = bound ++ List.range' m.heap.globals.size flags.length

/-- When a phase begins to run code, it has put its global in place. -/
theorem begins_globals {p : Phase} {x : Activity} {now ready : Machine} (begins : p.Begins now x ready) :
    shapes ready = shapes now ++ waiting (declares p) ∧ ready.store.globals.toList =
      now.store.globals.toList ++ List.range' now.heap.globals.size (declares p).length := by
  cases begins with
  | @global decl ready added =>
    cases added
    exact ⟨shapes_inPlace decl now, Array.toList_push⟩
  | start noted found =>
    cases noted
    exact ⟨(List.append_nil _).symm, (List.append_nil _).symm⟩
  | element | data | explicitData => exact ⟨(List.append_nil _).symm, (List.append_nil _).symm⟩

/-- No code runs before all imports are named. -/
theorem front_of_begins {front back : List Phase} {p : Phase} {x : Activity} {now ready : Machine}
    (next : phases offers module = front ++ p :: back) (begins : p.Begins now x ready) :
    ∃ rest, front = bindingPhases offers module ++ rest ∧ definingPhases module = rest ++ p :: back := by
  rw [phases_eq, List.append_eq_append_iff] at next
  rcases next with ⟨rest, same, others⟩ | ⟨rest, same, others⟩
  · exact ⟨rest, same, others⟩
  · cases rest with
    | nil => exact ⟨[], by simpa using same.symm, by simpa using others.symm⟩
    | cons first rest =>
      obtain ⟨rfl, _⟩ := List.cons.inj others
      have member : p ∈ bindingPhases offers module := by simp [same]
      obtain ⟨r, inert, rfl⟩ := bindingPhases_setup offers module p member
      cases begins

theorem runsAt_ends {front : List Phase} {p : Phase} {q : Place} (runs : RunsAt fuel offers module m front p q) :
    Ends m module (initialized (front.flatMap declares) ++ waiting (declares p)) q.machine := by
  obtain ⟨back, next⟩ := runs.next
  obtain ⟨now, x, ready, types, start, calls, performed, begins, enters, visits⟩ := runs.code
  obtain ⟨rest, rfl, later⟩ := front_of_begins next begins
  rw [perform_append] at performed
  obtain ⟨_, bound, first, second⟩ := bind_eq_ok performed
  obtain ⟨sameShapes, named⟩ := perform_bindingPhases first
  have steady : ∀ p ∈ rest, Steady fuel p := by
    intro p member
    apply definingPhases_steady fuel module
    rw [later]
    exact List.mem_append_left _ member
  have defines := perform_defines steady second
  obtain ⟨placed, names⟩ := begins_globals begins
  have kept := sameGlobals_of_untouched (Untouched.trans _ _ _ (enters_untouched enters) (visits_untouched visits))
  have size : bound.heap.globals.size = m.heap.globals.size := by rw [← shapes_length, sameShapes, shapes_length]
  rw [List.flatMap_append, declares_bindingPhases, List.nil_append]
  refine ⟨?_, bound.store.globals.toList, ?_, ?_⟩
  · rw [kept.shapes, placed, defines.shapes, sameShapes, List.append_assoc]
  · rw [Array.length_toList, named]
    rfl
  · rw [kept.names, names, defines.names, defines.size, size, List.append_assoc, List.range'_append_1]
    simp [initialized, waiting]

section Indices

variable {flags : List (GlobalType × Bool)} {seen : Machine} {index : UInt32} {k : Nat}

theorem Ends.found (ends : Ends m module flags seen) (here : index.toNat = imported module m + k)
    {type : GlobalType} {flag : Bool} (flagged : flags[k]? = some (type, flag)) :
    ∃ g, seen.global index = .ok g ∧ g.type = type ∧ g.initialized = flag := by
  obtain ⟨bound, size, names⟩ := ends.names
  obtain ⟨less, _⟩ := List.getElem?_eq_some_iff.mp flagged
  have named : seen.store.globals[index.toNat]? = some (m.heap.globals.size + k) := by
    rw [← Array.getElem?_toList, names, here, ← size, List.getElem?_append_right (Nat.le_add_right _ _)]
    simp [less]
  have shape := shapes_getElem? seen (m.heap.globals.size + k)
  rw [ends.shapes, ← shapes_length, List.getElem?_append_right (Nat.le_add_right _ _), Nat.add_sub_cancel_left, flagged] at shape
  obtain ⟨g, stored, same⟩ := Option.map_eq_some_iff.mp shape.symm
  refine ⟨g, ?_, congrArg Prod.fst same, congrArg Prod.snd same⟩
  rw [shapes_length] at stored
  rw [Machine.global, named, Option.bind_some, stored]
  rfl

theorem Ends.missing (ends : Ends m module flags seen) (here : index.toNat = imported module m + k)
    (beyond : flags.length ≤ k) : seen.global index = .error (.invalidIndex .global index) := by
  obtain ⟨bound, size, names⟩ := ends.names
  have nothing : seen.store.globals[index.toNat]? = none := by
    rw [← Array.getElem?_toList, names, List.getElem?_eq_none]
    rw [List.length_append, List.length_range', size, here]
    omega
  rw [Machine.global, nothing]
  rfl

end Indices

end Places

section Order

variable {fuel : Nat} {offers : Imports} {module : Module} {m : Machine}

/-- The phase of a declared global, found by how many are declared in front of it. -/
theorem declares_split {list : List Phase} {k : Nat} {decl : GlobalDecl}
    (found : (list.flatMap declares)[k]? = some decl) :
    ∃ front back, list = front ++ .global decl :: back ∧ (front.flatMap declares).length = k := by
  induction list generalizing k with
  | nil => cases found
  | cons p rest ih =>
    cases p with
    | global first =>
      cases k with
      | zero =>
        obtain rfl := Option.some.inj found
        exact ⟨[], rest, rfl, rfl⟩
      | succ k =>
        obtain ⟨front, back, rfl, before⟩ := ih found
        exact ⟨.global first :: front, back, rfl, congrArg (· + 1) before⟩
    | setup | start | element | data =>
      obtain ⟨front, back, rfl, before⟩ := ih found
      exact ⟨_ :: front, back, rfl, before⟩

/-- No two phases declare the same global. -/
theorem front_unique {front back other behind : List Phase} {decl : GlobalDecl}
    (split : front ++ .global decl :: back = other ++ .global decl :: behind)
    (same : (front.flatMap declares).length = (other.flatMap declares).length) : front = other := by
  -- the longer of the two would have the phase in it that ends the shorter one
  have shorter : ∀ {first second rest back behind : List Phase}, second = first ++ rest →
      Phase.global decl :: back = rest ++ .global decl :: behind →
      (first.flatMap declares).length = (second.flatMap declares).length → first = second := by
    intro first second rest back behind longer next lengths
    cases rest with
    | nil => exact ((List.append_nil first).symm.trans longer.symm)
    | cons p rest =>
      obtain ⟨rfl, _⟩ := List.cons.inj next
      rw [longer, List.flatMap_append, List.length_append, List.flatMap_cons, List.length_append] at lengths
      simp only [declares, List.length_singleton] at lengths
      omega
  rcases List.append_eq_append_iff.mp split with ⟨rest, longer, next⟩ | ⟨rest, longer, next⟩
  · exact shorter longer next same
  · exact (shorter longer next same.symm).symm

theorem performed_of_instantiate {exports : Exports} {after : Machine}
    (done : module.instantiate fuel offers m = .ok exports after) :
    ∃ bound, perform fuel (bindingPhases offers module) m = .ok () bound ∧
      perform fuel (definingPhases module) bound = .ok () after := by
  have performed : perform fuel (phases offers module) m = .ok () after := by
    rw [perform_phases]
    exact bind_of_ok done
  rw [phases_eq, perform_append] at performed
  obtain ⟨_, bound, first, second⟩ := bind_eq_ok performed
  exact ⟨bound, first, second⟩

/-- The phase behind those in front declares this global, computes its initial value and stores it. It is the one at the
place `k` behind those that were there before. -/
structure InitializedBehind (fuel : Nat) (offers : Imports) (module : Module) (m : Machine) (k : Nat) (decl : GlobalDecl)
    (front : List Phase) : Prop where
  next : ∃ back, phases offers module = front ++ .global decl :: back
  count : (front.flatMap declares).length = k
  stored : ∃ now value ran, perform fuel front m = .ok () now ∧
    decl.init.evaluate fuel decl.type.valueType (inPlace decl now) = .ok value ran ∧
    perform fuel (front ++ [.global decl]) m =
      .ok () { ran with heap := ran.heap.setGlobal (m.heap.globals.size + k) ⟨decl.type, value, true⟩ }

theorem exists_initialized {exports : Exports} {after : Machine} {k : Nat} {decl : GlobalDecl}
    (done : module.instantiate fuel offers m = .ok exports after) (declared : (module.globals?.getD [])[k]? = some decl) :
    ∃ front, InitializedBehind fuel offers module m k decl front := by
  obtain ⟨bound, first, second⟩ := performed_of_instantiate done
  rw [← declares_definingPhases] at declared
  obtain ⟨front, back, split, count⟩ := declares_split declared
  have steady : ∀ p ∈ front, Steady fuel p := by
    intro p member
    apply definingPhases_steady fuel module
    rw [split]
    exact List.mem_append_left _ member
  rw [split, perform_append] at second
  obtain ⟨_, now, third, fourth⟩ := bind_eq_ok second
  obtain ⟨_, next, fifth, _⟩ := bind_eq_ok (show (do (Phase.global decl).run fuel; perform fuel back) now = _ from fourth)
  obtain ⟨value, ran, evaluated, rfl⟩ := defineGlobal_eq_ok fifth
  have performed : perform fuel (bindingPhases offers module ++ front) m = .ok () now := by
    rw [perform_append, bind_of_ok first]
    exact third
  have place : now.heap.globals.size = m.heap.globals.size + k := by
    rw [(perform_defines steady third).size, count, ← shapes_length, (perform_bindingPhases first).1, shapes_length]
  refine ⟨bindingPhases offers module ++ front, ⟨back, ?_⟩, ?_, now, value, ran, performed, evaluated, ?_⟩
  · rw [phases_eq, split, List.append_assoc]
  · rw [List.flatMap_append, declares_bindingPhases, List.nil_append, count]
  · rw [perform_append, bind_of_ok performed, perform_single, fifth, place]

/-- The declared globals in the course of an instantiation, by their indices. Wherever code runs, those of the phases in
front are initialized, that of the running phase is in place and waits, and those behind are not in place. In the end
all are initialized, each by its own expression in its own phase. -/
structure InitializedInOrder (fuel : Nat) (offers : Imports) (module : Module) (m : Machine) : Prop where
  during : ∀ front p q, RunsAt fuel offers module m front p q →
    shapes q.machine = shapes m ++ (initialized (front.flatMap declares) ++ waiting (declares p))
  earlier : ∀ front p q, RunsAt fuel offers module m front p q → ∀ (k : Nat) (index : UInt32) (decl : GlobalDecl),
    index.toNat = imported module m + k → (front.flatMap declares)[k]? = some decl →
      ∃ g, q.machine.global index = .ok g ∧ g.type = decl.type ∧ g.initialized = true
  itself : ∀ front decl q, RunsAt fuel offers module m front (.global decl) q → ∀ index : UInt32,
    index.toNat = imported module m + (front.flatMap declares).length →
      ∃ g, q.machine.global index = .ok g ∧ g.type = decl.type ∧ g.initialized = false
  later : ∀ front p q, RunsAt fuel offers module m front p q → ∀ (k : Nat) (index : UInt32),
    index.toNat = imported module m + k → (front.flatMap declares ++ declares p).length ≤ k →
      q.machine.global index = .error (.invalidIndex .global index)
  declared : (phases offers module).flatMap declares = module.globals?.getD []
  after : ∀ exports after, module.instantiate fuel offers m = .ok exports after →
    shapes after = shapes m ++ initialized (module.globals?.getD [])
  once : ∀ exports after, module.instantiate fuel offers m = .ok exports after → ∀ (k : Nat) (decl : GlobalDecl),
    (module.globals?.getD [])[k]? = some decl → ∃! front, InitializedBehind fuel offers module m k decl front

theorem globals_initialized_in_order (fuel : Nat) (offers : Imports) (module : Module) (m : Machine) :
    InitializedInOrder fuel offers module m where
  during _ _ _ runs := (runsAt_ends runs).shapes
  earlier front p q runs k index decl here found := by
    obtain ⟨less, _⟩ := List.getElem?_eq_some_iff.mp found
    refine (runsAt_ends runs).found here ?_
    rw [List.getElem?_append_left (by simpa [initialized] using less), initialized, List.getElem?_map, found]
    rfl
  itself front decl q runs index here := by
    refine (runsAt_ends runs).found here ?_
    simp [initialized, waiting, declares]
  later front p q runs k index here beyond := by
    refine (runsAt_ends runs).missing here ?_
    simpa [initialized, waiting] using beyond
  declared := by
    rw [phases_eq, List.flatMap_append, declares_bindingPhases, declares_definingPhases]
    rfl
  after exports after done := by
    obtain ⟨bound, first, second⟩ := performed_of_instantiate done
    have defines := perform_defines (definingPhases_steady fuel module) second
    rw [defines.shapes, (perform_bindingPhases first).1, declares_definingPhases]
  once exports after done k decl declared := by
    obtain ⟨front, initialized⟩ := exists_initialized done declared
    refine ⟨front, initialized, ?_⟩
    intro other again
    obtain ⟨back, next⟩ := initialized.next
    obtain ⟨behind, nextToo⟩ := again.next
    exact front_unique (nextToo.symm.trans next) (again.count.trans initialized.count.symm)

end Order

section EarlyUse

/-- The instruction that is run next reads or writes the global with this index. -/
def Uses (q : Place) (index : UInt32) : Prop :=
  ∃ (id : NodeId) (node : Node), q.node = some id ∧ q.arena.nodes[id]? = some node ∧
    (node.op = .op (.globalGet index) ∨ node.op = .op (.globalSet index))

/-- The code of an instantiation uses no declared global that waits for its initial value. -/
def NoEarlyUse (fuel : Nat) (offers : Imports) (module : Module) (m : Machine) : Prop :=
  ∀ front p q index g, RunsAt fuel offers module m front p q → Uses q index → imported module m ≤ index.toNat →
    q.machine.global index = .ok g → g.initialized = true

/-- A constant whose initial value is its own. -/
def selfReading : Module where
  sections := [.globals [⟨⟨.i32, false⟩, .op (.globalGet 0) .nil⟩]]

/-- The code that computes the constant begins with the instruction that reads it. -/
theorem selfReading_runs : ∃ front decl q, RunsAt 9 {} selfReading { store := .create {} } front (.global decl) q ∧
    front.flatMap declares = [] ∧ Uses q 0 := by
  exact ⟨(phases {} selfReading).take 4, ⟨⟨.i32, false⟩, .op (.globalGet 0) .nil⟩, _, ⟨⟨_, rfl⟩, _, _, _, _, _, _, rfl,
    .global rfl, .evaluation rfl, .here⟩, rfl, 0, _, rfl, rfl, .inl rfl⟩

/-- The constant is read before it has its value, and comes to be zero. -/
theorem selfReading_early_use : ¬ NoEarlyUse 9 {} selfReading { store := .create {} } ∧
    ∃ exports after, selfReading.instantiate 9 {} { store := .create {} } = .ok exports after ∧
      after.globalValues = [.i32 0] := by
  refine ⟨?_, ?_⟩
  · intro never
    obtain ⟨front, decl, q, runs, first, uses⟩ := selfReading_runs
    have here : (0 : UInt32).toNat = imported selfReading { store := .create {} } + 0 := rfl
    have flagged : (initialized (front.flatMap declares) ++ waiting (declares (.global decl)))[0]? =
        some (decl.type, false) := by
      rw [first]
      rfl
    obtain ⟨g, found, _, waits⟩ := (runsAt_ends runs).found here flagged
    have early := never front _ q 0 g runs uses (Nat.le_refl 0) found
    rw [waits] at early
    cases early
  · have ends : halt? (selfReading.instantiate 9 {} { store := .create {} }) = none := by decide +kernel
    have zero : (final (selfReading.instantiate 9 {} { store := .create {} })).globalValues = [.i32 0] := by
      decide +kernel
    cases outcome : selfReading.instantiate 9 {} { store := .create {} } with
    | ok exports after =>
      rw [outcome] at zero
      exact ⟨exports, after, rfl, zero⟩
    | error halt after =>
      rw [outcome] at ends
      cases ends

end EarlyUse

end WasmMachine.Proofs.GlobalInitialization

import WasmMachine.Instance.HostFunctions
import WasmMachine.Instance.Session
import WasmMachine.Proofs.CodeFootprint
import WasmMachine.Proofs.InstantiationPhases

/-! Index spaces, as a module declares them and as an instance has them. Instantiation names things one after the other:
what is imported, and then what is declared. Each import and each declaration adds one entry to the space of its kind,
and nothing that runs afterwards adds, removes or renames any; so at every index the two agree. -/

namespace WasmMachine.Proofs.IndexSpaces
open Sequencing InstructionEffects CodeFootprint Instantiation
open InstantiationPhases (found_some)

/-- What stands at a place of the heap, as far as running code cannot change it. -/
inductive Object where
  | function (f : Function)
  | table (refType : RefType) (limits : Limits) (size : Nat)
  | memory (limits : Limits) (size : Nat)
  | global (type : GlobalType)

def tableObject (t : Table) : Object := .table t.refType t.limits t.size

def memoryObject (memory : Memory) : Object := .memory memory.limits memory.size

def globalObject (g : Global) : Object := .global g.type

/-- All objects of a kind. Only functions can have been there and be gone. -/
def objects (h : Heap) : EntityKind → Array (Option Object)
  | .function => h.functions.map (Option.map .function)
  | .table => h.tables.map (some ∘ tableObject)
  | .memory => h.memories.map (some ∘ memoryObject)
  | .global => h.globals.map (some ∘ globalObject)

/-- The places that the indices of a kind stand for. -/
def names (s : Store) : EntityKind → Array Nat
  | .function => s.functions
  | .table => s.tables
  | .memory => s.memories
  | .global => s.globals

/-- The names of a kind that an instance has, and the objects of that kind in the heap. -/
structure Space where
  named : List (Option Nat)
  held : List (Option Object)

def space (m : Machine) (kind : EntityKind) : Space :=
  ⟨(names m.store kind).toList.map some, (objects m.heap kind).toList⟩

/-- What comes next into an index space: an object that is made for it, or the place of one that is there. -/
inductive Entry where
  | made (object : Option Object)
  | shared (place : Option Nat)

namespace Space

def add (s : Space) : Entry → Space
  | .made object => ⟨s.named ++ [some s.held.length], s.held ++ [object]⟩
  | .shared place => ⟨s.named ++ [place], s.held⟩

theorem add_made (s : Space) (made : List (Option Object)) : (made.map Entry.made).foldl add s =
    ⟨s.named ++ (List.range' s.held.length made.length).map some, s.held ++ made⟩ := by
  induction made generalizing s with
  | nil => simp
  | cons object others ih =>
    rw [List.map_cons, List.foldl_cons, ih]
    simp [add, List.range'_succ]

theorem add_shared (s : Space) (places : List (Option Nat)) :
    (places.map Entry.shared).foldl add s = ⟨s.named ++ places, s.held⟩ := by
  induction places generalizing s with
  | nil => simp
  | cons place others ih =>
    rw [List.map_cons, List.foldl_cons, ih]
    simp [add]

end Space

/-- Between the two states, these entries were added to the index spaces, and none of them for an object that could not
be made. -/
structure Adds (entries : EntityKind → List Entry) (before after : Machine) : Prop where
  types : after.store.types = before.store.types
  possible : ∀ kind, .made none ∉ entries kind
  spaces : ∀ kind, space after kind = (entries kind).foldl Space.add (space before kind)

theorem Adds.trans {first second : EntityKind → List Entry} {a b c : Machine} (head : Adds first a b)
    (tail : Adds second b c) : Adds (fun kind => first kind ++ second kind) a c where
  types := tail.types.trans head.types
  possible kind member := (List.mem_append.mp member).elim (head.possible kind) (tail.possible kind)
  spaces kind := by rw [List.foldl_append, ← head.spaces, tail.spaces]

/-- Names and objects are all that they were. -/
theorem Adds.none {before after : Machine} (types : after.store.types = before.store.types)
    (spaces : ∀ kind, space after kind = space before kind) : Adds (fun _ => []) before after :=
  ⟨types, fun _ => List.not_mem_nil, spaces⟩

/-- One entry to the space of one kind. -/
def only (kind : EntityKind) (e : Entry) (other : EntityKind) : List Entry := if kind = other then [e] else []

theorem Adds.one {before after : Machine} {kind : EntityKind} {e : Entry} (possible : e ≠ .made .none)
    (types : after.store.types = before.store.types) (here : space after kind = (space before kind).add e)
    (elsewhere : ∀ other, kind ≠ other → space after other = space before other) :
    Adds (only kind e) before after := by
  refine ⟨types, ?_, ?_⟩
  · intro other member
    unfold only at member
    split at member
    · exact possible (List.mem_singleton.mp member).symm
    · exact List.not_mem_nil member
  · intro other
    unfold only
    split
    next same =>
      subst other
      exact here
    next different => exact elsewhere other different

/-- Steps that each add the entries of one item, as long as the types of functions are these. -/
theorem forM_adds {α : Type} {types : List FunctionType} {step : α → Run Unit} {entries : α → EntityKind → List Entry}
    (one : ∀ a m after, m.store.types = types → step a m = .ok () after → Adds (entries a) m after) (items : List α)
    {m after : Machine} (typed : m.store.types = types) (done : items.forM step m = .ok () after) :
    Adds (fun kind => items.flatMap (entries · kind)) m after := by
  induction items generalizing m with
  | nil =>
    cases done
    exact Adds.none rfl (fun _ => rfl)
  | cons a others ih =>
    obtain ⟨_, between, head, tail⟩ := bind_eq_ok (show (do step a; others.forM step) m = _ from done)
    have first := one a m between typed head
    exact first.trans (ih (first.types.trans typed) tail)

section Inversion

variable {α : Type} {m after : Machine} {a : α}

theorem lift_eq_ok {result : Except Trap α} (done : Run.lift result m = .ok a after) : result = .ok a ∧ after = m := by
  cases result with
  | error t => cases done
  | ok b =>
    cases done
    exact ⟨rfl, rfl⟩

theorem look_eq_ok {f : Machine → Except Trap α} (done : Run.look f m = .ok a after) : f m = .ok a ∧ after = m :=
  lift_eq_ok done

end Inversion

section Unchanged

variable {α β : Type}

/-- The names and the objects are the same. -/
structure SameSpaces (before after : Machine) : Prop where
  types : after.store.types = before.store.types
  spaces : ∀ kind, space after kind = space before kind

theorem SameSpaces.trans {a b c : Machine} (first : SameSpaces a b) (second : SameSpaces b c) : SameSpaces a c :=
  ⟨second.types.trans first.types, fun kind => (second.spaces kind).trans (first.spaces kind)⟩

theorem objects_of_same {written : Option Nat} {before after : Heap} (same : SameObjects written before after)
    (kind : EntityKind) : objects after kind = objects before kind := by
  cases kind with
  | function => exact congrArg (Array.map _) same.functions
  | table => exact congrArg (Array.map _) same.tables
  | memory =>
    have seen := congrArg (Array.map fun shape => some (Object.memory shape.1 shape.2)) same.memories
    rw [Array.map_map, Array.map_map] at seen
    exact seen
  | global =>
    have seen := congrArg (Array.map fun shape => some (Object.global shape.1)) same.globals
    rw [Array.map_map, Array.map_map] at seen
    exact seen

theorem names_of_same {before after : Store} (same : SameStore before after) (kind : EntityKind) :
    names after kind = names before kind := by
  cases kind with
  | function => exact same.functions
  | table => exact same.tables
  | memory => exact same.memories
  | global => exact same.globals

theorem sameSpaces_of_untouched {before after : Machine} (untouched : Untouched before after) :
    SameSpaces before after := by
  refine ⟨untouched.store.types, fun kind => ?_⟩
  rw [space, names_of_same untouched.store, objects_of_same untouched.heap]
  rfl

/-- A computation that leaves names and objects alone, if it comes to its end. -/
def Keeps (r : Run α) : Prop := ∀ m a after, r m = .ok a after → SameSpaces m after

theorem Keeps.bind {r : Run α} {next : α → Run β} (first : Keeps r) (rest : ∀ a, Keeps (next a)) :
    Keeps (r >>= next) := by
  intro m b after done
  obtain ⟨a, between, head, tail⟩ := bind_eq_ok done
  exact (first m a between head).trans (rest a between b after tail)

theorem keeps_of_untouched {r : Run α} (untouched : Within Untouched r) : Keeps r := by
  intro m a after done
  have kept := untouched m
  rw [done] at kept
  exact sameSpaces_of_untouched kept

theorem keeps_of_quiet {r : Run α} (quiet : Quiet r) : Keeps r := keeps_of_untouched (untouched_law.quiet quiet)

theorem keeps_evaluate (fuel : Nat) (code : Code) (type : ValueType) : Keeps (code.evaluate fuel type) :=
  keeps_of_untouched (evaluate_untouched fuel code type)

/-- Writing an object that is of the same sort as the one before. -/
theorem sameSpaces_of_objects {m : Machine} {h : Heap} (same : ∀ kind, objects h kind = objects m.heap kind) :
    SameSpaces m { m with heap := h } :=
  ⟨rfl, fun kind => congrArg (fun held => Space.mk _ (Array.toList held)) (same kind)⟩

theorem tableObject_set {t changed : Table} {slot : UInt32} {f : FunctionId} (set : t.set slot f = .ok changed) :
    tableObject changed = tableObject t := by
  unfold Table.set at set
  split at set
  · cases set
    simp only [tableObject, Table.size, Array.size_setIfInBounds]
  · cases set

theorem keeps_bindSlots (table slot : UInt32) (indices : List UInt32) : Keeps (bindSlots table slot indices) := by
  induction indices generalizing slot with
  | nil => exact keeps_of_quiet (Quiet.pure ())
  | cons index others ih =>
    apply Keeps.bind (keeps_of_quiet (Quiet.look _))
    intro f m _ after done
    obtain ⟨id, _, first, second⟩ := bind_eq_ok done
    obtain ⟨named, rfl⟩ := look_eq_ok first
    obtain ⟨t, _, third, fourth⟩ := bind_eq_ok second
    obtain ⟨found, rfl⟩ := look_eq_ok third
    obtain ⟨changed, _, fifth, sixth⟩ := bind_eq_ok fourth
    obtain ⟨set, rfl⟩ := lift_eq_ok fifth
    obtain ⟨place, here, stored⟩ := found_eq_ok found
    obtain rfl : place = id := Option.some.inj (here.symm.trans (found_some named))
    refine SameSpaces.trans (sameSpaces_of_objects fun kind => ?_) (ih (slot + 1) _ _ _ sixth)
    cases kind with
    | table => exact map_set_of_same stored (congrArg some (tableObject_set set))
    | function | memory | global => rfl

theorem keeps_copyToMemory (memory : UInt32) (offset : Int32) (bytes : List UInt8) :
    Keeps (copyToMemory memory offset bytes) := by
  intro m _ after done
  obtain ⟨id, _, first, second⟩ := bind_eq_ok done
  obtain ⟨named, rfl⟩ := look_eq_ok first
  obtain ⟨target, _, third, fourth⟩ := bind_eq_ok second
  obtain ⟨found, rfl⟩ := look_eq_ok third
  obtain ⟨changed, _, fifth, last⟩ := bind_eq_ok fourth
  obtain ⟨written, rfl⟩ := lift_eq_ok fifth
  cases last
  obtain ⟨place, here, stored⟩ := found_eq_ok found
  obtain rfl : place = id := Option.some.inj (here.symm.trans (found_some named))
  refine sameSpaces_of_objects fun kind => ?_
  cases kind with
  | memory =>
    have same := congrArg (fun shape => some (Object.memory shape.1 shape.2)) (write_shape written)
    exact map_set_of_same stored same
  | function | table | global => rfl

theorem keeps_evaluateOffset (fuel : Nat) (code : Code) : Keeps (evaluateOffset fuel code) := by
  apply Keeps.bind (keeps_evaluate fuel code .i32)
  intro value
  cases value.toI32? with
  | some v => exact keeps_of_quiet (Quiet.pure v)
  | none => exact keeps_of_quiet (Quiet.trap _)

theorem keeps_applyElements (fuel segment : Nat) (elements : List Element) :
    Keeps (applyElements fuel segment elements) := by
  induction elements generalizing segment with
  | nil => exact keeps_of_quiet (Quiet.pure ())
  | cons e others ih =>
    refine Keeps.bind ?_ (fun _ => ih (segment + 1))
    unfold applyElement
    split
    · exact keeps_of_quiet (Quiet.note _)
    · exact keeps_of_quiet (Quiet.note _)
    · split
      · exact keeps_of_quiet (Quiet.trap _)
      · apply Keeps.bind (keeps_evaluateOffset fuel _)
        intro offset
        apply Keeps.bind (keeps_of_quiet (Quiet.look _))
        intro _
        exact Keeps.bind (keeps_bindSlots _ _ _) (fun _ => keeps_of_quiet (Quiet.note _))

theorem keeps_applyDataAt (fuel segment : Nat) (memory : UInt32) (offset : Code) (bytes : List UInt8) :
    Keeps (applyDataAt fuel segment memory offset bytes) := by
  apply Keeps.bind (keeps_evaluateOffset fuel offset)
  intro place
  exact Keeps.bind (keeps_copyToMemory memory place bytes) (fun _ => keeps_of_quiet (Quiet.note _))

theorem keeps_applyData (fuel segment : Nat) (data : List DataSegment) : Keeps (applyData fuel segment data) := by
  induction data generalizing segment with
  | nil => exact keeps_of_quiet (Quiet.pure ())
  | cons d others ih =>
    refine Keeps.bind ?_ (fun _ => ih (segment + 1))
    unfold applyDataSegment
    split
    · exact keeps_of_quiet (Quiet.note _)
    · exact keeps_applyDataAt fuel segment 0 _ d.bytes
    · exact keeps_applyDataAt fuel segment _ _ d.bytes

theorem keeps_collectExports (exports : List Export) (found : Exports) : Keeps (collectExports exports found) := by
  induction exports generalizing found with
  | nil => exact keeps_of_quiet (Quiet.pure found)
  | cons e others ih =>
    unfold collectExports
    split
    · exact Keeps.bind (keeps_of_quiet (Quiet.look _)) (fun id => ih _)
    · exact Keeps.bind (keeps_of_quiet (Quiet.note _)) (fun _ => ih found)

theorem keeps_runStart (fuel : Nat) (module : Module) : Keeps (runStart fuel module) := by
  unfold runStart
  split
  · exact keeps_of_quiet (Quiet.pure ())
  · apply Keeps.bind (keeps_of_quiet (Quiet.note _))
    intro _
    apply Keeps.bind (keeps_of_quiet (Quiet.look _))
    intro f
    exact Keeps.bind (keeps_of_untouched (invoke_untouched fuel f f.type [])) (fun _ => keeps_of_quiet (Quiet.pure ()))

end Unchanged

section Declarations

/-- The imports of a kind, in the order in which they are declared. -/
def importsOf (module : Module) (kind : EntityKind) : List Import :=
  (module.imports?.getD []).filter fun i => i.desc.kind = kind

/-- The function that an import makes of the offered one. -/
def host? (offers : Imports) (types : List FunctionType) (i : Import) : Option Function :=
  match i.desc, offers.get? i.source i.name with
  | .function index, some (.function f) => types[index.toNat]?.map fun type => .host type f
  | _, _ => none

/-- The place of the offered table, memory or global. -/
def place? (offers : Imports) (i : Import) : Option Nat :=
  match i.desc, offers.get? i.source i.name with
  | .table _, some (.table id) | .memory _, some (.memory id) | .global _, some (.global id) => some id
  | _, _ => none

def importEntry (offers : Imports) (types : List FunctionType) (i : Import) : Entry :=
  if i.desc.kind = .function then .made ((host? offers types i).map .function) else .shared (place? offers i)

/-- The function that a type index and a body define. -/
def defined? (types : List FunctionType) (definition : UInt32 × FunctionBody) : Option Function :=
  types[definition.1.toNat]?.map fun type => .defined type definition.2.locals (.ofCode definition.2.code)

/-- The functions that a module defines: each type index with the body at the same position. -/
def definitions (module : Module) : List (UInt32 × FunctionBody) :=
  (module.functions?.getD []).zip (module.bodies?.getD [])

/-- What a module makes for itself, in the order in which it is declared. -/
def declared (module : Module) : EntityKind → List (Option Object)
  | .function => (definitions module).map fun d => (defined? (module.types?.getD []) d).map .function
  | .table => (module.tables?.getD []).map fun t => some (.table t.refType t.limits t.limits.min.toNat)
  | .memory => (module.memories?.getD []).map fun l => some (.memory l (l.min.toNat * Memory.pageSize))
  | .global => (module.globals?.getD []).map fun decl => some (.global decl.type)

end Declarations

section Additions

variable {m after : Machine}

theorem Adds.keeps {entries : EntityKind → List Entry} {between : Machine} (adds : Adds entries m between)
    (same : SameSpaces between after) : Adds entries m after :=
  ⟨same.types.trans adds.types, adds.possible, fun kind => (same.spaces kind).trans (adds.spaces kind)⟩

theorem Adds.make {kind : EntityKind} {o : Object} (types : after.store.types = m.store.types)
    (named : names after.store kind = (names m.store kind).push (objects m.heap kind).size)
    (held : objects after.heap kind = (objects m.heap kind).push (some o))
    (elsewhere : ∀ other, kind ≠ other → space after other = space m other) :
    Adds (only kind (.made (some o))) m after := by
  refine Adds.one (by simp) types ?_ elsewhere
  simp only [space, Space.add, named, held, Array.toList_push, List.map_append, Array.length_toList]
  rfl

theorem Adds.share {kind : EntityKind} {id : Nat} (types : after.store.types = m.store.types)
    (named : names after.store kind = (names m.store kind).push id) (heap : after.heap = m.heap)
    (elsewhere : ∀ other, kind ≠ other → space after other = space m other) :
    Adds (only kind (.shared (some id))) m after := by
  refine Adds.one (by simp) types ?_ elsewhere
  simp only [space, Space.add, named, heap, Array.toList_push, List.map_append]
  rfl

theorem addFunction_adds (f : Function) (added : addFunction f m = .ok () after) :
    Adds (only .function (.made (some (.function f)))) m after := by
  cases added
  refine Adds.make rfl (by simp [names, objects]) (by simp [objects, Heap.addFunction]) ?_
  intro kind other
  cases kind with
  | function => exact absurd rfl other
  | table | memory | global => rfl

theorem addTable_adds (t : Table) (added : addTable t m = .ok () after) :
    Adds (only .table (.made (some (tableObject t)))) m after := by
  cases added
  refine Adds.make rfl (by simp [names, objects]) (by simp [objects, Heap.addTable]) ?_
  intro kind other
  cases kind with
  | table => exact absurd rfl other
  | function | memory | global => rfl

theorem addMemory_adds (memory : Memory) (added : addMemory memory m = .ok () after) :
    Adds (only .memory (.made (some (memoryObject memory)))) m after := by
  cases added
  refine Adds.make rfl (by simp [names, objects]) (by simp [objects, Heap.addMemory]) ?_
  intro kind other
  cases kind with
  | memory => exact absurd rfl other
  | function | table | global => rfl

theorem addGlobal_adds (g : Global) (added : addGlobal g m = .ok () after) :
    Adds (only .global (.made (some (globalObject g)))) m after := by
  cases added
  refine Adds.make rfl (by simp [names, objects]) (by simp [objects, Heap.addGlobal]) ?_
  intro kind other
  cases kind with
  | global => exact absurd rfl other
  | function | table | memory => rfl

theorem resolve_eq_ok {offers : Imports} {source name : String} {offer : Offer}
    (resolved : offers.resolve source name = .ok offer) : offers.get? source name = some offer := by
  unfold Imports.resolve at resolved
  split at resolved
  next found => exact found.trans (congrArg some (Except.ok.inj resolved))
  next => cases resolved

theorem importEntry_host {offers : Imports} {types : List FunctionType} {i : Import} {index : UInt32}
    {f : HostFunction} {type : FunctionType} (desc : i.desc = .function index)
    (offered : offers.get? i.source i.name = some (.function f)) (known : types[index.toNat]? = some type) :
    importEntry offers types i = .made (some (.function (.host type f))) := by
  simp only [importEntry, host?, desc, ImportDesc.kind, offered, known, Option.map_some, if_true]

theorem importEntry_place {offers : Imports} {types : List FunctionType} {i : Import} {id : Nat}
    (place : place? offers i = some id) (other : i.desc.kind ≠ .function) :
    importEntry offers types i = .shared (some id) := by
  rw [importEntry, if_neg other, place]

theorem bindImport_adds {offers : Imports} {types : List FunctionType} (i : Import) (m after : Machine)
    (typed : m.store.types = types) (bound : bindImport offers i m = .ok () after) :
    Adds (only i.desc.kind (importEntry offers types i)) m after := by
  obtain ⟨offer, _, looked, rest⟩ := bind_eq_ok bound
  obtain ⟨resolved, rfl⟩ := lift_eq_ok looked
  have offered := resolve_eq_ok resolved
  cases desc : i.desc with
  | function index =>
    rw [desc] at rest
    cases offer with
    | function f =>
      obtain ⟨type, _, head, tail⟩ := bind_eq_ok rest
      obtain ⟨known, rfl⟩ := look_eq_ok head
      have known : types[index.toNat]? = some type := typed ▸ found_some known
      rw [importEntry_host desc offered known]
      exact addFunction_adds _ tail
    | table | memory | global => cases rest
  | table type =>
    rw [desc] at rest
    cases offer with
    | table id =>
      cases rest
      have place : place? offers i = some id := by simp only [place?, desc, offered]
      rw [importEntry_place place (by simp [desc, ImportDesc.kind])]
      refine Adds.share rfl rfl rfl fun kind other => ?_
      cases kind with
      | table => exact absurd rfl other
      | function | memory | global => rfl
    | function | memory | global => cases rest
  | memory limits =>
    rw [desc] at rest
    cases offer with
    | memory id =>
      cases rest
      have place : place? offers i = some id := by simp only [place?, desc, offered]
      rw [importEntry_place place (by simp [desc, ImportDesc.kind])]
      refine Adds.share rfl rfl rfl fun kind other => ?_
      cases kind with
      | memory => exact absurd rfl other
      | function | table | global => rfl
    | function | table | global => cases rest
  | global type =>
    rw [desc] at rest
    cases offer with
    | global id =>
      cases rest
      have place : place? offers i = some id := by simp only [place?, desc, offered]
      rw [importEntry_place place (by simp [desc, ImportDesc.kind])]
      refine Adds.share rfl rfl rfl fun kind other => ?_
      cases kind with
      | global => exact absurd rfl other
      | function | table | memory => rfl
    | function | table | memory => cases rest

theorem defineFunction_adds {types : List FunctionType} (definition : UInt32 × FunctionBody) (m after : Machine)
    (typed : m.store.types = types) (done : defineFunction definition.1 definition.2 m = .ok () after) :
    Adds (only .function (.made ((defined? types definition).map .function))) m after := by
  obtain ⟨type, _, looked, added⟩ := bind_eq_ok done
  obtain ⟨found, rfl⟩ := look_eq_ok looked
  have known : types[definition.1.toNat]? = some type := typed ▸ found_some found
  rw [defined?, known]
  exact addFunction_adds _ added

theorem defineTable_adds (type : TableType) (m after : Machine) (done : defineTable type m = .ok () after) :
    Adds (only .table (.made (some (.table type.refType type.limits type.limits.min.toNat)))) m after := by
  obtain ⟨t, _, lifted, added⟩ := bind_eq_ok done
  obtain ⟨made, rfl⟩ := lift_eq_ok lifted
  have same : tableObject t = .table type.refType type.limits type.limits.min.toNat := by
    unfold Table.create at made
    split at made
    · cases made
    · cases made
      simp only [tableObject, Table.size, Array.size_replicate]
  rw [← same]
  exact addTable_adds t added

theorem defineMemory_adds (limits : Limits) (m after : Machine) (done : defineMemory limits m = .ok () after) :
    Adds (only .memory (.made (some (.memory limits (limits.min.toNat * Memory.pageSize))))) m after := by
  obtain ⟨memory, _, lifted, added⟩ := bind_eq_ok done
  obtain ⟨made, rfl⟩ := lift_eq_ok lifted
  have same : memoryObject memory = .memory limits (limits.min.toNat * Memory.pageSize) := by
    unfold Memory.create at made
    split at made
    · cases made
      simp only [memoryObject, Memory.size, Array.size_replicate]
    · cases made
  rw [← same]
  exact addMemory_adds memory added

theorem storeInitial_object {g changed : Global} {index : UInt32} {value : Value}
    (stored : g.storeInitial index value = .ok changed) : globalObject changed = globalObject g := by
  unfold Global.storeInitial at stored
  split at stored
  · cases stored
  · unfold Global.checkType at stored
    split at stored
    · cases stored
      rfl
    · cases stored

/-- The initial value comes to a global that is in its place already. -/
theorem defineGlobal_adds (fuel : Nat) (decl : GlobalDecl) (m after : Machine)
    (done : defineGlobal fuel decl m = .ok () after) : Adds (only .global (.made (some (.global decl.type)))) m after := by
  obtain ⟨⟨index, id⟩, _, sizes, first⟩ := bind_eq_ok done
  cases sizes
  obtain ⟨_, ready, added, second⟩ := bind_eq_ok first
  obtain ⟨value, between, evaluated, third⟩ := bind_eq_ok second
  obtain ⟨g, _, looked, fourth⟩ := bind_eq_ok third
  obtain ⟨found, rfl⟩ := look_eq_ok looked
  obtain ⟨changed, _, lifted, last⟩ := bind_eq_ok fourth
  obtain ⟨stored, rfl⟩ := lift_eq_ok lifted
  cases last
  refine ((addGlobal_adds _ added).keeps (keeps_evaluate fuel _ _ _ _ _ evaluated)).keeps ?_
  refine sameSpaces_of_objects fun kind => ?_
  cases kind with
  | global => exact map_set_of_same (found_some found) (congrArg some (storeInitial_object stored))
  | function | table | memory => rfl

end Additions

end WasmMachine.Proofs.IndexSpaces

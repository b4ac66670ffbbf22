import WasmMachine.Instance.Imports
import WasmMachine.Machine.Execution

/-! Instantiation: binding a module to what the host offers. The steps come in a fixed order: types,
imports, functions, tables, memories, globals, exports, the start function, element segments and
data segments. A step that fails ends it; what earlier steps did to shared objects stays. -/

namespace WasmMachine

/-- The exported functions by name. -/
structure Exports where
  entries : List (String × FunctionId) := []
  deriving DecidableEq, Repr

namespace Exports

/-- A later export of the same name takes the place of the earlier one. -/
def add (e : Exports) (name : String) (id : FunctionId) : Exports :=
  ⟨(name, id) :: e.entries.filter fun entry => entry.1 != name⟩

def get? (e : Exports) (name : String) : Option FunctionId := e.entries.lookup name

def contains (e : Exports) (name : String) : Bool := (e.get? name).isSome

def size (e : Exports) : Nat := e.entries.length

/-- The exports in the order of their names. -/
def sorted (e : Exports) : List (String × FunctionId) :=
  e.entries.mergeSort fun a b => a.1 ≤ b.1

end Exports

namespace Instantiation

/-- Puts a function into the heap and at the end of the function space. -/
def addFunction (f : Function) : Run Unit := fun m =>
  .ok ()
    { m with
      heap := m.heap.addFunction f
      store := { m.store with functions := m.store.functions.push m.heap.functions.size } }

def addTable (t : Table) : Run Unit := fun m =>
  .ok ()
    { m with
      heap := m.heap.addTable t
      store := { m.store with tables := m.store.tables.push m.heap.tables.size } }

def addMemory (memory : Memory) : Run Unit := fun m =>
  .ok ()
    { m with
      heap := m.heap.addMemory memory
      store := { m.store with memories := m.store.memories.push m.heap.memories.size } }

def addGlobal (g : Global) : Run Unit := fun m =>
  .ok ()
    { m with
      heap := m.heap.addGlobal g
      store := { m.store with globals := m.store.globals.push m.heap.globals.size } }

def bindImport (offers : Imports) (i : Import) : Run Unit := do
  match i.desc, ← Run.lift (offers.resolve i.source i.name) with
  | .function type, .function f =>
    let type ← Run.look (·.functionType type)
    addFunction (.host type f)
  | .table _, .table id => Run.modifyStore fun s => { s with tables := s.tables.push id }
  | .memory _, .memory id => Run.modifyStore fun s => { s with memories := s.memories.push id }
  | .global _, .global id => Run.modifyStore fun s => { s with globals := s.globals.push id }
  | desc, _ => Run.trap (.importKindMismatch i.source i.name desc.kind)

def bindImports (offers : Imports) (m : Module) : Run Unit := do
  (m.imports?.getD []).forM (bindImport offers)
  fun m =>
    Run.note (.importsResolved m.store.functions.size m.store.tables.size m.store.memories.size
      m.store.globals.size) m

def defineFunction (type : UInt32) (body : FunctionBody) : Run Unit := do
  let type ← Run.look (·.functionType type)
  addFunction (.defined type body.locals (.ofCode body.code))

/-- Every declared function has a body, and the other way round. -/
def defineFunctions (m : Module) : Run Unit := do
  let types := m.functions?.getD []
  let bodies := m.bodies?.getD []
  if types.length ≠ bodies.length then
    Run.trap (.invalidIndex .code (UInt32.ofNat (min types.length bodies.length)))
  (types.zip bodies).forM fun (type, body) => defineFunction type body
  Run.note (.functionsDefined bodies.length)

def defineTable (type : TableType) : Run Unit := do addTable (← Run.lift (Table.create type))

def defineMemory (limits : Limits) : Run Unit := do addMemory (← Run.lift (Memory.create limits))

/-- A global is in place, though not initialized, while its own initial value is computed. -/
def defineGlobal (fuel : Nat) (decl : GlobalDecl) : Run Unit := do
  let (index, id) ← fun m => .ok (m.store.globals.size, m.heap.globals.size) m
  addGlobal (.declared decl.type)
  let value ← decl.init.evaluate fuel decl.type.valueType
  let global ← Run.look fun m => Machine.found .global (UInt32.ofNat index) m.heap.globals[id]?
  let global ← Run.lift (global.storeInitial (UInt32.ofNat index) value)
  Run.modifyHeap (·.setGlobal id global)

def defineGlobals (fuel : Nat) (m : Module) : Run Unit := do
  match m.globals? with
  | none => return ()
  | some decls =>
    decls.forM (defineGlobal fuel)
    Run.note (.globalsInitialized decls.length)

/-- Only functions are exported; other exports are passed over. -/
def collectExports : List Export → Exports → Run Exports
  | [], found => return found
  | e :: others, found => do
    if e.kind = .function then
      let id ← Run.look (·.functionId e.index)
      collectExports others (found.add e.name id)
    else
      Run.note (.exportIgnored e)
      collectExports others found

def runStart (fuel : Nat) (m : Module) : Run Unit := do
  match m.start? with
  | none => return ()
  | some index =>
    Run.note (.startInvoked index)
    let f ← Run.look (·.function index)
    let _ ← f.invoke fuel f.type []

/-- The offset of a segment. -/
def evaluateOffset (fuel : Nat) (code : Code) : Run Int32 := do
  let value ← code.evaluate fuel .i32
  match value.toI32? with
  | some v => return v
  | none => Run.trap (.typeMismatch .i32 (some value.type))

/-- Binds the functions to slots one after the other, from a slot on; slot numbers wrap. -/
def bindSlots (table : UInt32) : (slot : UInt32) → List UInt32 → Run Unit
  | _, [] => return ()
  | slot, index :: others => do
    let function ← Run.look (·.functionId index)
    let id ← Run.look (·.tableId table)
    let t ← Run.look (·.table table)
    let t ← Run.lift (t.set slot function)
    Run.modifyHeap (·.setTable id t)
    bindSlots table (slot + 1) others

def applyElement (fuel segment : Nat) (e : Element) : Run Unit := do
  match e.mode with
  | .passive | .declarative => Run.note (.elementSkipped segment)
  | .active table offset =>
    match e.items with
    | .expressions _ => Run.trap (.unsupported (.expressionItems segment))
    | .functions indices =>
      let offset ← evaluateOffset fuel offset
      let _ ← Run.look (·.table table)
      bindSlots table offset.toUInt32 indices
      Run.note (.elementApplied segment indices.length table offset.toUInt32)

def applyElements (fuel : Nat) : (segment : Nat) → List Element → Run Unit
  | _, [] => return ()
  | segment, e :: others => do
    applyElement fuel segment e
    applyElements fuel (segment + 1) others

/-- Copies bytes into a memory, all of them or none. -/
def copyToMemory (memory : UInt32) (offset : Int32) (bytes : List UInt8) : Run Unit := do
  let id ← Run.look (·.memoryId memory)
  let target ← Run.look (·.memory memory)
  let target ← Run.lift (target.write offset.toUInt32.toUInt64 bytes)
  Run.modifyHeap (·.setMemory id target)

def applyDataAt (fuel segment : Nat) (memory : UInt32) (offset : Code) (bytes : List UInt8) : Run Unit := do
  let offset ← evaluateOffset fuel offset
  copyToMemory memory offset bytes
  Run.note (.dataApplied segment bytes.length memory offset)

def applyDataSegment (fuel segment : Nat) (d : DataSegment) : Run Unit :=
  match d.mode with
  | .passive => Run.note (.dataSkipped segment)
  | .active offset => applyDataAt fuel segment 0 offset d.bytes
  | .activeExplicit memory offset => applyDataAt fuel segment memory offset d.bytes

def applyData (fuel : Nat) : (segment : Nat) → List DataSegment → Run Unit
  | _, [] => return ()
  | segment, d :: others => do
    applyDataSegment fuel segment d
    applyData fuel (segment + 1) others

end Instantiation

open Instantiation in
/-- Instantiates a module into the store of the machine, which is expected to be empty. -/
def Module.instantiate (fuel : Nat) (offers : Imports) (m : Module) : Run Exports := do
  Run.modifyStore fun s => { s with types := m.types?.getD [] }
  bindImports offers m
  defineFunctions m
  (m.tables?.getD []).forM defineTable
  (m.memories?.getD []).forM defineMemory
  defineGlobals fuel m
  let exports ← collectExports (m.exports?.getD []) {}
  runStart fuel m
  applyElements fuel 0 (m.elements?.getD [])
  applyData fuel 0 (m.data?.getD [])
  return exports

end WasmMachine

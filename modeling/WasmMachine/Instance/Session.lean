import WasmMachine.Instance.Instantiation
import WasmMachine.Module.Trace

/-! Sessions: named instances over one heap, with what the host offers to them. An instance owns its
functions, so dropping it leaves the table slots that name them unbound; tables, memories and
globals that it shares stay as they are. -/

namespace WasmMachine

structure Instance where
  store : Store
  exports : Exports

/-- Calls an exported function. -/
def Exports.invoke (fuel : Nat) (e : Exports) (name : String) (args : List Value) : Run (Option Value) := do
  match e.get? name with
  | none => Run.trap (.unknownExport name)
  | some id =>
    let f ← Run.look fun m => Machine.found .function (UInt32.ofNat id) (m.heap.function? id)
    Run.note (.exportInvoked name f.type)
    f.invoke fuel f.type args

/-- Calls a function by its index, as one of the given type or of its own. -/
def Run.call (fuel : Nat) (index : UInt32) (type : Option FunctionType) (args : List Value) :
    Run (Option Value) := do
  let f ← Run.look (·.function index)
  f.invoke fuel (type.getD f.type) args

/-- The function bound to a slot of a table. -/
def Machine.slotFunction (m : Machine) (table index : UInt32) : Except Trap Function := do
  let t ← m.table table
  m.heap.tableFunction t index

structure Session where
  heap : Heap := {}
  offers : Imports := {}
  instances : List (String × Instance) := []
  journal : Journal := {}

namespace Session

def instance? (s : Session) (id : String) : Option Instance := s.instances.lookup id

/-- The machine of an instance. -/
def machine (s : Session) (store : Store) : Machine := { heap := s.heap, store, journal := s.journal }

/-- Offers an object, in place of one with the same names. -/
def offer (s : Session) (source name : String) (o : Offer) : Session :=
  { s with offers := s.offers.add source name o }

def offerTable (s : Session) (source name : String) (type : TableType) : Except Trap Session := do
  let t ← Table.create type
  return { s with heap := s.heap.addTable t }.offer source name (.table s.heap.tables.size)

def offerMemory (s : Session) (source name : String) (limits : Limits) : Except Trap Session := do
  let m ← Memory.create limits
  return { s with heap := s.heap.addMemory m }.offer source name (.memory s.heap.memories.size)

def offerGlobal (s : Session) (source name : String) (type : GlobalType) (value : Value) :
    Except Trap Session := do
  let g ← Global.create type value
  return { s with heap := s.heap.addGlobal g }.offer source name (.global s.heap.globals.size)

/-- The session without an instance. -/
def drop (s : Session) (id : String) : Session :=
  match s.instance? id with
  | none => s
  | some old =>
    { s with
      heap := s.heap.release old.store.functions.toList
      instances := s.instances.filter fun entry => entry.1 != id }

/-- Makes an instance, in place of one with the same name. A failed attempt leaves that one in place,
and the functions it has made are gone. -/
def instantiate (s : Session) (fuel : Nat) (id : String) (m : Module) (config : Config) :
    Except Halt Unit × Session :=
  match m.instantiate fuel s.offers (s.machine (Store.create config)) with
  | .ok exports after =>
    let s := { s with heap := after.heap, journal := after.journal }.drop id
    (.ok (), { s with instances := (id, ⟨after.store, exports⟩) :: s.instances })
  | .error e after =>
    (.error e,
      { s with heap := after.heap.release after.store.functions.toList, journal := after.journal })

/-- Decodes a module and reports on it. -/
def decode (s : Session) (bytes : List UInt8) : Except DecodeError Module × Session :=
  (Module.decode bytes, { s with journal := (Module.loadEvents bytes).foldl Journal.note s.journal })

/-- Runs a computation in an instance. -/
def run {α : Type} (s : Session) (id : String) (i : Instance) (r : Run α) : Except Halt α × Session :=
  let keep (after : Machine) : Session :=
    { s with
      heap := after.heap
      journal := after.journal
      instances := s.instances.map fun entry =>
        if entry.1 == id then (id, { i with store := after.store }) else entry }
  match r (s.machine i.store) with
  | .ok a after => (.ok a, keep after)
  | .error e after => (.error e, keep after)

end Session

end WasmMachine

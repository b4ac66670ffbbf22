import WasmMachine.Machine.Function
import WasmMachine.Machine.Global
import WasmMachine.Machine.Memory
import WasmMachine.Machine.Table

/-! The heap: functions, tables, memories and globals by their places. Instances share these objects,
so they name them by place and never hold them. -/

namespace WasmMachine

/-- Everything that can be shared. A released function leaves an empty place behind. -/
structure Heap where
  functions : Array (Option Function) := #[]
  tables : Array Table := #[]
  memories : Array Memory := #[]
  globals : Array Global := #[]

namespace Heap

def function? (h : Heap) (id : FunctionId) : Option Function := h.functions[id]?.join

/-- The function that a slot of a table stands for. Slots outside the table, slots never set and
slots whose function is gone are all unbound. -/
def tableFunction (h : Heap) (t : Table) (index : UInt32) : Except Trap Function :=
  match (t.slot? index).bind h.function? with
  | some f => .ok f
  | none => .error (.unboundTableElement index)

def addFunction (h : Heap) (f : Function) : Heap := { h with functions := h.functions.push (some f) }

def addTable (h : Heap) (t : Table) : Heap := { h with tables := h.tables.push t }

def addMemory (h : Heap) (m : Memory) : Heap := { h with memories := h.memories.push m }

def addGlobal (h : Heap) (g : Global) : Heap := { h with globals := h.globals.push g }

def setTable (h : Heap) (id : Nat) (t : Table) : Heap := { h with tables := h.tables.setIfInBounds id t }

def setMemory (h : Heap) (id : Nat) (m : Memory) : Heap :=
  { h with memories := h.memories.setIfInBounds id m }

def setGlobal (h : Heap) (id : Nat) (g : Global) : Heap := { h with globals := h.globals.setIfInBounds id g }

/-- Forgets functions, so that slots naming them become unbound. -/
def release (h : Heap) (ids : List FunctionId) : Heap :=
  { h with functions := ids.foldl (fun functions id => functions.setIfInBounds id none) h.functions }

end Heap

end WasmMachine

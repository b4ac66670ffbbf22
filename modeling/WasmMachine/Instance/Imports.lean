import WasmMachine.Machine.Function

/-! What the host offers to modules, by the name of a source and a name in it. -/

namespace WasmMachine

/-- An offered object. Tables, memories and globals are places in the heap; a host function gets its
type from the module that imports it. -/
inductive Offer where
  | function (f : HostFunction)
  | table (id : Nat)
  | memory (id : Nat)
  | global (id : Nat)

def Offer.kind : Offer → EntityKind
  | function _ => .function
  | table _ => .table
  | memory _ => .memory
  | global _ => .global

structure Imports where
  entries : List ((String × String) × Offer) := []

namespace Imports

/-- Adds an object, in place of one with the same names. -/
def add (i : Imports) (source name : String) (offer : Offer) : Imports :=
  ⟨((source, name), offer) :: i.entries.filter fun entry => entry.1 != (source, name)⟩

def get? (i : Imports) (source name : String) : Option Offer := i.entries.lookup (source, name)

def resolve (i : Imports) (source name : String) : Except Trap Offer :=
  match i.get? source name with
  | some offer => .ok offer
  | none => .error (.unknownImport source name)

end Imports

end WasmMachine

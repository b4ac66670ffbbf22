import WasmMachine.Machine.Trap

/-! Tables of function references. A table does not keep its functions: a slot names a function by
its place in the heap, and that function may be gone. -/

namespace WasmMachine

/-- The place of a function in the heap. -/
abbrev FunctionId := Nat

/-- The most slots that a table may start with. -/
def Table.maxSize : UInt32 := 10000000

/-- A table never grows, so it keeps within the bound under which it was made. -/
structure Table where
  refType : RefType
  limits : Limits
  slots : Array (Option FunctionId)
  size_le : slots.size ≤ Table.maxSize.toNat
  deriving DecidableEq, Repr

namespace Table

def create (type : TableType) : Except Trap Table :=
  if large : maxSize < type.limits.min then .error (.unsupported (.tableSize type.limits.min maxSize))
  else
    have allowed : type.limits.min.toNat ≤ maxSize.toNat := UInt32.not_lt.mp large
    .ok ⟨type.refType, type.limits, Array.replicate type.limits.min.toNat none, by simpa using allowed⟩

def size (t : Table) : Nat := t.slots.size

/-- The function named in a slot, if the slot exists and has been set. -/
def slot? (t : Table) (index : UInt32) : Option FunctionId := t.slots[index.toNat]?.join

def set (t : Table) (index : UInt32) (function : FunctionId) : Except Trap Table :=
  if index.toNat < t.slots.size then
    .ok
      { t with
        slots := t.slots.setIfInBounds index.toNat (some function)
        size_le := by simpa using t.size_le }
  else .error (.invalidIndex .tableElement index)

/-- How many slots have been set. -/
def bound (t : Table) : Nat := t.slots.countP Option.isSome

def text (t : Table) : String :=
  "Table \x7b ref_type: " ++ t.refType.label ++ s!", size: {t.size}, bound: {t.bound} \x7d"

end Table

end WasmMachine

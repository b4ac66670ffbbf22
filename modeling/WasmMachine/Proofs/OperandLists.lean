import WasmMachine.Machine.Operation
import WasmMachine.Proofs.Leb128Codec

/-! The operand stack as a list of integers. The stack keeps its operands as bytes of varying number, with no mark where
one ends and the next begins; each computation on the bytes is shown to be one on the list that they stand for. -/

namespace WasmMachine.Proofs.OperandLists
open Sequencing Leb128Codec

variable {α β : Type}

def encodedSize (values : List Int32) : Nat := (values.map fun v => (Leb128.encodeS32 v).length).sum

def Fits : Option Nat → List Int32 → Prop
  | some bound, values => encodedSize values ≤ bound
  | none, _ => True

instance (capacity : Option Nat) (values : List Int32) : Decidable (Fits capacity values) :=
  match capacity with
  | some bound => inferInstanceAs (Decidable (encodedSize values ≤ bound))
  | none => isTrue trivial

theorem Fits.tail {capacity : Option Nat} {v : Int32} {values : List Int32} (fits : Fits capacity (v :: values)) :
    Fits capacity values := by
  cases capacity with
  | none => trivial
  | some bound => exact Nat.le_trans (Nat.le_add_left _ _) fits

theorem fits_nil (capacity : Option Nat) : Fits capacity [] := by
  cases capacity with
  | none => trivial
  | some bound => exact Nat.zero_le bound

/-- Operands with the top one first, which together take no more bytes than there is room for. -/
structure Operands where
  values : List Int32
  capacity : Option Nat
  fits : Fits capacity values

abbrev ListM (α : Type) := EStateM Trap Operands α

namespace Operands

def push (v : Int32) : ListM Unit := fun o =>
  if fits : Fits o.capacity (v :: o.values) then .ok () ⟨v :: o.values, o.capacity, fits⟩ else .error .stackOverflow o

def pop : ListM Int32
  | ⟨[], capacity, fits⟩ => .error .stackUnderflow ⟨[], capacity, fits⟩
  | ⟨v :: values, capacity, fits⟩ => .ok v ⟨values, capacity, fits.tail⟩

def clear (o : Operands) : Operands := ⟨[], o.capacity, fits_nil o.capacity⟩

def pushValue : Value → ListM Unit
  | .i32 v => push v
  | other => throw (.unsupported (.operandType other.type))

def popTyped : ValueType → ListM Value
  | .i32 => return .i32 (← pop)
  | other => throw (.unsupported (.operandType other))

def popCondition : ListM Bool := return (← pop) != 0

def popLabel (labels : List UInt32) (default : UInt32) : ListM UInt32 := do
  let index ← pop
  return labels[(index.toInt % 2 ^ 32).toNat]?.getD default

def popArgs : List ValueType → ListM (List Value)
  | [] => return []
  | t :: earlier => do
    let last ← popTyped t
    return (← popArgs earlier) ++ [last]

/-- What an operation makes of two integers, in the order in which they were pushed. `Int32.ofInt` takes the result
modulo 2³². -/
def meaning (a b : Int) : BinaryOp → Except Trap Int32
  | .add => .ok (Int32.ofInt (a + b))
  | .remS => if b = 0 then .error .divisionByZero else .ok (Int32.ofInt (a.tmod b))
  | .ltS => .ok (if a < b then 1 else 0)
  | .geS => .ok (if a ≥ b then 1 else 0)
  | .geU => .ok (if a % 2 ^ 32 ≥ b % 2 ^ 32 then 1 else 0)

def binary (op : BinaryOp) : ListM Unit := do
  let b ← pop
  let a ← pop
  match meaning a.toInt b.toInt op with
  | .ok c => push c
  | .error t => throw t

end Operands

example : Operands.meaning (-2 ^ 31) (-1) .remS = .ok 0 := by decide

theorem toNat_toUInt32 (a : Int32) : (a.toUInt32.toNat : Int) = a.toInt % 2 ^ 32 := by
  have bits : a.toInt = (a.toUInt32.toNat : Int).bmod (2 ^ 32) := BitVec.toInt_eq_toNat_bmod a.toBitVec
  have whole : ((a.toUInt32.toNat : Int).bmod (2 ^ 32)) % (2 ^ 32 : Nat) = a.toUInt32.toNat % (2 ^ 32 : Nat) :=
    Int.bmod_emod
  have less := a.toUInt32.toNat_lt
  rw [bits]
  omega

theorem toNat_emod (a : Int32) : (a.toInt % 2 ^ 32).toNat = a.toUInt32.toNat := by
  rw [← toNat_toUInt32]
  exact Int.toNat_natCast _

theorem apply_eq_meaning (op : BinaryOp) (a b : Int32) : op.apply a b = Operands.meaning a.toInt b.toInt op := by
  cases op with
  | add =>
    refine congrArg Except.ok (Int32.toInt_inj.mp ?_)
    rw [Int32.toInt_add, Int32.toInt_ofInt]
  | remS =>
    have zero : b = 0 ↔ b.toInt = 0 := Int32.toInt_inj.symm
    simp only [BinaryOp.apply, Operands.meaning, zero]
    split
    · rfl
    · refine congrArg Except.ok ?_
      rw [← Int32.toInt_mod, Int32.ofInt_toInt]
  | ltS => simp only [BinaryOp.apply, Operands.meaning, Int32.lt_iff_toInt_lt]
  | geS => simp only [BinaryOp.apply, Operands.meaning, Int32.le_iff_toInt_le, ge_iff_le]
  | geU =>
    have unsigned : b.toUInt32 ≤ a.toUInt32 ↔ a.toInt % 2 ^ 32 ≥ b.toInt % 2 ^ 32 := by
      rw [UInt32.le_iff_toNat_le, ← toNat_toUInt32, ← toNat_toUInt32]
      omega
    simp only [BinaryOp.apply, Operands.meaning, unsigned]

/-- The stack holds the encodings of the operands, the bottom one first and each of them back to front. -/
def Represents (stack : OperandStack) (values : List Int32) : Prop :=
  stack.bytes.stored.toList = values.reverse.flatMap fun v => (Leb128.encodeS32 v).reverse

instance (stack : OperandStack) (values : List Int32) : Decidable (Represents stack values) :=
  inferInstanceAs (Decidable (_ = _))

def Operands.bytes (o : Operands) : ByteStack := ⟨(o.values.reverse.flatMap fun v => (Leb128.encodeS32 v).reverse).toArray⟩

/-- The stack that represents the operands. -/
def Operands.stack (o : Operands) : OperandStack := ⟨o.bytes, o.capacity⟩

theorem rest_bytes (o : Operands) : Cursor.rest o.bytes = o.values.flatMap Leb128.encodeS32 := by
  change (List.toArray _).toList.reverse = _
  rw [List.reverse_flatMap, List.reverse_reverse]
  simp only [Function.comp_def, List.reverse_reverse]

theorem rest_injective {s t : ByteStack} (same : Cursor.rest s = Cursor.rest t) : s = t := by
  cases s
  cases t
  exact congrArg ByteStack.mk (Array.toList_inj.mp (List.reverse_inj.mp same))

theorem size_stack (o : Operands) : o.stack.size = encodedSize o.values := by
  have length : o.stack.size = (Cursor.rest o.bytes).length := (LawfulCursor.remaining_eq o.bytes)
  rw [length, rest_bytes, List.length_flatMap]
  rfl

theorem hasRoom_stack (o : Operands) (v : Int32) :
    o.stack.hasRoom (Leb128.encodeS32 v).length = true ↔ Fits o.capacity (v :: o.values) := by
  have size : encodedSize (v :: o.values) = (Leb128.encodeS32 v).length + encodedSize o.values := rfl
  obtain ⟨values, capacity, fits⟩ := o
  cases capacity with
  | none => exact ⟨fun _ => trivial, fun _ => rfl⟩
  | some bound =>
    have held : (Operands.stack ⟨values, some bound, fits⟩).size = encodedSize values := size_stack _
    refine decide_eq_true_iff.trans ?_
    simp only [Fits, size]
    omega

theorem write_bytes {o longer : Operands} {v : Int32} (longest : longer.values = v :: o.values) :
    o.bytes.write (Leb128.encodeS32 v) = longer.bytes := by
  simp only [ByteStack.write, Operands.bytes, longest, List.reverse_cons, List.flatMap_append, List.flatMap_singleton]
  exact congrArg ByteStack.mk (List.append_toArray _ _)

theorem push_follows (v : Int32) : Follows Operands.stack (OperandStack.pushI32 v) (Operands.push v) := by
  intro o
  by_cases fits : Fits o.capacity (v :: o.values)
  · have room := (hasRoom_stack o v).mpr fits
    simp only [OperandStack.pushI32, Operands.push, room, fits, if_true, dite_true, mapState]
    exact congrArg (EStateM.Result.ok ()) (congrArg (OperandStack.mk · o.capacity) (write_bytes rfl))
  · have full : o.stack.hasRoom (Leb128.encodeS32 v).length = false :=
      Bool.eq_false_iff.mpr (fun room => fits ((hasRoom_stack o v).mp room))
    simp only [OperandStack.pushI32, Operands.push, full, fits, Bool.false_eq_true, if_false, dite_false, mapState]

/-- A number is read to its last byte and no further, whatever lies below it. -/
theorem pop_follows : Follows Operands.stack OperandStack.popI32 Operands.pop := by
  rintro ⟨values, capacity, fits⟩
  have read := readSigned_follows Leb128.maxGroups 1 0 (Operands.mk values capacity fits).bytes
  rw [rest_bytes] at read
  cases values with
  | nil =>
    obtain ⟨after, failed, same⟩ := mapState_eq_error read.symm
    obtain rfl : after = _ := rest_injective (same.trans (rest_bytes ⟨[], capacity, fits⟩).symm)
    change OperandStack.popI32 ⟨_, capacity⟩ = _
    simp only [OperandStack.popI32, Leb128.readS32, failed]
    rfl
  | cons v values =>
    have known := s32_reads v (values.flatMap Leb128.encodeS32)
    obtain ⟨after, found, same⟩ := mapState_eq_ok (read.symm.trans known)
    obtain rfl : after = _ := rest_injective (same.trans (rest_bytes ⟨values, capacity, fits.tail⟩).symm)
    change OperandStack.popI32 ⟨_, capacity⟩ = _
    simp only [OperandStack.popI32, Leb128.readS32, found]
    rfl

theorem pushValue_follows (value : Value) : Follows Operands.stack (OperandStack.push value) (Operands.pushValue value) := by
  cases value with
  | i32 v => exact push_follows v
  | i64 v | f32 v | f64 v => exact Follows.throw _

theorem popTyped_follows (type : ValueType) :
    Follows Operands.stack (OperandStack.popTyped type) (Operands.popTyped type) := by
  cases type with
  | i32 => exact Follows.bind pop_follows (fun _ => Follows.pure _)
  | i64 | f32 | f64 => exact Follows.throw _

theorem popCondition_follows : Follows Operands.stack OperandStack.popCondition Operands.popCondition :=
  Follows.bind pop_follows (fun _ => Follows.pure _)

theorem popLabel_follows (labels : List UInt32) (default : UInt32) :
    Follows Operands.stack (OperandStack.popLabel labels default) (Operands.popLabel labels default) := by
  apply Follows.bind pop_follows
  intro index
  rw [toNat_emod]
  exact Follows.pure _

theorem popArgs_follows (types : List ValueType) :
    Follows Operands.stack (Call.popArgs types) (Operands.popArgs types) := by
  induction types with
  | nil => exact Follows.pure _
  | cons type earlier ih =>
    apply Follows.bind (popTyped_follows type)
    intro last
    exact Follows.bind ih (fun values => Follows.pure _)

theorem binary_follows (op : BinaryOp) : Follows Operands.stack op.run (Operands.binary op) := by
  apply Follows.bind pop_follows
  intro b
  apply Follows.bind pop_follows
  intro a
  rw [← apply_eq_meaning]
  cases op.apply a b with
  | ok c => exact push_follows c
  | error t => exact Follows.throw t

/-- The stack stands for the operands, and its bytes are within its capacity. -/
structure Holds (stack : OperandStack) (o : Operands) : Prop where
  represents : Represents stack o.values
  capacity : stack.capacity = o.capacity
  within : ∀ bound, stack.capacity = some bound → stack.size ≤ bound

theorem holds_stack (o : Operands) : Holds o.stack o := by
  refine ⟨rfl, rfl, ?_⟩
  intro bound limited
  have fits := o.fits
  rw [show o.capacity = some bound from limited] at fits
  rw [size_stack]
  exact fits

theorem Holds.eq_stack {stack : OperandStack} {o : Operands} (holds : Holds stack o) : stack = o.stack := by
  obtain ⟨⟨stored⟩, capacity⟩ := stack
  have bytes : stored = o.bytes.stored := Array.toList_inj.mp holds.represents
  exact congrArg₂ OperandStack.mk (congrArg ByteStack.mk bytes) holds.capacity

/-- Every stack that represents integers, within its capacity, stands for operands. -/
theorem holds_of_represents {stack : OperandStack} {values : List Int32} (represents : Represents stack values)
    (within : ∀ bound, stack.capacity = some bound → stack.size ≤ bound) :
    ∃ fits, Holds stack ⟨values, stack.capacity, fits⟩ := by
  have bytes : stack.bytes = (Operands.mk values none trivial).bytes :=
    congrArg ByteStack.mk (Array.toList_inj.mp represents)
  have size : stack.size = encodedSize values := by
    rw [← size_stack ⟨values, none, trivial⟩]
    exact congrArg ByteStack.size bytes
  have fits : Fits stack.capacity values := by
    cases limited : stack.capacity with
    | none => trivial
    | some bound => exact size.symm.trans_le (within bound limited)
  exact ⟨fits, represents, rfl, within⟩

theorem clear_holds {stack : OperandStack} {o : Operands} (holds : Holds stack o) : Holds stack.clear o.clear :=
  ⟨rfl, holds.capacity, fun bound _ => Nat.zero_le bound⟩

/-- What can be done with a stack is what can be done with its operands. An integer is popped whole or not at all,
and a push that fails for want of room changes nothing. -/
structure StackAgrees (stack : OperandStack) (o : Operands) : Prop where
  push : ∀ v, SameOutcome Holds (OperandStack.pushI32 v stack) (Operands.push v o)
  pop : SameOutcome Holds (OperandStack.popI32 stack) (Operands.pop o)
  pushValue : ∀ value, SameOutcome Holds (OperandStack.push value stack) (Operands.pushValue value o)
  popTyped : ∀ type, SameOutcome Holds (OperandStack.popTyped type stack) (Operands.popTyped type o)
  popCondition : SameOutcome Holds (OperandStack.popCondition stack) (Operands.popCondition o)
  popLabel : ∀ labels default,
    SameOutcome Holds (OperandStack.popLabel labels default stack) (Operands.popLabel labels default o)
  binary : ∀ op, SameOutcome Holds (BinaryOp.run op stack) (Operands.binary op o)
  clear : Holds stack.clear o.clear
  underflow : (∃ after, OperandStack.popI32 stack = .error .stackUnderflow after) ↔ o.values = []
  overflow : ∀ v, OperandStack.pushI32 v stack = .error .stackOverflow stack ↔
    ∃ bound, stack.capacity = some bound ∧ bound < stack.size + (Leb128.encodeS32 v).length

theorem popI32_underflow_iff (o : Operands) :
    (∃ after, OperandStack.popI32 o.stack = .error .stackUnderflow after) ↔ o.values = [] := by
  rw [pop_follows o]
  obtain ⟨values, capacity, fits⟩ := o
  cases values with
  | nil => exact ⟨fun _ => rfl, fun _ => ⟨_, rfl⟩⟩
  | cons v values =>
    constructor
    · rintro ⟨after, impossible⟩
      cases impossible
    · intro impossible
      cases impossible

theorem pushI32_overflow_iff (v : Int32) (stack : OperandStack) :
    OperandStack.pushI32 v stack = .error .stackOverflow stack ↔
      ∃ bound, stack.capacity = some bound ∧ bound < stack.size + (Leb128.encodeS32 v).length := by
  obtain ⟨bytes, capacity⟩ := stack
  cases capacity with
  | none =>
    constructor
    · intro impossible
      cases impossible
    · rintro ⟨bound, impossible, _⟩
      cases impossible
  | some bound =>
    simp only [OperandStack.pushI32, OperandStack.hasRoom, Option.some.injEq, exists_eq_left']
    by_cases room : OperandStack.size ⟨bytes, some bound⟩ + (Leb128.encodeS32 v).length ≤ bound
    · simp [room]
    · simpa [room] using Nat.lt_of_not_le room

theorem stack_agrees {stack : OperandStack} {o : Operands} (holds : Holds stack o) : StackAgrees stack o := by
  have same := holds.eq_stack
  subst stack
  exact
    { push := fun v => (push_follows v).sameOutcome holds_stack o
      pop := pop_follows.sameOutcome holds_stack o
      pushValue := fun value => (pushValue_follows value).sameOutcome holds_stack o
      popTyped := fun type => (popTyped_follows type).sameOutcome holds_stack o
      popCondition := popCondition_follows.sameOutcome holds_stack o
      popLabel := fun labels default => (popLabel_follows labels default).sameOutcome holds_stack o
      binary := fun op => (binary_follows op).sameOutcome holds_stack o
      clear := clear_holds holds
      underflow := popI32_underflow_iff o
      overflow := fun v => pushI32_overflow_iff v o.stack }

end WasmMachine.Proofs.OperandLists

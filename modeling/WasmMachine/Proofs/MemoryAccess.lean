import WasmMachine.Proofs.DataOverlay
import WasmMachine.Proofs.PassingArguments

/-! Memory as a bounded array of bytes. What it holds is said position by position, and reading, writing, loading and
storing are compared with that. Positions are natural numbers, so an address of 64 bits that lies near the end of its
range, or a base and an offset that exceed 32 bits together, come to the position that they stand for. -/

namespace WasmMachine.Proofs.MemoryAccess
open Sequencing OperandLists PassingArguments Placements DataOverlay

/-- The byte at a position; there are none but zeros beyond the end. -/
def content (memory : Memory) (position : Nat) : UInt8 := memory.bytes.getD position 0

/-- The bytes from a position on. -/
def span (byte : Nat → UInt8) (start size : Nat) : List UInt8 := (List.range size).map fun k => byte (start + k)

/-- New bytes from a position on, and the old ones elsewhere. -/
def placed (byte : Nat → UInt8) (start : Nat) (new : List UInt8) (position : Nat) : UInt8 :=
  if start ≤ position ∧ position < start + new.length then new.getD (position - start) 0 else byte position

/-- The four bytes of an integer in two's complement, the lowest first. -/
def spelled (v : Int32) : List UInt8 := (List.range 4).map fun k => UInt8.ofNat ((v.toInt % 2 ^ 32).toNat / 256 ^ k)

/-- The integer that four bytes spell, the lowest first. -/
def wordAt (byte : Nat → UInt8) (start : Nat) : Int32 :=
  Int32.ofNat ((byte start).toNat + 2 ^ 8 * (byte (start + 1)).toNat + 2 ^ 16 * (byte (start + 2)).toNat +
    2 ^ 24 * (byte (start + 3)).toNat)

/-- Where an access goes: the base without its sign, and as far on as the offset says. -/
def target (base : Int32) (offset : UInt32) : Nat := (base.toInt % 2 ^ 32).toNat + offset.toNat

/-- No position belongs to both ranges. -/
def Apart (start size other otherSize : Nat) : Prop := start + size ≤ other ∨ other + otherSize ≤ start

section Bytes

variable {byte : Nat → UInt8} {start : Nat} {new : List UInt8}

theorem span_placed_self : span (placed byte start new) start new.length = new := by
  apply List.ext_getElem
  · simp [span]
  · intro k _ within
    simp [span, placed, within]

theorem span_placed_apart {other size : Nat} (apart : Apart start new.length other size) :
    span (placed byte start new) other size = span byte other size := by
  apply List.map_congr_left
  intro k member
  have within := List.mem_range.mp member
  have outside : ¬ (start ≤ other + k ∧ other + k < start + new.length) := by
    unfold Apart at apart
    omega
  exact if_neg outside

theorem wordAt_eq_span : wordAt byte start = Int32.ofNat (Memory.littleEndian (span byte start 4)) := by
  refine congrArg Int32.ofNat ?_
  simp only [span, List.range, List.range.loop, List.map, Memory.littleEndian, Nat.add_zero]
  omega

theorem wordAt_congr {other : Nat → UInt8} (same : span byte start 4 = span other start 4) :
    wordAt byte start = wordAt other start := by rw [wordAt_eq_span, wordAt_eq_span, same]

theorem int32Bytes_eq_spelled (v : Int32) : Memory.int32Bytes v = spelled v := by
  rw [spelled, toNat_emod]
  simp [Memory.int32Bytes, List.range, List.range.loop]

theorem littleEndian_int32Bytes (v : Int32) : Memory.littleEndian (Memory.int32Bytes v) = v.toUInt32.toNat := by
  have less := v.toUInt32.toNat_lt
  simp only [Memory.int32Bytes, Memory.littleEndian, UInt8.toNat_ofNat', Nat.toUInt8_eq]
  omega

theorem wordAt_placed_self (v : Int32) : wordAt (placed byte start (spelled v)) start = v := by
  have four : span (placed byte start (spelled v)) start 4 = spelled v := span_placed_self
  rw [wordAt_eq_span, four, ← int32Bytes_eq_spelled, littleEndian_int32Bytes, ← UInt32.toInt32_ofNat',
    UInt32.ofNat_toNat, Int32.toInt32_toUInt32]

end Bytes

section Memories

variable {memory : Memory} {address : UInt64}

theorem read_eq (memory : Memory) (address : UInt64) (size : Nat) : memory.read address size =
    if address.toNat + size ≤ memory.size then .ok (span (content memory) address.toNat size)
    else .error (.memoryOutOfBounds address size) := by
  simp only [Memory.read, Memory.inBounds, decide_eq_true_eq]
  split
  next enough =>
    unfold Memory.size at enough
    refine congrArg Except.ok (List.ext_getElem ?_ ?_)
    · simp only [span, Array.length_toList, Array.size_extract, List.length_map, List.length_range]
      omega
    · intro k within _
      simp only [Array.length_toList, Array.size_extract] at within
      have inside : address.toNat + k < memory.bytes.size := by omega
      simp [span, content, inside]
  next => rfl

/-- After a write the memory is as long as before, and holds the new bytes from the position on and the old ones
elsewhere. -/
structure Written (before after : Memory) (start : Nat) (new : List UInt8) : Prop where
  size : after.size = before.size
  limits : after.limits = before.limits
  bytes : content after = placed (content before) start new

theorem write_refused (new : List UInt8) (long : memory.size < address.toNat + new.length) :
    memory.write address new = .error (.memoryOutOfBounds address new.length) := by
  have outside : ¬ address.toNat + new.length ≤ memory.size := Nat.not_le.mpr long
  simp [Memory.write, Memory.inBounds, outside]

theorem content_patch {start : Nat} {new : List UInt8} (enough : start + new.length ≤ memory.size) :
    content ⟨patch memory.bytes start new, memory.limits⟩ = placed (content memory) start new := by
  funext position
  simp only [content, Array.getD_eq_getD_getElem?, patch, Array.getElem?_mapIdx, placed, List.getD_eq_getElem?_getD]
  unfold Memory.size at enough
  -- A covered position lies in the memory; one beyond the end is not covered, and is zero before and after.
  by_cases covered : start ≤ position ∧ position < start + new.length
  · have inside : position < memory.bytes.size := by omega
    have item : position - start < new.length := by omega
    simp [inside, covered, item]
  · cases memory.bytes[position]? with
    | none => simp [covered]
    | some old =>
      simp only [covered, if_false, Option.map_some, Option.getD_some]
      split
      · rw [List.getElem?_eq_none (by omega), Option.getD_none]
      · rfl

theorem write_taken (new : List UInt8) (enough : address.toNat + new.length ≤ memory.size) :
    ∃ after, memory.write address new = .ok after ∧ Written memory after address.toNat new := by
  refine ⟨⟨patch memory.bytes address.toNat new, memory.limits⟩, ?_, ?_, rfl, content_patch enough⟩
  · simp [Memory.write, Memory.inBounds, enough, overlay_eq_patch]
  · simp [Memory.size, patch]

/-- What is read after a write is read from the bytes as the write has left them. -/
theorem read_written {after : Memory} {start : Nat} {new : List UInt8} (written : Written memory after start new)
    (other : UInt64) (size : Nat) : after.read other size =
      if other.toNat + size ≤ memory.size then .ok (span (placed (content memory) start new) other.toNat size)
      else .error (.memoryOutOfBounds other size) := by
  rw [read_eq, written.size, written.bytes]

/-- Reading and writing any number of bytes at any address. A write is refused exactly when it does not fit. Behind one that
is not, the new bytes are read where they were written, the old ones where none were, and both where a read covers both.
The end of an access may be computed in 64 bits: if it wraps around, the access does not fit. -/
structure BytesObey (memory : Memory) : Prop where
  read : ∀ address size, memory.read address size =
    if address.toNat + size ≤ memory.size then .ok (span (content memory) address.toNat size)
    else .error (.memoryOutOfBounds address size)
  refused : ∀ address new, memory.size < address.toNat + new.length →
    memory.write address new = .error (.memoryOutOfBounds address new.length)
  taken : ∀ address new, address.toNat + new.length ≤ memory.size →
    ∃ after, memory.write address new = .ok after ∧ Written memory after address.toNat new ∧
      after.read address new.length = .ok new ∧
      (∀ other size, Apart address.toNat new.length other.toNat size → after.read other size = memory.read other size) ∧
      ∀ other size, other.toNat + size ≤ memory.size →
        after.read other size = .ok (span (placed (content memory) address.toNat new) other.toNat size)
  wrapped : ∀ address size : UInt64, memory.size < 2 ^ 64 →
    (memory.inBounds address size.toNat = true ↔ address ≤ address + size ∧ (address + size).toNat ≤ memory.size)

theorem bytes_obey (memory : Memory) : BytesObey memory where
  read := read_eq memory
  refused _ new := write_refused new
  taken address new enough := by
    obtain ⟨after, done, written⟩ := write_taken new enough
    refine ⟨after, done, written, ?_, ?_, ?_⟩
    · rw [read_written written, if_pos enough, span_placed_self]
    · intro other size apart
      rw [read_written written, read_eq, span_placed_apart apart]
    · intro other size inside
      rw [read_written written, if_pos inside]
  wrapped address size short := by
    have less := address.toNat_lt
    have lessSize := size.toNat_lt
    simp only [Memory.inBounds, decide_eq_true_eq, UInt64.le_iff_toNat_le, UInt64.toNat_add]
    omega

end Memories

section Integers

variable {memory : Memory} {address : UInt64}

theorem readI32_eq (memory : Memory) (address : UInt64) : memory.readI32 address =
    if address.toNat + 4 ≤ memory.size then .ok (wordAt (content memory) address.toNat)
    else .error (.memoryOutOfBounds address 4) := by
  rw [Memory.readI32, read_eq, wordAt_eq_span, ← UInt32.toInt32_ofNat']
  split <;> rfl

theorem writeI32_refused {value : Int32} (long : memory.size < address.toNat + 4) :
    memory.writeI32 address value = .error (.memoryOutOfBounds address 4) :=
  write_refused (Memory.int32Bytes value) long

theorem writeI32_taken {value : Int32} (enough : address.toNat + 4 ≤ memory.size) :
    ∃ after, memory.writeI32 address value = .ok after ∧ Written memory after address.toNat (spelled value) := by
  rw [← int32Bytes_eq_spelled]
  exact write_taken (Memory.int32Bytes value) enough

/-- Neither the base without its sign nor the sum with the offset leaves 64 bits. -/
theorem toNat_effectiveAddress (base : Int32) (offset : UInt32) :
    (Memory.effectiveAddress base offset).toNat = target base offset := by
  have less := base.toUInt32.toNat_lt
  have lessOffset := offset.toNat_lt
  rw [target, toNat_emod, Memory.effectiveAddress, UInt64.toNat_add, UInt32.toNat_toUInt64, UInt32.toNat_toUInt64]
  omega

end Integers

section Instructions

/-- The machine with one more operand on top of its stack. -/
def withOperand (v : Int32) (m : Machine) : Machine :=
  { m with store := { m.store with stack :=
    { m.store.stack with bytes := m.store.stack.bytes.write (Leb128.encodeS32 v) } } }

/-- The machine with another memory at a place of its heap. -/
def withMemory (id : Nat) (memory : Memory) (m : Machine) : Machine := { m with heap := m.heap.setMemory id memory }

/-- The memory of index zero is this one, and stands at this place. -/
structure Owns (m : Machine) (id : Nat) (memory : Memory) : Prop where
  place : m.store.memories[0]? = some id
  stored : m.heap.memories[id]? = some memory

variable {m : Machine} {id : Nat} {memory : Memory} {arg : MemArg} {base : Int32}

theorem Owns.withOperand (owns : Owns m id memory) (v : Int32) : Owns (withOperand v m) id memory :=
  ⟨owns.place, owns.stored⟩

theorem Owns.withMemory (owns : Owns m id memory) (after : Memory) : Owns (withMemory id after m) id after := by
  refine ⟨owns.place, ?_⟩
  obtain ⟨inside, _⟩ := Array.getElem?_eq_some_iff.mp owns.stored
  exact Array.getElem?_setIfInBounds_self_of_lt inside

theorem Owns.look (owns : Owns m id memory) : Run.look (·.memory 0) m = .ok memory m :=
  look_found (Option.bind_eq_some_iff.mpr ⟨id, owns.place, owns.stored⟩)

theorem Owns.lookId (owns : Owns m id memory) : Run.look (·.memoryId 0) m = .ok id m := look_found owns.place

theorem onStack_pop (v : Int32) (m : Machine) : Run.onStack OperandStack.popI32 (withOperand v m) = .ok v m := by
  have popped := pop_of_write v m.store.stack
  simp only [Run.onStack, withOperand, popped]

/-- A load takes its base from the stack and gives what is read there. -/
theorem runLoad_eq (owns : Owns m id memory) : Op.runLoad arg (withOperand base m) = (do
    let value ← Run.lift (memory.readI32 (Memory.effectiveAddress base arg.offset))
    Run.onStack (OperandStack.pushI32 value)) m := by
  refine (bind_of_ok (owns.withOperand base).look).trans ?_
  exact bind_of_ok (onStack_pop base m)

theorem runStore_eq (owns : Owns m id memory) (value : Int32) :
    Op.runStore arg (withOperand value (withOperand base m)) = (do
      let memory ← Run.lift (memory.writeI32 (Memory.effectiveAddress base arg.offset) value)
      Run.modifyHeap (·.setMemory id memory)) m := by
  have ready := (owns.withOperand base).withOperand value
  refine (bind_of_ok ready.lookId).trans ?_
  refine (bind_of_ok ready.look).trans ?_
  refine (bind_of_ok (onStack_pop value _)).trans ?_
  exact bind_of_ok (onStack_pop base m)

/-- The trap of an access that does not fit. -/
def outside (base : Int32) (arg : MemArg) : Halt := .trap (.memoryOutOfBounds (Memory.effectiveAddress base arg.offset) 4)

theorem load_refused (owns : Owns m id memory) (long : memory.size < target base arg.offset + 4) :
    Op.runLoad arg (withOperand base m) = .error (outside base arg) m := by
  rw [← toNat_effectiveAddress] at long
  rw [runLoad_eq owns, readI32_eq, if_neg (Nat.not_le.mpr long)]
  rfl

theorem load_taken (owns : Owns m id memory) (enough : target base arg.offset + 4 ≤ memory.size) :
    Op.runLoad arg (withOperand base m) =
      Run.onStack (OperandStack.pushI32 (wordAt (content memory) (target base arg.offset))) m := by
  rw [← toNat_effectiveAddress] at enough ⊢
  rw [runLoad_eq owns, readI32_eq, if_pos enough]
  rfl

theorem store_refused (owns : Owns m id memory) (long : memory.size < target base arg.offset + 4) (value : Int32) :
    Op.runStore arg (withOperand value (withOperand base m)) = .error (outside base arg) m := by
  rw [← toNat_effectiveAddress] at long
  rw [runStore_eq owns, writeI32_refused long]
  rfl

theorem store_taken (owns : Owns m id memory) (enough : target base arg.offset + 4 ≤ memory.size) (value : Int32) :
    ∃ after, Op.runStore arg (withOperand value (withOperand base m)) = .ok () (withMemory id after m) ∧
      Written memory after (target base arg.offset) (spelled value) := by
  rw [← toNat_effectiveAddress] at enough ⊢
  obtain ⟨after, done, written⟩ := writeI32_taken enough
  refine ⟨after, ?_, written⟩
  rw [runStore_eq owns, done]
  rfl

/-- Pushing fails for want of room only. -/
theorem push_in_bounds {v : Int32} {address : UInt64} {size : Nat} {after : Machine} :
    Run.onStack (OperandStack.pushI32 v) m ≠ .error (.trap (.memoryOutOfBounds address size)) after := by
  intro failed
  unfold Run.onStack OperandStack.pushI32 at failed
  dsimp only at failed
  split at failed
  · cases failed
  next pushed =>
    split at pushed <;> cases pushed
    cases failed

/-- A load whose four bytes are not all in the memory fails, and in no other case is it out of bounds; otherwise the integer
that the bytes spell is pushed. -/
structure LoadObeys (m : Machine) (memory : Memory) (arg : MemArg) (base : Int32) : Prop where
  refused : memory.size < target base arg.offset + 4 →
    Op.runLoad arg (withOperand base m) = .error (outside base arg) m
  taken : target base arg.offset + 4 ≤ memory.size → Op.runLoad arg (withOperand base m) =
    Run.onStack (OperandStack.pushI32 (wordAt (content memory) (target base arg.offset))) m
  outOfBounds : (∃ address size after,
    Op.runLoad arg (withOperand base m) = .error (.trap (.memoryOutOfBounds address size)) after) ↔
      memory.size < target base arg.offset + 4

theorem load_obeys (owns : Owns m id memory) : LoadObeys m memory arg base where
  refused := load_refused owns
  taken := load_taken owns
  outOfBounds := by
    constructor
    · rintro ⟨address, size, after, failed⟩
      refine Nat.lt_of_not_le fun enough => ?_
      exact push_in_bounds ((load_taken owns enough).symm.trans failed)
    · intro long
      exact ⟨_, _, _, load_refused owns long⟩

/-- What loads give after a store: at the same place the stored integer, apart from it what they gave before, and in
general what the bytes spell of which some may be new and some old. -/
structure LoadsAfter (m stored : Machine) (memory : Memory) (start : Nat) (value : Int32) (arg : MemArg) (base : Int32) :
    Prop where
  same : target base arg.offset = start →
    Op.runLoad arg (withOperand base stored) = Run.onStack (OperandStack.pushI32 value) stored
  apart : Apart start 4 (target base arg.offset) 4 →
    mapState (·.store.stack) (Op.runLoad arg (withOperand base stored)) =
      mapState (·.store.stack) (Op.runLoad arg (withOperand base m))
  overlapping : target base arg.offset + 4 ≤ memory.size → Op.runLoad arg (withOperand base stored) =
    Run.onStack (OperandStack.pushI32
      (wordAt (placed (content memory) start (spelled value)) (target base arg.offset))) stored

theorem stack_of_onStack {α : Type} (f : StackM α) {m other : Machine} (same : m.store.stack = other.store.stack) :
    mapState (·.store.stack) (Run.onStack f m) = mapState (·.store.stack) (Run.onStack f other) := by
  simp only [Run.onStack, same]
  cases f other.store.stack <;> rfl

theorem loads_after {after : Memory} {start : Nat} {value : Int32} (owns : Owns m id memory)
    (written : Written memory after start (spelled value)) (enough : start + 4 ≤ memory.size) :
    LoadsAfter m (withMemory id after m) memory start value arg base := by
  have stored := owns.withMemory after
  have loaded : target base arg.offset + 4 ≤ memory.size → Op.runLoad arg (withOperand base (withMemory id after m)) =
      Run.onStack (OperandStack.pushI32
        (wordAt (placed (content memory) start (spelled value)) (target base arg.offset))) (withMemory id after m) := by
    intro inside
    rw [← written.bytes]
    exact load_taken stored (written.size ▸ inside)
  refine ⟨?_, ?_, loaded⟩
  · intro same
    rw [loaded (same ▸ enough), same, wordAt_placed_self]
  · intro apart
    have old : wordAt (placed (content memory) start (spelled value)) (target base arg.offset) =
        wordAt (content memory) (target base arg.offset) := wordAt_congr (span_placed_apart apart)
    by_cases inside : target base arg.offset + 4 ≤ memory.size
    · rw [loaded inside, old, load_taken owns inside]
      exact stack_of_onStack _ rfl
    · -- The length stays, so what did not fit before the store does not fit after it.
      have long := Nat.lt_of_not_le inside
      rw [load_refused owns long, load_refused stored (written.size ▸ long)]
      rfl

/-- A store whose four bytes are not all in the memory fails and leaves everything but the stack as it was; otherwise it
puts the bytes of the integer there. -/
structure StoreObeys (m : Machine) (id : Nat) (memory : Memory) (arg : MemArg) (base value : Int32) : Prop where
  refused : memory.size < target base arg.offset + 4 →
    Op.runStore arg (withOperand value (withOperand base m)) = .error (outside base arg) m
  taken : target base arg.offset + 4 ≤ memory.size →
    ∃ after, Op.runStore arg (withOperand value (withOperand base m)) = .ok () (withMemory id after m) ∧
      Written memory after (target base arg.offset) (spelled value) ∧
      ∀ next other, LoadsAfter m (withMemory id after m) memory (target base arg.offset) value next other

theorem store_obeys (owns : Owns m id memory) (value : Int32) : StoreObeys m id memory arg base value where
  refused long := store_refused owns long value
  taken enough := by
    obtain ⟨after, done, written⟩ := store_taken owns enough value
    exact ⟨after, done, written, fun _ _ => loads_after owns written enough⟩

end Instructions

/-- Memory is a bounded array of bytes, and loads and stores are reads and writes of four of them, the lowest first, at the
base without its sign plus the offset. -/
theorem memory_obeys_array_laws :
    (∀ memory, BytesObey memory) ∧
    (∀ base offset, (Memory.effectiveAddress base offset).toNat = target base offset) ∧
    ∀ m id memory, Owns m id memory → ∀ arg base,
      LoadObeys m memory arg base ∧ ∀ value, StoreObeys m id memory arg base value :=
  ⟨bytes_obey, toNat_effectiveAddress, fun _ _ _ owns _ _ => ⟨load_obeys owns, store_obeys owns⟩⟩

def tenBytes : Memory := ⟨#[0, 1, 2, 3, 4, 5, 6, 7, 8, 9], ⟨0, none⟩⟩

def tenByteMachine : Machine where
  heap := { memories := #[tenBytes] }
  store := { Store.create {} with memories := #[0] }

/-- A read that covers new and old bytes, and one whose end wraps around in 64 bits; a load that overlaps a store at an odd
address, and one that would be in bounds if its address had 32 bits. -/
theorem tenBytes_obeys :
    (∃ after, tenBytes.write 8 [0xaa, 0xbb] = .ok after ∧ after.read 7 3 = .ok [0x07, 0xaa, 0xbb]) ∧
    tenBytes.read 0xffffffffffffffff 2 = .error (.memoryOutOfBounds 0xffffffffffffffff 2) ∧
    Owns tenByteMachine 0 tenBytes ∧
    (∃ after, Op.runStore ⟨2, 1⟩ (withOperand (-2) (withOperand 2 tenByteMachine)) =
        .ok () (withMemory 0 after tenByteMachine) ∧
      Op.runLoad ⟨0, 0⟩ (withOperand 5 (withMemory 0 after tenByteMachine)) =
        Run.onStack (OperandStack.pushI32 0x0807ffff) (withMemory 0 after tenByteMachine)) ∧
    Op.runLoad ⟨0, 1⟩ (withOperand (-1) tenByteMachine) = .error (.trap (.memoryOutOfBounds 4294967296 4)) tenByteMachine := by
  have owns : Owns tenByteMachine 0 tenBytes := ⟨rfl, rfl⟩
  obtain ⟨bytes, _, instructions⟩ := memory_obeys_array_laws
  obtain ⟨written, wrote, _, _, _, reads⟩ := (bytes tenBytes).taken 8 [0xaa, 0xbb] (by decide)
  obtain ⟨after, done, _, loads⟩ := ((instructions _ _ _ owns ⟨2, 1⟩ 2).2 (-2)).taken (by decide)
  refine ⟨⟨written, wrote, reads 7 3 (by decide)⟩, (bytes tenBytes).read 0xffffffffffffffff 2, owns, ⟨after, done, ?_⟩, ?_⟩
  · exact (loads ⟨0, 0⟩ 5).overlapping (by decide)
  · exact (instructions _ _ _ owns ⟨0, 1⟩ (-1)).1.refused (by decide)

end WasmMachine.Proofs.MemoryAccess

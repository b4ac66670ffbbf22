import WasmMachine.Binary.Bytes
import WasmMachine.Binary.Cursor

/-! The forward cursor: bytes with a position. Reading moves the position; writing overwrites from
the position on and grows the buffer where it has to, so an empty buffer collects what is written. -/

namespace WasmMachine

structure Buffer where
  bytes : Array UInt8
  position : Nat
  position_le : position ≤ bytes.size := by omega

namespace Buffer

/-- A buffer about to read its first byte. -/
def ofBytes (bytes : List UInt8) : Buffer := ⟨bytes.toArray, 0, Nat.zero_le _⟩

def size (b : Buffer) : Nat := b.bytes.size

def isEmpty (b : Buffer) : Bool := b.bytes.isEmpty

/-- Moves to a position; one beyond the end moves to the end. -/
def seek (position : Nat) (b : Buffer) : Buffer :=
  ⟨b.bytes, min position b.bytes.size, Nat.min_le_right _ _⟩

def next? (b : Buffer) : Option (UInt8 × Buffer) :=
  if h : b.position < b.bytes.size then some (b.bytes[b.position], ⟨b.bytes, b.position + 1, h⟩)
  else none

def take (size : Nat) (b : Buffer) : List UInt8 × Buffer :=
  if h : b.position + size ≤ b.bytes.size then
    ((b.bytes.extract b.position (b.position + size)).toList, ⟨b.bytes, b.position + size, h⟩)
  else ([], b)

/-- Grows the buffer up to the end of the new bytes, if it is shorter, and puts them over what is
there. -/
def write (new : List UInt8) (b : Buffer) : Buffer where
  bytes := Bytes.overlay (Bytes.grow b.bytes (b.position + new.length)) b.position new
  position := b.position + new.length
  position_le := by
    rw [Bytes.overlay_size, Bytes.grow_size]
    exact Nat.le_max_right _ _

/-- The bytes before the position stay, and so do those behind the new ones. -/
theorem write_bytes (b : Buffer) (new : List UInt8) :
    (b.write new).bytes.toList =
      b.bytes.toList.take b.position ++ new ++ b.bytes.toList.drop (b.position + new.length) :=
  Bytes.overlay_grow_toList b.bytes b.position new b.position_le

instance : Cursor Buffer where
  rest b := b.bytes.toList.drop b.position
  remaining b := b.bytes.size - b.position
  next? := next?
  take := take
  write := write

instance : LawfulCursor Buffer where
  remaining_eq b := by simp [Cursor.remaining, Cursor.rest]
  next?_nil b h := by
    have := b.position_le
    have ended : b.bytes.size ≤ b.position := by
      simpa [Cursor.rest, List.drop_eq_nil_iff] using h
    simp [Cursor.next?, Buffer.next?, show ¬ b.position < b.bytes.size by omega]
  next?_cons b x bs h := by
    have inside : b.position < b.bytes.toList.length := by
      refine Nat.lt_of_not_le fun le => ?_
      simp [Cursor.rest, List.drop_eq_nil_of_le le] at h
    simp only [Cursor.rest, List.drop_eq_getElem_cons inside, List.cons.injEq] at h
    have here : b.position < b.bytes.size := by simpa using inside
    refine ⟨⟨b.bytes, b.position + 1, here⟩, ?_, h.2⟩
    simp only [Cursor.next?, Buffer.next?, here, dite_true, Option.some.injEq, Prod.mk.injEq, and_true]
    simpa using h.1
  take_short b size h := by
    have := b.position_le
    simp only [Cursor.rest, List.length_drop, Array.length_toList] at h
    simp [Cursor.take, Buffer.take, show ¬ b.position + size ≤ b.bytes.size by omega]
  take_enough b size h := by
    have := b.position_le
    simp only [Cursor.rest, List.length_drop, Array.length_toList] at h
    have enough : b.position + size ≤ b.bytes.size := by omega
    refine ⟨⟨b.bytes, b.position + size, enough⟩, ?_, ?_⟩
    · simp [Cursor.take, Buffer.take, enough, Cursor.rest, List.extract_eq_take_drop]
    · simp [Cursor.rest, List.drop_drop]

/-- Splits off the next `size` bytes as a buffer of its own. -/
def split (size : Nat) (b : Buffer) : Buffer × Buffer :=
  match b.take size with
  | (bytes, b) => (ofBytes bytes, b)

end Buffer

end WasmMachine

import WasmMachine.Binary.Cursor

/-! The reversed cursor: bytes that are read back from the end last written to. Each written unit
is stored back to front, so that reading it gives its bytes in their own order again. -/

namespace WasmMachine

structure ByteStack where
  /-- The stored bytes, the top of the stack last. -/
  stored : Array UInt8 := #[]
  deriving DecidableEq, Repr

namespace ByteStack

def empty : ByteStack := ⟨#[]⟩

def size (s : ByteStack) : Nat := s.stored.size

def next? (s : ByteStack) : Option (UInt8 × ByteStack) :=
  match s.stored.back? with
  | some b => some (b, ⟨s.stored.pop⟩)
  | none => none

def take (size : Nat) (s : ByteStack) : List UInt8 × ByteStack :=
  if s.stored.size < size then ([], s)
  else
    ((s.stored.extract (s.stored.size - size) s.stored.size).toList.reverse,
      ⟨s.stored.extract 0 (s.stored.size - size)⟩)

def write (new : List UInt8) (s : ByteStack) : ByteStack := ⟨s.stored ++ new.reverse.toArray⟩

/-- All bytes, the top of the stack first. -/
def toList (s : ByteStack) : List UInt8 := s.stored.toList.reverse

instance : Cursor ByteStack where
  rest := toList
  remaining := size
  next? := next?
  take := take
  write := write

instance : LawfulCursor ByteStack where
  remaining_eq s := by simp [Cursor.remaining, Cursor.rest, size, toList]
  next?_nil s h := by
    have none : s.stored = #[] := by simpa [Cursor.rest, toList] using h
    simp [Cursor.next?, next?, none]
  next?_cons s b bs h := by
    have stored : s.stored = bs.reverse.toArray.push b := by
      apply Array.toList_inj.mp
      have := congrArg List.reverse (show s.stored.toList.reverse = b :: bs from h)
      simpa using this
    refine ⟨⟨bs.reverse.toArray⟩, ?_, ?_⟩
    · simp [Cursor.next?, next?, stored]
    · simp [Cursor.rest, toList]
  take_short s size h := by
    have short : s.stored.size < size := by simpa [Cursor.rest, toList] using h
    simp [Cursor.take, take, short]
  take_enough s size h := by
    have enough : size ≤ s.stored.size := by simpa [Cursor.rest, toList] using h
    refine ⟨⟨s.stored.extract 0 (s.stored.size - size)⟩, ?_, ?_⟩
    · simp only [Cursor.take, take, Nat.not_lt.mpr enough, if_false, Cursor.rest, toList]
      simp only [Array.toList_extract, List.take_reverse, List.extract_eq_take_drop, Array.length_toList,
        Prod.mk.injEq, and_true]
      rw [List.take_of_length_le (by simp)]
    · simp [Cursor.rest, toList, List.drop_reverse]

end ByteStack

end WasmMachine

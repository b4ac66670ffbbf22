import WasmMachine.Binary.DecodeError

/-! Byte cursors: one interface for everything that bytes are read from and written to.

A reader is written once, against the interface, and runs on every cursor. The view `rest` lists
the bytes still to be read; `LawfulCursor` says that each operation is determined by that list.
The list of bytes is itself the simplest cursor. A reader keeps its cursor when it fails, because
how far a failed read came can be observed. -/

namespace WasmMachine

class Cursor (σ : Type) where
  /-- The bytes not yet read, the next one first. -/
  rest : σ → List UInt8
  /-- How many bytes are left to read. -/
  remaining : σ → Nat
  /-- The next byte and the cursor behind it. -/
  next? : σ → Option (UInt8 × σ)
  /-- The next `size` bytes. When fewer are left nothing is read and the answer is empty. -/
  take : Nat → σ → List UInt8 × σ
  /-- Puts bytes at the cursor as one unit. -/
  write : List UInt8 → σ → σ

class LawfulCursor (σ : Type) [Cursor σ] : Prop where
  remaining_eq (c : σ) : Cursor.remaining c = (Cursor.rest c).length
  next?_nil (c : σ) : Cursor.rest c = [] → Cursor.next? c = none
  next?_cons (c : σ) (b : UInt8) (bs : List UInt8) : Cursor.rest c = b :: bs →
    ∃ c', Cursor.next? c = some (b, c') ∧ Cursor.rest c' = bs
  take_short (c : σ) (size : Nat) : (Cursor.rest c).length < size → Cursor.take size c = ([], c)
  take_enough (c : σ) (size : Nat) : size ≤ (Cursor.rest c).length →
    ∃ c', Cursor.take size c = ((Cursor.rest c).take size, c') ∧
      Cursor.rest c' = (Cursor.rest c).drop size

/-- Reading from a cursor; a failed read leaves the cursor where it came to. -/
abbrev Reader (σ α : Type) := EStateM DecodeError σ α

instance : Cursor (List UInt8) where
  rest := id
  remaining := List.length
  next?
    | [] => none
    | b :: bs => some (b, bs)
  take size bytes := if bytes.length < size then ([], bytes) else (bytes.take size, bytes.drop size)
  write new bytes := new ++ bytes

instance : LawfulCursor (List UInt8) where
  remaining_eq _ := rfl
  next?_nil c h := by cases (show c = [] from h); rfl
  next?_cons c b bs h := by cases (show c = b :: bs from h); exact ⟨bs, rfl, rfl⟩
  take_short c size h := by simp [Cursor.take, show c.length < size from h]
  take_enough c size h := by
    have enough : ¬ c.length < size := Nat.not_lt.mpr h
    exact ⟨c.drop size, by simp [Cursor.take, enough, Cursor.rest], rfl⟩

namespace Reader

variable {σ α : Type} [Cursor σ]

/-- How many bytes are left. -/
def remaining : Reader σ Nat := fun c => .ok (Cursor.remaining c) c

def atEnd : Reader σ Bool := fun c => .ok (Cursor.remaining c == 0) c

def byte? : Reader σ (Option UInt8) := fun c =>
  match Cursor.next? c with
  | some (b, c) => .ok (some b) c
  | none => .ok none c

def byte : Reader σ UInt8 := fun c =>
  match Cursor.next? c with
  | some (b, c) => .ok b c
  | none => .error .unexpectedEof c

/-- The next `size` bytes, or nothing at all when fewer are left. -/
def bytes (size : Nat) : Reader σ (List UInt8) := fun c =>
  match Cursor.take size c with
  | (bs, c) => .ok bs c

/-- The next `size` bytes; having fewer is an error and reads none. -/
def exactly (size : Nat) : Reader σ (List UInt8) := fun c =>
  if size = 0 then .ok [] c
  else
    match Cursor.take size c with
    | (bs, c) => if bs.length = size then .ok bs c else .error .unexpectedEof c

/-- Reads the same kind of item a given number of times. -/
def repeated (item : Reader σ α) : Nat → Reader σ (List α)
  | 0 => pure []
  | count + 1 => do
    let first ← item
    let others ← repeated item count
    return first :: others

end Reader

/-- Writes each unit in turn. -/
def Cursor.writeAll {σ : Type} [Cursor σ] (units : List (List UInt8)) (c : σ) : σ :=
  units.foldl (fun c unit => Cursor.write unit c) c

end WasmMachine

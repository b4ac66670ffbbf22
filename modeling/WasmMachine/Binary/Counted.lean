import WasmMachine.Binary.Leb128

/-! Counted sequences: vectors, byte strings and names. Each is its length as an unsigned
LEB128 integer and then its items. What is written is a list of units, because a cursor that
stores units back to front shows where one write ends and the next begins. -/

namespace WasmMachine.Counted

variable {σ α : Type} [Cursor σ]

/-- A length, and that many items. -/
def read (item : Reader σ α) : Reader σ (List α) := do
  let count ← Leb128.readU32
  Reader.repeated item count.toNat

def readBytes : Reader σ (List UInt8) := do
  let size ← Leb128.readU32
  Reader.exactly size.toNat

/-- A byte string that must be well-formed UTF-8. -/
def readName : Reader σ String := do
  let bytes ← readBytes
  match String.fromUTF8? ⟨bytes.toArray⟩ with
  | some name => return name
  | none => throw .invalidUtf8

def length (count : Nat) : List UInt8 := Leb128.encodeU32 (UInt32.ofNat count)

/-- The units of a vector whose items are written by `item`. -/
def units (item : α → List (List UInt8)) (items : List α) : List (List UInt8) :=
  length items.length :: items.flatMap item

def bytesUnits (bytes : List UInt8) : List (List UInt8) := [length bytes.length, bytes]

def nameUnits (name : String) : List (List UInt8) := bytesUnits name.toUTF8.toList

/-- The bytes of a vector whose items are written by `item`. -/
def encode (item : α → List UInt8) (items : List α) : List UInt8 :=
  length items.length ++ items.flatMap item

def encodeBytes (bytes : List UInt8) : List UInt8 := length bytes.length ++ bytes

def encodeName (name : String) : List UInt8 := encodeBytes name.toUTF8.toList

end WasmMachine.Counted

import WasmMachine.Binary.Buffer
import WasmMachine.Binary.ByteStack
import WasmMachine.Proofs.ReaderParts
import WasmMachine.Proofs.Sequencing

/-! Cursors that hold the same bytes are read alike. A buffer holds them behind its position, a stack back to front;
readers see neither, because all that they do to a cursor is determined by the bytes that are left. This is said of two
cursors of any kind and carried through everything that is read, failed reads included. -/

namespace WasmMachine.Proofs.CursorAgreement
open Sequencing ReaderParts

variable {σ τ α β : Type} [Cursor σ] [Cursor τ]

/-- The same bytes are left to be read. -/
def SameRest (c : σ) (d : τ) : Prop := Cursor.rest c = Cursor.rest d

/-- From the same bytes, both readers give the same value or the same error, and leave the same bytes. -/
def Alike (r : Reader σ α) (g : Reader τ α) : Prop := ∀ c d, SameRest c d → SameOutcome SameRest (r c) (g d)

namespace Alike

theorem pure (a : α) : Alike (Pure.pure a : Reader σ α) (Pure.pure a : Reader τ α) := fun _ _ same => .ok same

theorem throw (e : DecodeError) : Alike (throw e : Reader σ α) (throw e : Reader τ α) := fun _ _ same => .error same

theorem bind {r : Reader σ α} {g : Reader τ α} {next : α → Reader σ β} {others : α → Reader τ β} (head : Alike r g)
    (tail : ∀ a, Alike (next a) (others a)) : Alike (r >>= next) (g >>= others) := by
  intro c d same
  have outcome := head c d same
  generalize first : r c = left at outcome
  generalize second : g d = right at outcome
  cases outcome with
  | ok states =>
    rw [bind_of_ok first, bind_of_ok second]
    exact tail _ _ _ states
  | error states =>
    rw [bind_of_error first, bind_of_error second]
    exact .error states

end Alike

section Primitives

variable [LawfulCursor σ] [LawfulCursor τ]

theorem remaining_alike : Alike (Reader.remaining : Reader σ Nat) (Reader.remaining : Reader τ Nat) := by
  intro c d same
  have count : Cursor.remaining c = Cursor.remaining d := by
    rw [LawfulCursor.remaining_eq, LawfulCursor.remaining_eq, same]
  simp only [Reader.remaining, count]
  exact .ok same

theorem atEnd_alike : Alike (Reader.atEnd : Reader σ Bool) (Reader.atEnd : Reader τ Bool) :=
  remaining_alike.bind fun left => .pure (left == 0)

/-- Both cursors are at their end, or both give the same byte. -/
theorem next?_alike {c : σ} {d : τ} (same : SameRest c d) :
    (Cursor.next? c = none ∧ Cursor.next? d = none) ∨
      ∃ b c' d', Cursor.next? c = some (b, c') ∧ Cursor.next? d = some (b, d') ∧ SameRest c' d' := by
  cases left : Cursor.rest c with
  | nil => exact .inl ⟨LawfulCursor.next?_nil c left, LawfulCursor.next?_nil d (same.symm.trans left)⟩
  | cons b others =>
    obtain ⟨c', first, rest⟩ := LawfulCursor.next?_cons c b others left
    obtain ⟨d', second, otherRest⟩ := LawfulCursor.next?_cons d b others (same.symm.trans left)
    exact .inr ⟨b, c', d', first, second, rest.trans otherRest.symm⟩

theorem byte?_alike : Alike (Reader.byte? : Reader σ _) (Reader.byte? : Reader τ _) := by
  intro c d same
  rcases next?_alike same with ⟨first, second⟩ | ⟨b, c', d', first, second, left⟩
  · simp only [Reader.byte?, first, second]
    exact .ok same
  · simp only [Reader.byte?, first, second]
    exact .ok left

theorem byte_alike : Alike (Reader.byte : Reader σ _) (Reader.byte : Reader τ _) := by
  intro c d same
  rcases next?_alike same with ⟨first, second⟩ | ⟨b, c', d', first, second, left⟩
  · simp only [Reader.byte, first, second]
    exact .error same
  · simp only [Reader.byte, first, second]
    exact .ok left

theorem take_alike (size : Nat) {c : σ} {d : τ} (same : SameRest c d) :
    ∃ bytes c' d', Cursor.take size c = (bytes, c') ∧ Cursor.take size d = (bytes, d') ∧ SameRest c' d' := by
  by_cases short : (Cursor.rest c).length < size
  · exact ⟨[], c, d, LawfulCursor.take_short c size short, LawfulCursor.take_short d size (same ▸ short), same⟩
  · have enough := Nat.le_of_not_lt short
    obtain ⟨c', first, rest⟩ := LawfulCursor.take_enough c size enough
    obtain ⟨d', second, otherRest⟩ := LawfulCursor.take_enough d size (same ▸ enough)
    refine ⟨_, c', d', first, ?_, ?_⟩
    · rw [second, same]
    · rw [SameRest, rest, otherRest, same]

theorem bytes_alike (size : Nat) : Alike (Reader.bytes size : Reader σ _) (Reader.bytes size : Reader τ _) := by
  intro c d same
  obtain ⟨bytes, c', d', first, second, left⟩ := take_alike size same
  simp only [Reader.bytes, first, second]
  exact .ok left

theorem exactly_alike (size : Nat) : Alike (Reader.exactly size : Reader σ _) (Reader.exactly size : Reader τ _) := by
  intro c d same
  obtain ⟨bytes, c', d', first, second, left⟩ := take_alike size same
  simp only [Reader.exactly, first, second]
  split
  · exact .ok same
  · split
    · exact .ok left
    · exact .error left

end Primitives

section Formats

variable [LawfulCursor σ] [LawfulCursor τ]

theorem alike_law : ReaderLaw (σ := σ) (τ := τ) Alike := ⟨.pure, .throw, .bind, byte_alike⟩

theorem byteString_alike : Alike (Counted.readBytes : Reader σ _) (Counted.readBytes : Reader τ _) :=
  alike_law.u32.bind fun size => exactly_alike size.toNat

theorem name_alike : Alike (Counted.readName : Reader σ _) (Counted.readName : Reader τ _) := by
  apply byteString_alike.bind
  intro bytes
  cases String.fromUTF8? ⟨bytes.toArray⟩ with
  | some name => exact .pure name
  | none => exact .throw _

/-- Both readers recurse alike, on the nested sequences and on the rest of the sequence. -/
theorem readFrom_alike (fuel depth : Nat) :
    Alike (Code.readFrom fuel depth : Reader σ _) (Code.readFrom fuel depth : Reader τ _) := by
  have alike := alike_law.readFrom (σ := σ) (τ := τ) 0 (fun _ => .throw _) fuel depth
  rwa [Nat.zero_add] at alike

theorem sequence_alike : Alike (Code.readSequence : Reader σ _) (Code.readSequence : Reader τ _) :=
  remaining_alike.bind fun fuel => readFrom_alike fuel 0

theorem instruction_alike (opcode : UInt8) :
    Alike (Instruction.read opcode : Reader σ _) (Instruction.read opcode : Reader τ _) :=
  remaining_alike.bind fun fuel => alike_law.readWith (readFrom_alike fuel 1) 0 opcode

end Formats

/-- All that is read, is read alike from the two kinds of cursor. -/
structure ReadAlike (σ τ : Type) [Cursor σ] [Cursor τ] : Prop where
  remaining : Alike (Reader.remaining : Reader σ _) (Reader.remaining : Reader τ _)
  atEnd : Alike (Reader.atEnd : Reader σ _) (Reader.atEnd : Reader τ _)
  byte? : Alike (Reader.byte? : Reader σ _) (Reader.byte? : Reader τ _)
  byte : Alike (Reader.byte : Reader σ _) (Reader.byte : Reader τ _)
  bytes : ∀ size, Alike (Reader.bytes size : Reader σ _) (Reader.bytes size : Reader τ _)
  exactly : ∀ size, Alike (Reader.exactly size : Reader σ _) (Reader.exactly size : Reader τ _)
  unsigned : Alike (Leb128.readU32 : Reader σ _) (Leb128.readU32 : Reader τ _)
  signed : Alike (Leb128.readS32 : Reader σ _) (Leb128.readS32 : Reader τ _)
  vector : ∀ (α : Type) (r : Reader σ α) (g : Reader τ α), Alike r g → Alike (Counted.read r) (Counted.read g)
  byteString : Alike (Counted.readBytes : Reader σ _) (Counted.readBytes : Reader τ _)
  name : Alike (Counted.readName : Reader σ _) (Counted.readName : Reader τ _)
  code : Alike (Code.read : Reader σ _) (Code.read : Reader τ _)
  sequence : Alike (Code.readSequence : Reader σ _) (Code.readSequence : Reader τ _)
  instruction : ∀ opcode, Alike (Instruction.read opcode : Reader σ _) (Instruction.read opcode : Reader τ _)

theorem readAlike_of_lawful (σ τ : Type) [Cursor σ] [Cursor τ] [LawfulCursor σ] [LawfulCursor τ] : ReadAlike σ τ where
  remaining := remaining_alike
  atEnd := atEnd_alike
  byte? := byte?_alike
  byte := byte_alike
  bytes := bytes_alike
  exactly := exactly_alike
  unsigned := alike_law.u32
  signed := alike_law.s32
  vector _ _ _ item := alike_law.vector item
  byteString := byteString_alike
  name := name_alike
  code := alike_law.closed sequence_alike
  sequence := sequence_alike
  instruction := instruction_alike

/-- A single byte as the first one of a string of length one. -/
def firstOfOne : Reader σ (Option UInt8) := do return (← Reader.bytes 1).head?

theorem sameRest_iff (b : Buffer) (s : ByteStack) :
    SameRest b s ↔ s.stored.toList = (b.bytes.toList.drop b.position).reverse := by
  constructor
  · intro same
    have left : b.bytes.toList.drop b.position = s.stored.toList.reverse := same
    rw [left, List.reverse_reverse]
  · intro stored
    change b.bytes.toList.drop b.position = s.stored.toList.reverse
    rw [stored, List.reverse_reverse]

theorem byte?_of_next {c c' : σ} {b : UInt8} (found : Cursor.next? c = some (b, c')) (taken : Cursor.take 1 c = ([b], c')) :
    Reader.byte? c = firstOfOne c := by
  have one : Reader.bytes 1 c = .ok [b] c' := by simp only [Reader.bytes, taken]
  rw [firstOfOne, bind_of_ok one]
  simp only [Reader.byte?, found]
  rfl

theorem byte?_at_end [LawfulCursor σ] {c : σ} (ended : Cursor.rest c = []) : Reader.byte? c = firstOfOne c := by
  have found := LawfulCursor.next?_nil c ended
  have taken := LawfulCursor.take_short c 1 (by simp [ended])
  have one : Reader.bytes 1 c = .ok [] c := by simp only [Reader.bytes, taken]
  rw [firstOfOne, bind_of_ok one]
  simp only [Reader.byte?, found]
  rfl

theorem buffer_byte? (b : Buffer) : Reader.byte? b = firstOfOne b := by
  by_cases inside : b.position < b.bytes.size
  · have found : Cursor.next? b = some (b.bytes[b.position], ⟨b.bytes, b.position + 1, inside⟩) := by
      simp only [Cursor.next?, Buffer.next?, inside, dite_true]
    have one : b.bytes.extract b.position (b.position + 1) = #[b.bytes[b.position]] := by
      have none : b.bytes.extract b.position b.position = #[] :=
        Array.extract_empty_of_stop_le_start (Nat.le_refl _)
      rw [Array.extract_succ_right (Nat.lt_succ_self _) inside, none]
      rfl
    have taken : Cursor.take 1 b = ([b.bytes[b.position]], ⟨b.bytes, b.position + 1, inside⟩) := by
      simp only [Cursor.take, Buffer.take, Nat.succ_le_of_lt inside, dite_true, one]
    exact byte?_of_next found taken
  · exact byte?_at_end (List.drop_eq_nil_of_le (by simpa using inside))

theorem stack_byte? (s : ByteStack) : Reader.byte? s = firstOfOne s := by
  by_cases empty : s.stored = #[]
  · exact byte?_at_end (by simp [Cursor.rest, ByteStack.toList, empty])
  · obtain ⟨others, top, pushed⟩ := Array.exists_push_of_ne_empty empty
    have found : Cursor.next? s = some (top, ⟨others⟩) := by
      simp only [Cursor.next?, ByteStack.next?, pushed]
      simp
    have taken : Cursor.take 1 s = ([top], ⟨others⟩) := by
      simp only [Cursor.take, ByteStack.take, pushed]
      simp
    exact byte?_of_next found taken

/-- A buffer and the stack of its remaining bytes back to front are read alike, and stay so whether a read succeeds or
fails; what is read from a buffer depends on its remaining bytes alone; and on both, a single byte is read as the first
one of a string of length one. -/
theorem cursors_read_alike :
    (∀ (b : Buffer) (s : ByteStack), SameRest b s ↔ s.stored.toList = (b.bytes.toList.drop b.position).reverse) ∧
    ReadAlike Buffer ByteStack ∧ ReadAlike Buffer Buffer ∧
    (∀ b : Buffer, Reader.byte? b = firstOfOne b) ∧ (∀ s : ByteStack, Reader.byte? s = firstOfOne s) :=
  ⟨sameRest_iff, readAlike_of_lawful _ _, readAlike_of_lawful _ _, buffer_byte?, stack_byte?⟩

end WasmMachine.Proofs.CursorAgreement

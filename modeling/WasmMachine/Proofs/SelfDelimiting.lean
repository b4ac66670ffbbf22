import WasmMachine.Binary.Buffer
import WasmMachine.Proofs.ReaderParts
import WasmMachine.Proofs.Sequencing

/-! Code says itself where it ends. A reader looks at a byte only when it has come to it, so the bytes behind the last
one that it looked at make no difference, neither to a success nor to a failure. Only where the input ended too early
does reading go on when more follows. -/

namespace WasmMachine.Proofs.SelfDelimiting
open Sequencing ReaderParts

variable {α β : Type} {bytes ext : List UInt8}

/-- Two buffers at the same place, one of them with more bytes behind those of the other. -/
structure Prolonged (bytes ext : List UInt8) (b longer : Buffer) : Prop where
  whole : b.bytes.toList = bytes
  more : longer.bytes.toList = bytes ++ ext
  place : longer.position = b.position

/-- With more bytes behind the input, reading comes to the same end at the same place, unless the input was too short. -/
def ReadsOn (bytes ext : List UInt8) (r g : Reader Buffer α) : Prop :=
  ∀ b longer, Prolonged bytes ext b longer →
    (∃ after, r b = .error .unexpectedEof after) ∨ SameOutcome (Prolonged bytes ext) (r b) (g longer)

theorem readsOn_bind {r g : Reader Buffer α} {next others : α → Reader Buffer β} (head : ReadsOn bytes ext r g)
    (tail : ∀ a, ReadsOn bytes ext (next a) (others a)) : ReadsOn bytes ext (r >>= next) (g >>= others) := by
  intro b longer prolonged
  rcases head b longer prolonged with ⟨after, ended⟩ | same
  · exact .inl ⟨after, bind_of_error ended⟩
  · generalize first : r b = left at same
    generalize second : g longer = right at same
    cases same with
    | ok states =>
      rw [bind_of_ok first, bind_of_ok second]
      exact tail _ _ _ states
    | error states =>
      rw [bind_of_error first, bind_of_error second]
      exact .inr (.error states)

theorem byte_inside {b : Buffer} {x : UInt8} (found : b.bytes.toList[b.position]? = some x) :
    ∃ after : Buffer, Reader.byte b = .ok x after ∧ after.bytes = b.bytes ∧ after.position = b.position + 1 := by
  obtain ⟨inside, rfl⟩ := List.getElem?_eq_some_iff.mp found
  have next : Cursor.next? b = some (b.bytes[b.position], ⟨b.bytes, b.position + 1, inside⟩) := by
    simp only [Cursor.next?, Buffer.next?, show b.position < b.bytes.size from inside, dite_true]
  refine ⟨⟨b.bytes, b.position + 1, inside⟩, ?_, rfl, rfl⟩
  simp only [Reader.byte, next]
  rfl

theorem byte_at_end {b : Buffer} (ended : b.bytes.toList[b.position]? = none) :
    Reader.byte b = .error .unexpectedEof b := by
  have outside : ¬ b.position < b.bytes.size := Nat.not_lt.mpr (List.getElem?_eq_none_iff.mp ended)
  have none : Cursor.next? b = none := by simp only [Cursor.next?, Buffer.next?, outside, dite_false]
  simp only [Reader.byte, none]

theorem readsOn_byte : ReadsOn bytes ext Reader.byte Reader.byte := by
  intro b longer prolonged
  cases here : b.bytes.toList[b.position]? with
  | none => exact .inl ⟨b, byte_at_end here⟩
  | some x =>
    have there : longer.bytes.toList[longer.position]? = some x := by
      obtain ⟨inside, _⟩ := List.getElem?_eq_some_iff.mp here
      rw [prolonged.more, prolonged.place, ← prolonged.whole, List.getElem?_append_left inside, here]
    obtain ⟨after, first, same, place⟩ := byte_inside here
    obtain ⟨longerAfter, second, sameLonger, placeLonger⟩ := byte_inside there
    rw [first, second]
    refine .inr (.ok ⟨?_, ?_, ?_⟩)
    · rw [same, prolonged.whole]
    · rw [sameLonger, prolonged.more]
    · rw [placeLonger, place, prolonged.place]

theorem readsOn_law (bytes ext : List UInt8) : ReaderLaw (ReadsOn bytes ext) where
  pure _ _ _ prolonged := .inr (.ok prolonged)
  throw _ _ _ prolonged := .inr (.error prolonged)
  bind := readsOn_bind
  byte := readsOn_byte

/-- The longer input gives the reader more fuel, but the shorter one lacks fuel only where it lacks a byte. -/
theorem readsOn_code : ReadsOn bytes ext Code.read Code.read := by
  intro b longer prolonged
  have law := readsOn_law bytes ext
  have out (depth : Nat) : ReadsOn bytes ext (Code.readFrom 0 depth) (Code.readFrom ext.length depth) :=
    fun b _ _ => .inl ⟨b, rfl⟩
  have outcome := law.closed (law.readFrom ext.length out (Cursor.remaining b) 0) b longer prolonged
  have fuel : ext.length + Cursor.remaining b = Cursor.remaining longer := by
    have sizes : longer.bytes.size = b.bytes.size + ext.length := by
      rw [← Array.length_toList, prolonged.more, List.length_append, ← prolonged.whole, Array.length_toList]
    have inside := b.position_le
    change ext.length + (b.bytes.size - b.position) = longer.bytes.size - longer.position
    rw [sizes, prolonged.place]
    omega
  rw [fuel] at outcome
  exact outcome

/-- What the bytes are read as, and how many of them are taken for it. -/
def reading (bytes : List UInt8) : Except DecodeError Code × Nat :=
  match Code.read (Buffer.ofBytes bytes) with
  | .ok code after => (.ok code, after.position)
  | .error e after => (.error e, after.position)

/-- The input was too short, or it is read the same with more behind it and no more of it is taken than there is. -/
theorem reading_append (bytes ext : List UInt8) : (reading bytes).1 = .error .unexpectedEof ∨
    (reading (bytes ++ ext) = reading bytes ∧ (reading bytes).2 ≤ bytes.length) := by
  have start : Prolonged bytes ext (Buffer.ofBytes bytes) (Buffer.ofBytes (bytes ++ ext)) := ⟨rfl, rfl, rfl⟩
  rcases readsOn_code _ _ start with ⟨after, ended⟩ | same
  · exact .inl (by simp only [reading, ended])
  · have taken {after longer : Buffer} (states : Prolonged bytes ext after longer) : after.position ≤ bytes.length := by
      rw [← states.whole, Array.length_toList]
      exact after.position_le
    right
    unfold reading
    generalize Code.read (Buffer.ofBytes bytes) = outcome at same ⊢
    generalize Code.read (Buffer.ofBytes (bytes ++ ext)) = longer at same ⊢
    cases same with
    | ok states => exact ⟨congrArg (Prod.mk _) states.place, taken states⟩
    | error states => exact ⟨congrArg (Prod.mk _) states.place, taken states⟩

/-- Code is read the same whatever follows it, and so is what is no code, unless the input is too short. Hence all of
what is taken for code is needed for it, and no code is the beginning of another. -/
theorem code_self_delimiting :
    (∀ bytes ext, (reading bytes).1 ≠ .error .unexpectedEof → reading (bytes ++ ext) = reading bytes) ∧
    (∀ bytes code taken, reading bytes = (.ok code, taken) →
      taken ≤ bytes.length ∧ ∀ n < taken, (reading (bytes.take n)).1 = .error .unexpectedEof) ∧
    (∀ bytes longer code other, reading bytes = (.ok code, bytes.length) →
      reading longer = (.ok other, longer.length) → bytes <+: longer → bytes = longer) := by
  have steady (bytes ext : List UInt8) (complete : (reading bytes).1 ≠ .error .unexpectedEof) :=
    (reading_append bytes ext).resolve_left complete
  have complete {bytes : List UInt8} {code : Code} {taken : Nat} (read : reading bytes = (.ok code, taken)) :
      (reading bytes).1 ≠ .error .unexpectedEof := by
    rw [read]
    exact nofun
  refine ⟨fun bytes ext complete => (steady bytes ext complete).1, ?_, ?_⟩
  · intro bytes code taken read
    have bound := (steady bytes [] (complete read)).2
    rw [read] at bound
    refine ⟨bound, ?_⟩
    intro n less
    refine (reading_append (bytes.take n) (bytes.drop n)).resolve_right ?_
    -- A part that is complete would be read as the whole is, although there is less of it than is taken.
    rintro ⟨same, part⟩
    rw [List.take_append_drop, read] at same
    rw [← same, List.length_take] at part
    exact absurd (Nat.le_trans part (Nat.min_le_left _ _)) (Nat.not_le.mpr less)
  · intro bytes longer code other read readLonger beginning
    obtain ⟨ext, rfl⟩ := beginning
    have same := (steady bytes ext (complete read)).1
    rw [read, readLonger] at same
    have lengths : (bytes ++ ext).length = bytes.length := congrArg Prod.snd same
    rw [List.length_append] at lengths
    rw [List.eq_nil_of_length_eq_zero (Nat.add_eq_left.mp lengths), List.append_nil]

/-- A block with a branch table, its end, and a byte that is no instruction. -/
def blockAndMore : List UInt8 := [0x02, 0x40, 0x0e, 0x01, 0x00, 0x00, 0x0b, 0x0b, 0xff]

theorem blockAndMore_delimited :
    reading blockAndMore = (.ok (.block .empty (.op (.brTable [0] 0) .nil) .nil), 8) ∧
    (∀ n < 8, (reading (blockAndMore.take n)).1 = .error .unexpectedEof) ∧
    ∀ ext, reading ([0x02, 0x40, 0xff] ++ ext) = (.error (.invalidOpcode 0xff), 3) := by
  obtain ⟨steady, needed, _⟩ := code_self_delimiting
  have read : reading blockAndMore = (.ok (.block .empty (.op (.brTable [0] 0) .nil) .nil), 8) := rfl
  have refused : reading [0x02, 0x40, 0xff] = (.error (.invalidOpcode 0xff), 3) := rfl
  refine ⟨read, (needed blockAndMore _ 8 read).2, ?_⟩
  intro ext
  rw [steady [0x02, 0x40, 0xff] ext (by rw [refused]; exact nofun), refused]

end WasmMachine.Proofs.SelfDelimiting

import WasmMachine.Proofs.Leb128Codec

/-! Vectors, byte strings, names and contents that are cut out by their size are read back, whenever what they
hold is. The length in front is what limits them: it must fit into 32 bits, and it takes no more bytes for a
shorter whole. -/

namespace WasmMachine.Proofs.CountedCodec
open Sequencing ByteCodec Leb128Codec Leb128

variable {α : Type}

theorem ofNat_toNat_of_short {count : Nat} (short : count < UInt32.size) : (UInt32.ofNat count).toNat = count :=
  Nat.mod_eq_of_lt short

/-- As many items as can be counted are read back, if each of them is. -/
theorem vector_reads {read : Reader (List UInt8) α} {encode : α → List UInt8} {items : List α}
    (few : items.length < UInt32.size) (each : ∀ a ∈ items, Reads read (encode a) a) :
    Reads (Counted.read read) (Counted.encode encode items) items := by
  apply Reads.bind (u32_reads _)
  rw [ofNat_toNat_of_short few]
  exact Reads.repeated each

theorem vector {read : Reader (List UInt8) α} {encode : α → List UInt8} {proper : α → Prop}
    (codec : Codec read encode proper) (positive : ∀ a, 0 < (encode a).length) :
    Codec (Counted.read read) (Counted.encode encode) (fun items => ∀ a ∈ items, proper a) where
  reads items good short := by
    have bytes : (Counted.encode encode items).length = _ := List.length_append
    have fewer := Codec.length_le_flatMap positive items
    exact vector_reads (by omega) (codec.each_reads good (by omega))
  image before items after outcome := by
    obtain ⟨count, between, head, tail⟩ := bind_eq_ok outcome
    obtain ⟨_, bound⟩ := u32.image before count between head
    obtain ⟨counted, good, boundItems⟩ := codec.repeated_image count.toNat between items after tail
    refine ⟨good, ?_⟩
    rw [Counted.encode, List.length_append, Counted.length, counted, UInt32.ofNat_toNat]
    omega

theorem exactly_reads (bytes : List UInt8) : Reads (Reader.exactly bytes.length) bytes bytes := by
  intro rest
  unfold Reader.exactly
  by_cases none : bytes.length = 0
  · obtain rfl := List.eq_nil_of_length_eq_zero none
    rfl
  · have enough : ¬ (bytes ++ rest).length < bytes.length := by simp
    simp only [none, if_false, Cursor.take, enough]
    simp

theorem exactly_image {size : Nat} {before bytes after : List UInt8}
    (outcome : Reader.exactly size before = .ok bytes after) : bytes.length = size ∧ before = bytes ++ after := by
  unfold Reader.exactly at outcome
  by_cases none : size = 0
  · simp only [none, if_true] at outcome
    cases outcome
    exact ⟨none.symm, rfl⟩
  · by_cases short : before.length < size
    · simp only [none, if_false, Cursor.take, short, if_true, List.length_nil, Ne.symm none] at outcome
      cases outcome
    · have whole : (before.take size).length = size := by simp; omega
      simp only [none, if_false, Cursor.take, short, whole, if_true] at outcome
      cases outcome
      exact ⟨whole, (List.take_append_drop size before).symm⟩

theorem bytes : Codec Counted.readBytes Counted.encodeBytes (fun _ => True) where
  reads bytes _ short := by
    have length : (Counted.encodeBytes bytes).length = _ := List.length_append
    have few : bytes.length < UInt32.size := by omega
    apply Reads.bind (u32_reads _)
    rw [ofNat_toNat_of_short few]
    exact exactly_reads bytes
  image before bytes after outcome := by
    obtain ⟨size, between, head, tail⟩ := bind_eq_ok outcome
    obtain ⟨_, bound⟩ := u32.image before size between head
    obtain ⟨length, rfl⟩ := exactly_image tail
    refine ⟨trivial, ?_⟩
    rw [Counted.encodeBytes, List.length_append, Counted.length, length, UInt32.ofNat_toNat]
    rw [List.length_append] at bound
    omega

private theorem toList_loop (b : ByteArray) (i : Nat) (seen : List UInt8) :
    ByteArray.toList.loop b i seen = seen.reverse ++ b.data.toList.drop i := by
  fun_induction ByteArray.toList.loop b i seen with
  | case1 i seen inside ih =>
    have within : i < b.data.toList.length := by simpa using inside
    have byte : b.get! i = b.data.toList[i] := (getElem!_pos b.data i inside).trans (Array.getElem_toList _).symm
    rw [ih, List.drop_eq_getElem_cons within, byte]
    simp
  | case2 i seen outside =>
    rw [List.drop_eq_nil_of_le (by simpa using Nat.le_of_not_lt outside), List.append_nil]

theorem ofList_toList (b : ByteArray) : ByteArray.mk b.toList.toArray = b := by
  rw [ByteArray.toList, toList_loop]
  rfl

theorem toList_ofList (bytes : List UInt8) : (ByteArray.mk bytes.toArray).toList = bytes := by
  rw [ByteArray.toList, toList_loop]
  rfl

theorem fromUTF8?_eq_some {b : ByteArray} {name : String} : String.fromUTF8? b = some name ↔ name.toUTF8 = b := by
  unfold String.fromUTF8?
  constructor
  · intro found
    split at found
    · cases found
      rfl
    · cases found
  · rintro rfl
    exact (dif_pos name.isValidUTF8).trans rfl

theorem name : Codec Counted.readName Counted.encodeName (fun _ => True) where
  reads name _ short := by
    intro rest
    refine (bind_of_ok (bytes.reads _ trivial short rest)).trans ?_
    rw [ofList_toList, fromUTF8?_eq_some.mpr rfl]
    rfl
  image before name after outcome := by
    obtain ⟨read, between, head, tail⟩ := bind_eq_ok outcome
    obtain ⟨_, bound⟩ := bytes.image before read between head
    cases found : String.fromUTF8? (ByteArray.mk read.toArray) with
    | none =>
      rw [found] at tail
      cases tail
    | some known =>
      rw [found] at tail
      obtain ⟨rfl, rfl⟩ := pure_eq_ok tail
      refine ⟨trivial, ?_⟩
      rw [Counted.encodeName, fromUTF8?_eq_some.mp found, toList_ofList]
      exact bound

/-- Refuses to leave anything behind what is read. -/
def readAll (read : Reader (List UInt8) α) (refused : Nat → DecodeError) : Reader (List UInt8) α := do
  let a ← read
  let left ← Reader.remaining
  if left ≠ 0 then throw (refused left)
  return a

theorem readAll_of_nil {read : Reader (List UInt8) α} {bytes : List UInt8} {a : α} (outcome : read bytes = .ok a [])
    (refused : Nat → DecodeError) : readAll read refused bytes = .ok a [] :=
  (bind_of_ok outcome).trans rfl

theorem readAll_eq_ok {read : Reader (List UInt8) α} {refused : Nat → DecodeError} {bytes after : List UInt8} {a : α}
    (outcome : readAll read refused bytes = .ok a after) : read bytes = .ok a [] := by
  obtain ⟨b, between, head, tail⟩ := bind_eq_ok outcome
  cases between with
  | cons byte others => cases tail
  | nil =>
    cases tail
    exact head

def readSized (contents : Reader (List UInt8) α) (refused : UInt32 → Nat → DecodeError) : Reader (List UInt8) α := do
  let size ← readU32
  let left ← Reader.remaining
  if left < size.toNat then throw (refused size left)
  let bytes ← Reader.bytes size.toNat
  Reader.within contents bytes

theorem readSized_eq_ok {contents : Reader (List UInt8) α} {refused : UInt32 → Nat → DecodeError}
    {before after : List UInt8} {a : α} (outcome : readSized contents refused before = .ok a after) :
    ∃ size between last, readU32 before = .ok size between ∧ size.toNat ≤ between.length ∧
      contents (between.take size.toNat) = .ok a last ∧ after = between.drop size.toNat := by
  obtain ⟨size, between, head, tail⟩ := bind_eq_ok outcome
  have tail := (bind_of_ok (remaining_eq between)).symm.trans tail
  by_cases short : between.length < size.toNat
  · simp only [short, if_true] at tail
    cases tail
  · simp only [short, if_false] at tail
    have cut : Reader.bytes size.toNat between = .ok (between.take size.toNat) (between.drop size.toNat) := by
      simp only [Reader.bytes, Cursor.take, short, if_false]
    have tail := (bind_of_ok cut).symm.trans tail
    cases inner : contents (between.take size.toNat) with
    | error e last =>
      simp only [Reader.within, inner] at tail
      cases tail
    | ok b last =>
      simp only [Reader.within, inner] at tail
      cases tail
      exact ⟨size, between, last, head, Nat.not_lt.mp short, inner, rfl⟩

/-- What comes after the size: contents that the input has to be long enough for. -/
def readCut (contents : Reader (List UInt8) α) (refused : UInt32 → Nat → DecodeError) (size : UInt32) :
    Reader (List UInt8) α := do
  let left ← Reader.remaining
  if left < size.toNat then throw (refused size left)
  let bytes ← Reader.bytes size.toNat
  Reader.within contents bytes

theorem readCut_reads {contents : Reader (List UInt8) α} {bytes last : List UInt8} {a : α} {size : UInt32}
    (inner : contents bytes = .ok a last) (length : bytes.length = size.toNat) (refused : UInt32 → Nat → DecodeError) :
    Reads (readCut contents refused size) bytes a := by
  intro rest
  have enough : ¬ (bytes ++ rest).length < size.toNat := by simp [length]
  have cut : Reader.bytes size.toNat (bytes ++ rest) = .ok bytes rest := by
    simp only [Reader.bytes, Cursor.take, enough, if_false]
    simp [← length]
  refine (bind_of_ok (remaining_eq (bytes ++ rest))).trans ?_
  simp only [enough, if_false]
  refine (bind_of_ok cut).trans ?_
  simp only [Reader.within, inner]

theorem sized_reads {contents : Reader (List UInt8) α} {bytes : List UInt8} {a : α}
    (inner : contents bytes = .ok a []) (few : bytes.length < UInt32.size) (refused : UInt32 → Nat → DecodeError) :
    Reads (readSized contents refused) (Counted.encodeBytes bytes) a := by
  apply Reads.bind (u32_reads _)
  exact readCut_reads inner (ofNat_toNat_of_short few).symm refused

section Sized

variable {read : Reader (List UInt8) α} {encode : α → List UInt8} {proper : α → Prop} {left : Nat → DecodeError}
  {refused : UInt32 → Nat → DecodeError}

/-- What is written again is no longer than what was cut out, and neither is its size. -/
theorem sized_image (image : Image read encode proper) :
    Image (readSized (readAll read left) refused) (fun a => Counted.encodeBytes (encode a))
      (fun a => proper a ∧ (encode a).length < UInt32.size) := by
  intro before a after outcome
  obtain ⟨size, between, last, head, enough, inner, rfl⟩ := readSized_eq_ok outcome
  obtain ⟨_, bound⟩ := u32.image before size between head
  obtain ⟨good, fewer⟩ := image _ _ _ (readAll_eq_ok inner)
  rw [List.length_take, List.length_nil] at fewer
  have fits : size.toNat < UInt32.size := size.toNat_lt
  have smaller : (UInt32.ofNat (encode a).length).toNat ≤ size.toNat := Nat.le_trans (Nat.mod_le _ _) (by omega)
  have sizes := encodeU32_mono (UInt32.le_iff_toNat_le.mpr smaller)
  refine ⟨⟨good, by omega⟩, ?_⟩
  simp only [Counted.encodeBytes, List.length_append, Counted.length, List.length_drop]
  omega

theorem sized (codec : Codec read encode proper) :
    Codec (readSized (readAll read left) refused) (fun a => Counted.encodeBytes (encode a)) proper where
  reads a good short := by
    have length : (Counted.encodeBytes (encode a)).length = _ := List.length_append
    have inner := codec.reads a good (by omega) []
    rw [List.append_nil] at inner
    exact sized_reads (readAll_of_nil inner left) (by omega) refused
  image := (sized_image codec.image).imp (fun _ known => known.1)

end Sized

end WasmMachine.Proofs.CountedCodec

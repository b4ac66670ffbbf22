import WasmMachine.Module.Reader
import WasmMachine.Proofs.Sequencing

/-! Readers and writers that belong together. Two facts go with every part of the binary format: what was
written is read back, and whatever is read has a written form that is no longer than what was read. Both are
kept together, because each way of putting readers together carries both of them over. -/

namespace WasmMachine.Proofs.ByteCodec
open Sequencing

variable {α β γ : Type} {read : Reader (List UInt8) α} {encode : α → List UInt8} {proper : α → Prop}

theorem byte_cons (b : UInt8) (rest : List UInt8) : Reader.byte (b :: rest) = .ok b rest := rfl

theorem remaining_eq (bytes : List UInt8) : Reader.remaining bytes = .ok bytes.length bytes := rfl

/-- A reader takes from a lawful cursor what it takes from the list of the bytes that are left. -/
theorem byte_follows {σ : Type} [Cursor σ] [LawfulCursor σ] :
    Follows (Cursor.rest (σ := σ)) Reader.byte Reader.byte := by
  intro c
  cases left : Cursor.rest c with
  | nil =>
    have none := LawfulCursor.next?_nil c left
    simp only [Reader.byte, none, mapState, left]
    rfl
  | cons b others =>
    obtain ⟨after, found, rest⟩ := LawfulCursor.next?_cons c b others left
    simp only [Reader.byte, found, mapState, rest]
    rfl

/-- The bytes are read as `a`, and reading stops behind them whatever follows. -/
def Reads (read : Reader (List UInt8) α) (bytes : List UInt8) (a : α) : Prop :=
  ∀ rest, read (bytes ++ rest) = .ok a rest

theorem Reads.bind {next : α → Reader (List UInt8) β} {first second : List UInt8}
    {a : α} {b : β} (head : Reads read first a) (tail : Reads (next a) second b) :
    Reads (read >>= next) (first ++ second) b := by
  intro rest
  rw [List.append_assoc, bind_of_ok (head (second ++ rest))]
  exact tail rest

theorem Reads.tagged {next : UInt8 → Reader (List UInt8) α} {tag : UInt8} {bytes : List UInt8} {a : α}
    (reads : Reads (next tag) bytes a) : Reads (Reader.byte >>= next) (tag :: bytes) a :=
  fun rest => reads rest

theorem Reads.map {bytes written : List UInt8} {a : α} (reads : Reads read bytes a)
    (make : α → β) (same : written = bytes) : Reads (do return make (← read)) written (make a) := by
  intro rest
  rw [same]
  exact bind_of_ok (reads rest)

theorem Reads.map₂ {next : Reader (List UInt8) β} {first second written : List UInt8} {a : α} {b : β} (head : Reads read first a)
    (tail : Reads next second b) (make : α → β → γ) (same : written = first ++ second) :
    Reads (do
        let a ← read
        let b ← next
        return make a b) written (make a b) := by
  rw [same]
  exact Reads.bind head (tail.map (make a) rfl)

/-- Items that are read back one by one are read back in a row. -/
theorem Reads.repeated {items : List α} (each : ∀ a ∈ items, Reads read (encode a) a) :
    Reads (Reader.repeated read items.length) (items.flatMap encode) items := by
  induction items with
  | nil => exact fun rest => rfl
  | cons first others ih =>
    obtain ⟨head, tail⟩ := List.forall_mem_cons.mp each
    intro rest
    rw [List.flatMap_cons, List.append_assoc]
    refine (bind_of_ok (head _)).trans ?_
    exact bind_of_ok (ih tail rest)

/-- Only `proper` things are read, and from no fewer bytes than they take when they are written. -/
def Image (read : Reader (List UInt8) α) (encode : α → List UInt8) (proper : α → Prop) : Prop :=
  ∀ before a after, read before = .ok a after → proper a ∧ (encode a).length + after.length ≤ before.length

theorem Image.imp {wider : α → Prop} (image : Image read encode proper) (imp : ∀ a, proper a → wider a) :
    Image read encode wider := by
  intro before a after outcome
  obtain ⟨good, bound⟩ := image before a after outcome
  exact ⟨imp a good, bound⟩

theorem Image.map {encode' : β → List UInt8} {proper' : β → Prop} (image : Image read encode proper) (make : α → β)
    (same : ∀ a, encode' (make a) = encode a) (good : ∀ a, proper a → proper' (make a)) :
    Image (do return make (← read)) encode' proper' := by
  intro before b after outcome
  obtain ⟨a, between, head, made⟩ := bind_eq_ok outcome
  obtain ⟨rfl, rfl⟩ := pure_eq_ok made
  obtain ⟨known, bound⟩ := image before a between head
  rw [same]
  exact ⟨good a known, bound⟩

theorem Image.map₂ {next : Reader (List UInt8) β} {encodeNext : β → List UInt8} {properNext : β → Prop}
    {encode' : γ → List UInt8} {proper' : γ → Prop} (first : Image read encode proper)
    (second : Image next encodeNext properNext) (make : α → β → γ)
    (same : ∀ a b, encode' (make a b) = encode a ++ encodeNext b)
    (good : ∀ a b, proper a → properNext b → proper' (make a b)) :
    Image (do
        let a ← read
        let b ← next
        return make a b) encode' proper' := by
  intro before c after outcome
  obtain ⟨a, between, head, tail⟩ := bind_eq_ok outcome
  obtain ⟨b, last, rest, made⟩ := bind_eq_ok tail
  obtain ⟨rfl, rfl⟩ := pure_eq_ok made
  obtain ⟨known, bound⟩ := first before a between head
  obtain ⟨knownNext, boundNext⟩ := second between b last rest
  rw [same, List.length_append]
  exact ⟨good a b known knownNext, by omega⟩

theorem byte_eq_ok {b : UInt8} {before after : List UInt8} (outcome : Reader.byte before = .ok b after) :
    before = b :: after := by
  cases before with
  | nil => cases outcome
  | cons first others =>
    cases outcome
    rfl

theorem byte_image : Image Reader.byte (fun b => [b]) (fun _ => True) := by
  intro before b after outcome
  rw [byte_eq_ok outcome, List.length_singleton, List.length_cons]
  exact ⟨trivial, by omega⟩

theorem Image.behind_byte {next : UInt8 → Reader (List UInt8) α}
    (image : ∀ tag, Image (next tag) (fun a => (encode a).tail) proper) :
    Image (Reader.byte >>= next) encode proper := by
  intro before a after outcome
  obtain ⟨tag, between, head, tail⟩ := bind_eq_ok outcome
  obtain ⟨_, bound⟩ := byte_image before tag between head
  obtain ⟨good, boundNext⟩ := image tag between a after tail
  rw [List.length_tail] at boundNext
  rw [List.length_singleton] at bound
  exact ⟨good, by omega⟩

theorem pure_image {a : α} (none : encode a = []) (good : proper a) :
    Image (pure a) encode proper := by
  intro before b after outcome
  obtain ⟨rfl, rfl⟩ := pure_eq_ok outcome
  rw [none, List.length_nil, Nat.zero_add]
  exact ⟨good, Nat.le_refl _⟩

theorem throw_image (e : DecodeError) : Image (throw e) encode proper := by
  intro before a after outcome
  cases outcome

/-- A reader and a writer of the same things. Things with a proper written form are read back, if that form is
short enough for its size to be written down; and only such things are read. -/
structure Codec (read : Reader (List UInt8) α) (encode : α → List UInt8) (proper : α → Prop) : Prop where
  reads : ∀ a, proper a → (encode a).length < UInt32.size → Reads read (encode a) a
  image : Image read encode proper

namespace Codec

theorem of (codec : Codec read encode proper) {encode' : α → List UInt8} {proper' : α → Prop}
    (same : ∀ a, proper a → encode' a = encode a) (iff : ∀ a, proper' a ↔ proper a) :
    Codec read encode' proper' where
  reads a good short := by
    have was := (iff a).mp good
    rw [same a was] at short ⊢
    exact codec.reads a was short
  image before a after outcome := by
    obtain ⟨good, bound⟩ := codec.image before a after outcome
    rw [same a good]
    exact ⟨(iff a).mpr good, bound⟩

theorem pure (a : α) : Codec (pure a) (fun _ => []) (fun b => b = a) where
  reads b same _ _ := by
    subst b
    rfl
  image := pure_image rfl rfl

theorem map (codec : Codec read encode proper) (make : α → β) {encode' : β → List UInt8} {proper' : β → Prop}
    (same : ∀ a, encode' (make a) = encode a) (iff : ∀ b, proper' b ↔ ∃ a, proper a ∧ make a = b) :
    Codec (do return make (← read)) encode' proper' where
  reads b made short := by
    obtain ⟨a, good, rfl⟩ := (iff b).mp made
    rw [same] at short
    exact (codec.reads a good short).map make (same a)
  image := codec.image.map make same (fun a good => (iff _).mpr ⟨a, good, rfl⟩)

theorem map₂ {next : Reader (List UInt8) β} {encodeNext : β → List UInt8} {properNext : β → Prop}
    (first : Codec read encode proper) (second : Codec next encodeNext properNext) (make : α → β → γ)
    {encode' : γ → List UInt8} {proper' : γ → Prop} (same : ∀ a b, encode' (make a b) = encode a ++ encodeNext b)
    (iff : ∀ c, proper' c ↔ ∃ a b, proper a ∧ properNext b ∧ make a b = c) :
    Codec (do
        let a ← read
        let b ← next
        return make a b) encode' proper' where
  reads c made short := by
    obtain ⟨a, b, good, goodNext, rfl⟩ := (iff c).mp made
    rw [same, List.length_append] at short
    exact (first.reads a good (by omega)).map₂ (second.reads b goodNext (by omega)) make (same a b)
  image := first.image.map₂ second.image make same
    (fun a b good goodNext => (iff _).mpr ⟨a, b, good, goodNext, rfl⟩)

theorem enumerated {ofByte : UInt8 → Except DecodeError α} {toByte : α → UInt8}
    (iff : ∀ b a, ofByte b = .ok a ↔ toByte a = b) :
    Codec (do
        let b ← Reader.byte
        Reader.lift (ofByte b))
      (fun a => [toByte a]) (fun _ => True) where
  reads a _ _ rest := by
    have known : ofByte (toByte a) = .ok a := (iff _ a).mpr rfl
    refine (bind_of_ok (byte_cons (toByte a) rest)).trans ?_
    simp only [Reader.lift, known]
  image before a after outcome := by
    obtain ⟨b, between, head, tail⟩ := bind_eq_ok outcome
    obtain ⟨_, bound⟩ := byte_image before b between head
    unfold Reader.lift at tail
    split at tail
    · cases tail
      exact ⟨trivial, bound⟩
    · cases tail

/-- An item is written as at least one byte, so there are no more items than bytes. -/
theorem length_le_flatMap (positive : ∀ a, 0 < (encode a).length) (items : List α) :
    items.length ≤ (items.flatMap encode).length := by
  induction items with
  | nil => exact Nat.zero_le _
  | cons first others ih =>
    have := positive first
    simp only [List.flatMap_cons, List.length_append, List.length_cons]
    omega

theorem item_length_le {items : List α} {a : α} (member : a ∈ items) :
    (encode a).length ≤ (items.flatMap encode).length := by
  rw [List.flatMap_def]
  exact (List.sublist_flatten_of_mem (List.mem_map_of_mem member)).length_le

/-- Of items that are short together, each one is read back. -/
theorem each_reads (codec : Codec read encode proper) {items : List α} (good : ∀ a ∈ items, proper a)
    (short : (items.flatMap encode).length < UInt32.size) : ∀ a ∈ items, Reads read (encode a) a := by
  intro a member
  exact codec.reads a (good a member) (Nat.lt_of_le_of_lt (item_length_le member) short)

theorem repeated_image (codec : Codec read encode proper) (count : Nat) (before : List UInt8) (items : List α)
    (after : List UInt8) (outcome : Reader.repeated read count before = .ok items after) :
    items.length = count ∧ (∀ a ∈ items, proper a) ∧
      (items.flatMap encode).length + after.length ≤ before.length := by
  induction count generalizing before items with
  | zero =>
    obtain ⟨rfl, rfl⟩ := pure_eq_ok outcome
    exact ⟨rfl, by simp, by simp⟩
  | succ count ih =>
    obtain ⟨first, between, head, tail⟩ := bind_eq_ok outcome
    obtain ⟨others, last, rest, made⟩ := bind_eq_ok tail
    obtain ⟨rfl, rfl⟩ := pure_eq_ok made
    obtain ⟨good, bound⟩ := codec.image before first between head
    obtain ⟨counted, goodOthers, boundOthers⟩ := ih between others rest
    refine ⟨congrArg (· + 1) counted, ?_, ?_⟩
    · intro a member
      rcases List.mem_cons.mp member with rfl | member
      · exact good
      · exact goodOthers a member
    · rw [List.flatMap_cons, List.length_append]
      omega

end Codec

end WasmMachine.Proofs.ByteCodec

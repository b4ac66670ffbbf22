import WasmMachine.Proofs.CodeCodec

/-! How the bytes that were read differ from those that are written again. Writing takes the shortest form of every
integer. Where nothing gets shorter the bytes are the same, with one exception: reading drops bits of a constant of five
groups, and writing puts the sign in their place. -/

namespace WasmMachine.Proofs.Respelling
open Sequencing ByteCodec Leb128Codec CountedCodec CodeCodec Leb128

section Groups

variable {groups others : List UInt8}

theorem front_unique {front other : List UInt8} (highs : ∀ g ∈ front, 128 ≤ g.toNat)
    (highsOther : ∀ g ∈ other, 128 ≤ g.toNat) (length : front.length = other.length) (same : value front = value other) :
    front = other := by
  induction front generalizing other with
  | nil => exact (List.eq_nil_of_length_eq_zero length.symm).symm
  | cons g front ih =>
    cases other with
    | nil => cases length
    | cons h other =>
      obtain ⟨high, rest⟩ := List.forall_mem_cons.mp highs
      obtain ⟨highOther, restOther⟩ := List.forall_mem_cons.mp highsOther
      simp only [value] at same
      have top := g.toNat_lt
      have topOther := h.toNat_lt
      obtain rfl : g = h := UInt8.toNat_inj.mp (by omega)
      have tails : front = other := ih rest restOther (Nat.succ.inj length) (by omega)
      rw [tails]

/-- As many groups for the same number are the same groups. -/
theorem groups_unique (ended : Ended groups) (endedOther : Ended others) (length : groups.length = others.length)
    (same : value groups = value others) : groups = others := by
  obtain ⟨front, last, rfl, highs, low⟩ := Ended.split ended
  obtain ⟨other, lastOther, rfl, highsOther, lowOther⟩ := Ended.split endedOther
  have lengths : front.length = other.length := by simpa using length
  have bound := value_bound front
  have boundOther := value_bound other
  rw [← lengths] at boundOther
  rw [value_split, value_split, ← lengths] at same
  have fronts : value front = value other := by
    have low := congrArg (· % 128 ^ front.length) same
    simpa [Nat.add_mul_mod_self_left, Nat.mod_eq_of_lt bound, Nat.mod_eq_of_lt boundOther] using low
  have lasts : last.toNat % 128 = lastOther.toNat % 128 := by
    rw [fronts] at same
    exact Nat.eq_of_mul_eq_mul_left (Nat.pow_pos (by decide)) (Nat.add_left_cancel same)
  rw [front_unique highs highsOther lengths fronts, UInt8.toNat_inj.mp (by omega : last.toNat = lastOther.toNat)]

/-- Numbers of as many groups, up to five, that are the same in their lowest 32 bits. -/
theorem fronts_of_wrapped {front other : List UInt8} {last lastOther : UInt8} {wraps : Int}
    (length : front.length = other.length) (few : front.length ≤ 4)
    (same : signedValue (front ++ [last]) = signedValue (other ++ [lastOther]) + 2 ^ 32 * wraps) :
    value front = value other ∧
      128 ^ front.length * signedValue [last] = 128 ^ front.length * signedValue [lastOther] + 2 ^ 32 * wraps := by
  have bound := value_bound front
  have boundOther := value_bound other
  rw [signedValue_split, signedValue_split, ← length] at same
  rw [← length] at boundOther
  have lengths : front.length = 0 ∨ front.length = 1 ∨ front.length = 2 ∨ front.length = 3 ∨ front.length = 4 := by omega
  rcases lengths with count | count | count | count | count
  all_goals
    rw [count] at bound boundOther same ⊢
    omega

end Groups

/-- The last of five groups of a constant as it is written: the four bits of it that are kept, and the sign above them. -/
def kept (last : UInt8) : UInt8 :=
  if last.toNat % 16 < 8 then (last.toNat % 16).toUInt8 else (last.toNat % 16 + 112).toUInt8

/-- The same bytes, up to what the last of five groups behind the opcode of a constant holds besides its lowest bits. -/
inductive Respelled : List UInt8 → List UInt8 → Prop where
  | nil : Respelled [] []
  | same {spelled written : List UInt8} (b : UInt8) (rest : Respelled spelled written) :
    Respelled (b :: spelled) (b :: written)
  | const {front spelled written : List UInt8} (four : front.length = 4) (highs : ∀ g ∈ front, 128 ≤ g.toNat)
    (last : UInt8) (low : last.toNat < 128) (rest : Respelled spelled written) :
    Respelled (0x41 :: (front ++ last :: spelled)) (0x41 :: (front ++ kept last :: written))

namespace Respelled

variable {spelled written spelledNext writtenNext : List UInt8}

theorem refl (bytes : List UInt8) : Respelled bytes bytes := by
  induction bytes with
  | nil => exact .nil
  | cons b others ih => exact .same b ih

theorem length_eq (respelled : Respelled spelled written) : written.length = spelled.length := by
  induction respelled with
  | nil => rfl
  | same b _ ih => exact congrArg (· + 1) ih
  | const _ _ _ _ _ ih => simp [ih]

theorem append (respelled : Respelled spelled written) (next : Respelled spelledNext writtenNext) :
    Respelled (spelled ++ spelledNext) (written ++ writtenNext) := by
  induction respelled with
  | nil => exact next
  | same b _ ih => exact .same b ih
  | const four highs last low _ ih =>
    rw [List.cons_append, List.append_assoc, List.cons_append, List.cons_append, List.append_assoc, List.cons_append]
    exact .const four highs last low ih

end Respelled

/-- What is written instead of these bytes is shorter, or the same up to dropped bits. -/
def Compares (spelled written : List UInt8) : Prop := written.length < spelled.length ∨ Respelled spelled written

namespace Compares

variable {spelled written spelledNext writtenNext : List UInt8}

theorem refl (bytes : List UInt8) : Compares bytes bytes := .inr (.refl bytes)

theorem le (compares : Compares spelled written) : written.length ≤ spelled.length := by
  rcases compares with shorter | respelled
  · exact Nat.le_of_lt shorter
  · exact Nat.le_of_eq respelled.length_eq

theorem append (compares : Compares spelled written) (next : Compares spelledNext writtenNext) :
    Compares (spelled ++ spelledNext) (written ++ writtenNext) := by
  have bound := compares.le
  have boundNext := next.le
  rcases compares with shorter | respelled
  · left
    simp only [List.length_append]
    omega
  · rcases next with shorter | respelledNext
    · left
      simp only [List.length_append]
      omega
    · exact .inr (respelled.append respelledNext)

end Compares

theorem u32_compares {n : UInt32} {groups : List UInt8} (ended : Ended groups) (same : n.toNat = value groups)
    (bound : (encodeU32 n).length ≤ groups.length) : Compares groups (encodeU32 n) := by
  obtain ⟨endedShortest, sameShortest, _⟩ := encodeU32_spec n
  rcases Nat.lt_or_eq_of_le bound with shorter | length
  · exact .inl shorter
  · rw [groups_unique endedShortest ended length (sameShortest.trans same)]
    exact .refl groups

theorem kept_of_wrapped {last written : UInt8} {wraps : Int} (low : last.toNat < 128) (lowWritten : written.toNat < 128)
    (same : signedValue [last] = signedValue [written] + 16 * wraps) (lower : -8 ≤ signedValue [written])
    (upper : signedValue [written] < 8) : kept last = written := by
  have byte {n : Nat} (small : n < 256) : n.toUInt8.toNat = n := by simp [Nat.mod_eq_of_lt small]
  apply UInt8.toNat_inj.mp
  simp only [signedValue] at same lower upper
  unfold kept
  split
  · rw [byte (by omega)]
    omega
  · rw [byte (by omega)]
    omega

/-- A last group stands for its own value only. -/
theorem last_unique {last other : UInt8} (low : last.toNat < 128) (lowOther : other.toNat < 128)
    (same : signedValue [last] = signedValue [other]) : last = other := by
  apply UInt8.toNat_inj.mp
  simp only [signedValue] at same
  omega

theorem signedValue_last (last : UInt8) : -64 ≤ signedValue [last] ∧ signedValue [last] < 64 := by
  simp only [signedValue]
  omega

/-- A constant differs only in its fifth group, and there it cannot be in the bits that are kept. -/
theorem const_compares {n : Int32} {groups : List UInt8} (ended : Ended groups) (length : groups.length ≤ maxGroups)
    (same : Int32.ofInt (signedValue groups) = n) (bound : (encodeS32 n).length ≤ groups.length) :
    Compares (0x41 :: groups) (0x41 :: encodeS32 n) := by
  obtain ⟨endedShortest, sameShortest, _⟩ := encodeS32_spec n
  rcases Nat.lt_or_eq_of_le bound with shorter | lengths
  · exact .inl (Nat.succ_lt_succ shorter)
  right
  -- What was read and what is written are the same integer in its lowest 32 bits.
  obtain ⟨wraps, wrapped⟩ : ∃ wraps, signedValue groups = signedValue (encodeS32 n) + 2 ^ 32 * wraps := by
    have result := congrArg Int32.toInt same
    have size : ((Int32.size : Nat) : Int) = 2 ^ 32 := rfl
    rw [Int32.toInt_ofInt, Int.bmod_eq_self_sub_mul_bdiv, ← sameShortest, size] at result
    exact ⟨Int.bdiv (signedValue groups) Int32.size, by omega⟩
  obtain ⟨front, last, rfl, highs, low⟩ := Ended.split ended
  obtain ⟨frontWritten, written, eq, highsWritten, lowWritten⟩ := Ended.split endedShortest
  rw [eq] at wrapped lengths sameShortest ⊢
  have fronts : front.length = frontWritten.length := by simpa using lengths.symm
  have few : front.length ≤ 4 := by
    rw [List.length_append, List.length_singleton, maxGroups] at length
    omega
  obtain ⟨values, lasts⟩ := fronts_of_wrapped fronts few wrapped
  obtain rfl := front_unique highs highsWritten fronts values
  by_cases four : front.length = 4
  · have lower := n.le_toInt
    have upper := n.toInt_lt
    have below := value_bound front
    rw [signedValue_split, four] at sameShortest
    rw [four] at lasts below
    have lasts : signedValue [last] = signedValue [written] + 16 * wraps := by omega
    rw [← kept_of_wrapped low lowWritten lasts (by omega) (by omega)]
    exact .const four highs last low .nil
  · -- Fewer groups hold too few bits for any of them to be dropped.
    have range := signedValue_last last
    have rangeWritten := signedValue_last written
    have equal : signedValue [last] = signedValue [written] := by
      have lengths : front.length = 0 ∨ front.length = 1 ∨ front.length = 2 ∨ front.length = 3 := by omega
      rcases lengths with count | count | count | count
      all_goals
        rw [count] at lasts
        omega
    rw [last_unique low lowWritten equal]
    exact .refl _

/-- What stands between the two places of the input compares with what is written. -/
def Spells (before after written : List UInt8) : Prop := ∃ bytes, before = bytes ++ after ∧ Compares bytes written

theorem Spells.refl (rest : List UInt8) : Spells rest rest [] := ⟨[], rfl, .refl []⟩

theorem Spells.byte (b : UInt8) (rest : List UInt8) : Spells (b :: rest) rest [b] := ⟨[b], rfl, .refl [b]⟩

theorem Spells.trans {before between after written writtenNext : List UInt8} (head : Spells before between written)
    (tail : Spells between after writtenNext) : Spells before after (written ++ writtenNext) := by
  obtain ⟨bytes, rfl, compares⟩ := head
  obtain ⟨bytesNext, rfl, comparesNext⟩ := tail
  exact ⟨bytes ++ bytesNext, (List.append_assoc ..).symm, compares.append comparesNext⟩

/-- Whatever is read continues what is written so far, and the rest of it compares with what it is read from. -/
def Continues {α : Type} (written : List UInt8) (read : Reader (List UInt8) α) (encode : α → List UInt8) : Prop :=
  ∀ before a after, read before = .ok a after → ∃ more, encode a = written ++ more ∧ Spells before after more

/-- Whatever is read compares with what is written for it. -/
def Spelled {α : Type} (read : Reader (List UInt8) α) (encode : α → List UInt8) : Prop :=
  ∀ before a after, read before = .ok a after → Spells before after (encode a)

section Laws

variable {α β : Type} {read : Reader (List UInt8) α} {encode : α → List UInt8} {written : List UInt8}

theorem Continues.spelled (continues : Continues [] read encode) : Spelled read encode := by
  intro before a after outcome
  obtain ⟨more, same, spells⟩ := continues before a after outcome
  rw [same]
  exact spells

theorem Continues.behind {tag : UInt8} {a : α} {before after : List UInt8} (continues : Continues [tag] read encode)
    (outcome : read before = .ok a after) : Spells (tag :: before) after (encode a) := by
  obtain ⟨more, same, spells⟩ := continues before a after outcome
  rw [same]
  exact (Spells.byte tag before).trans spells

theorem Continues.pure {a : α} (same : encode a = written) : Continues written (pure a) encode := by
  intro before b after outcome
  obtain ⟨rfl, rfl⟩ := pure_eq_ok outcome
  exact ⟨[], by rw [same, List.append_nil], .refl before⟩

theorem Continues.throw (e : DecodeError) : Continues written (throw e) encode := by
  intro before a after outcome
  cases outcome

theorem Spelled.bind {next : α → Reader (List UInt8) β} {encodeNext : β → List UInt8} (first : Spelled read encode)
    (rest : ∀ a, Continues (written ++ encode a) (next a) encodeNext) : Continues written (read >>= next) encodeNext := by
  intro before b after outcome
  obtain ⟨a, between, head, tail⟩ := bind_eq_ok outcome
  obtain ⟨more, same, spells⟩ := rest a between b after tail
  exact ⟨encode a ++ more, by rw [same, List.append_assoc], (first before a between head).trans spells⟩

theorem Spelled.map {encodeNext : β → List UInt8} (first : Spelled read encode) (make : α → β)
    (same : ∀ a, encodeNext (make a) = written ++ encode a) :
    Continues written (do return make (← read)) encodeNext :=
  first.bind fun a => .pure (same a)

theorem Spelled.map₂ {γ : Type} {next : Reader (List UInt8) β} {encodeNext : β → List UInt8}
    {encodeBoth : γ → List UInt8} (first : Spelled read encode) (second : Spelled next encodeNext) (make : α → β → γ)
    (same : ∀ a b, encodeBoth (make a b) = written ++ encode a ++ encodeNext b) :
    Continues written (do
        let a ← read
        let b ← next
        return make a b) encodeBoth :=
  first.bind fun a => second.map (make a) (same a)

theorem byte_spelled : Spelled Reader.byte (fun b => [b]) := by
  intro before b after outcome
  rw [byte_eq_ok outcome]
  exact .byte b after

theorem lift_continues {result : Except DecodeError α} (same : ∀ a, result = .ok a → encode a = written) :
    Continues written (Reader.lift result) encode := by
  intro before a after outcome
  cases result with
  | error e => cases outcome
  | ok b =>
    cases outcome
    exact ⟨[], by rw [same a rfl, List.append_nil], .refl before⟩

theorem u32_spelled : Spelled readU32 encodeU32 := by
  intro before n after outcome
  obtain ⟨groups, rfl, ended, _, same⟩ := readUnsigned_image outcome
  obtain ⟨_, bound⟩ := u32.image _ n after outcome
  rw [List.length_append] at bound
  refine ⟨groups, rfl, u32_compares ended (by omega) (by omega)⟩

theorem const_spells {before after : List UInt8} {n : Int32} (outcome : readS32 before = .ok n after) :
    Spells (0x41 :: before) after (0x41 :: encodeS32 n) := by
  obtain ⟨groups, rfl, ended, length⟩ := readSigned_image outcome
  obtain ⟨_, bound⟩ := s32.image _ n after outcome
  have result := (readSigned_groups ended 0 length after).symm.trans outcome
  have same : Int32.ofInt (signedValue groups) = n := by simpa using result
  rw [List.length_append] at bound
  exact ⟨0x41 :: groups, rfl, const_compares ended length same (by omega)⟩

theorem repeated_spells (item : Spelled read encode) {count : Nat} {before after : List UInt8} {items : List α}
    (outcome : Reader.repeated read count before = .ok items after) :
    items.length = count ∧ Spells before after (items.flatMap encode) := by
  induction count generalizing before items with
  | zero =>
    obtain ⟨rfl, rfl⟩ := pure_eq_ok outcome
    exact ⟨rfl, .refl _⟩
  | succ count ih =>
    obtain ⟨first, between, head, tail⟩ := bind_eq_ok outcome
    obtain ⟨others, last, rest, made⟩ := bind_eq_ok tail
    obtain ⟨rfl, rfl⟩ := pure_eq_ok made
    obtain ⟨counted, spells⟩ := ih rest
    exact ⟨congrArg (· + 1) counted, (item before first between head).trans spells⟩

theorem vector_spelled (item : Spelled read encode) : Spelled (Counted.read read) (Counted.encode encode) := by
  intro before items after outcome
  obtain ⟨count, between, head, tail⟩ := bind_eq_ok outcome
  obtain ⟨counted, spells⟩ := repeated_spells item tail
  rw [Counted.encode, Counted.length, counted, UInt32.ofNat_toNat]
  exact (u32_spelled before count between head).trans spells

/-- A size in front of what it is the size of. Where the latter gets shorter, the size does not get longer. -/
theorem sized_spells {before between bytes written : List UInt8} {size : UInt32} (head : readU32 before = .ok size between)
    (length : bytes.length = size.toNat) (compares : Compares bytes written) :
    ∃ groups, before = groups ++ between ∧ Compares (groups ++ bytes) (Counted.encodeBytes written) := by
  obtain ⟨groups, rfl, number⟩ := u32_spelled before size between head
  refine ⟨groups, rfl, ?_⟩
  unfold Counted.encodeBytes Counted.length
  rcases compares with shorter | respelled
  · left
    have smaller : (UInt32.ofNat written.length).toNat ≤ size.toNat := Nat.le_trans (Nat.mod_le _ _) (by omega)
    have sizes := encodeU32_mono (UInt32.le_iff_toNat_le.mpr smaller)
    have bound := number.le
    simp only [List.length_append]
    omega
  · rw [respelled.length_eq, length, UInt32.ofNat_toNat]
    exact number.append (.inr respelled)

theorem bytes_spelled : Spelled Counted.readBytes Counted.encodeBytes := by
  intro before bytes after outcome
  obtain ⟨size, between, head, tail⟩ := bind_eq_ok outcome
  obtain ⟨length, rfl⟩ := exactly_image tail
  obtain ⟨groups, rfl, compares⟩ := sized_spells head length (.refl bytes)
  exact ⟨groups ++ bytes, (List.append_assoc ..).symm, compares⟩

theorem name_spelled : Spelled Counted.readName Counted.encodeName := by
  intro before name after outcome
  obtain ⟨read, between, head, tail⟩ := bind_eq_ok outcome
  have spells := bytes_spelled before read between head
  cases found : String.fromUTF8? (ByteArray.mk read.toArray) with
  | none =>
    rw [found] at tail
    cases tail
  | some known =>
    rw [found] at tail
    obtain ⟨rfl, rfl⟩ := pure_eq_ok tail
    rw [Counted.encodeName, fromUTF8?_eq_some.mp found, toList_ofList]
    exact spells

theorem sized_spelled {left : Nat → DecodeError} {refused : UInt32 → Nat → DecodeError} (contents : Spelled read encode) :
    Spelled (readSized (readAll read left) refused) (fun a => Counted.encodeBytes (encode a)) := by
  intro before a after outcome
  obtain ⟨size, between, last, head, enough, inner, rfl⟩ := readSized_eq_ok outcome
  obtain ⟨bytes, all, compares⟩ := contents _ a [] (readAll_eq_ok inner)
  rw [List.append_nil] at all
  have length : (between.take size.toNat).length = size.toNat := by
    rw [List.length_take]
    omega
  obtain ⟨groups, rfl, whole⟩ := sized_spells head length (all ▸ compares)
  exact ⟨groups ++ between.take size.toNat, by simp, whole⟩

end Laws

end WasmMachine.Proofs.Respelling

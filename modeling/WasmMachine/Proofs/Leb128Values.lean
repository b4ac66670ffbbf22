import WasmMachine.Binary.Buffer
import WasmMachine.Binary.ByteStack
import WasmMachine.Proofs.Leb128Words
import WasmMachine.Proofs.ReaderParts

/-! LEB128 on bytes of any kind. A number ends with the first byte whose bit 7 is clear; up to there the bytes stand for a
sum of their lower seven bits, each weighted by its place. Both loops that read into words are compared with that sum on
every cursor, whether the number fits, is too long or breaks off, and both writers with every form that is read as the
same number. -/

namespace WasmMachine.Proofs.Leb128Values
open Sequencing ByteCodec Leb128Codec Leb128Words ReaderParts Leb128

variable {α σ : Type} {bytes groups : List UInt8}

/-- How many bytes there are up to and including the first one whose bit 7 is clear. -/
def groupCount? (bytes : List UInt8) : Option Nat := (bytes.findIdx? fun b => !b.toNat.testBit 7).map (· + 1)

def groupSum (groups : List UInt8) : Nat := (groups.mapIdx fun i b => (b &&& 0x7f).toNat * 2 ^ (7 * i)).sum

/-- Bit 6 of the last group, which is the sign. -/
def signBit (groups : List UInt8) : Bool := groups.getLast?.any (·.toNat.testBit 6)

section Sums

/-- The sum from a place on, which is that many times seven bits higher. -/
theorem groupSum_from (groups : List UInt8) (place : Nat) :
    (groups.mapIdx fun i b => (b &&& 0x7f).toNat * 2 ^ (7 * (i + place))).sum = 128 ^ place * value groups := by
  induction groups generalizing place with
  | nil => rfl
  | cons b others ih =>
    have weight : 2 ^ (7 * place) = 128 ^ place := Nat.pow_mul 2 7 place
    have later := ih (place + 1)
    simp only [List.mapIdx_cons, List.sum_cons, Nat.zero_add, Nat.add_right_comm _ 1 place, Nat.add_assoc] at later ⊢
    rw [later, toNat_low, weight, value]
    ring

theorem groupSum_eq_value (groups : List UInt8) : groupSum groups = value groups :=
  (groupSum_from groups 0).trans (by rw [Nat.pow_zero, Nat.one_mul])

theorem signedValue_eq (ended : Ended groups) :
    signedValue groups = groupSum groups - if signBit groups then (2 : Int) ^ (7 * groups.length) else 0 := by
  obtain ⟨front, last, rfl, _, _⟩ := ended.split
  have weight : (2 : Int) ^ (7 * (front.length + 1)) = 128 ^ front.length * 128 := by
    rw [Int.pow_mul, Int.pow_succ]
    rfl
  have sign : signBit (front ++ [last]) = last.toNat.testBit 6 := by simp [signBit]
  -- Only the last group is read in two ways; with its sign it is one whole group less.
  rw [groupSum_eq_value, value_split, signedValue_split, sign, List.length_append, List.length_singleton, weight]
  simp only [testBit_sign, signedValue]
  by_cases positive : last.toNat % 128 < 64
  · simp only [positive, not_true_eq_false, if_true, if_false]
    push_cast
    ring
  · simp only [positive, not_false_eq_true, if_true, if_false]
    push_cast
    ring

end Sums

section Streams

/-- The first byte whose bit 7 is clear ends a number. -/
theorem ended_of_count {n : Nat} (known : groupCount? bytes = some n) : n ≤ bytes.length ∧ Ended (bytes.take n) := by
  induction bytes generalizing n with
  | nil => cases known
  | cons b others ih =>
    rw [groupCount?, List.findIdx?_cons] at known
    by_cases high : 128 ≤ b.toNat
    · simp only [(testBit_top b).mpr high, Bool.not_true, Bool.false_eq_true, if_false] at known
      obtain ⟨place, found, rfl⟩ := Option.map_eq_some_iff.mp known
      obtain ⟨length, ended⟩ := ih found
      exact ⟨Nat.succ_le_succ length, .more high ended⟩
    · have low : b.toNat.testBit 7 = false := Bool.eq_false_iff.mpr (mt (testBit_top b).mp high)
      simp only [low, Bool.not_false, if_true, Option.map_some, Option.some.injEq] at known
      subst known
      exact ⟨Nat.succ_le_succ (Nat.zero_le _), .last (Nat.not_le.mp high)⟩

theorem highs_of_count (none : groupCount? bytes = none) : ∀ b ∈ bytes, 128 ≤ b.toNat := by
  intro b member
  have high := List.findIdx?_eq_none_iff.mp (Option.map_eq_none_iff.mp none) b member
  exact (testBit_top b).mp (by simpa using high)

/-- A reader that takes groups one by one, as many as it is allowed. -/
structure TakesGroups (read : (allowed weight sum : Nat) → Reader (List UInt8) α) : Prop where
  refuses : ∀ weight sum bytes, read 0 weight sum bytes = .error .integerOverflow bytes
  misses : ∀ allowed weight sum, read (allowed + 1) weight sum [] = .error .unexpectedEof []
  goesOn : ∀ allowed weight sum b rest, 128 ≤ b.toNat →
    read (allowed + 1) weight sum (b :: rest) = read allowed (weight * 128) (sum + b.toNat % 128 * weight) rest

theorem unsigned_takesGroups : TakesGroups (readUnsigned (σ := List UInt8)) :=
  ⟨fun _ _ _ => rfl, fun _ _ _ => rfl, fun _ _ _ _ _ high => readUnsigned_more high⟩

theorem signed_takesGroups : TakesGroups (readSigned (σ := List UInt8)) :=
  ⟨fun _ _ _ => rfl, fun _ _ _ => rfl, fun _ _ _ _ _ high => readSigned_more high⟩

/-- Groups that do not end a number are all taken; then there are no more of them, or no more are allowed. -/
theorem TakesGroups.unended {read : (allowed weight sum : Nat) → Reader (List UInt8) α} (takes : TakesGroups read)
    {allowed weight sum : Nat} (highs : ∀ b ∈ bytes.take allowed, 128 ≤ b.toNat) :
    read allowed weight sum bytes =
      .error (if bytes.length < allowed then .unexpectedEof else .integerOverflow) (bytes.drop allowed) := by
  induction allowed generalizing weight sum bytes with
  | zero => exact takes.refuses weight sum bytes
  | succ allowed ih =>
    cases bytes with
    | nil => exact takes.misses allowed weight sum
    | cons b rest =>
      obtain ⟨high, others⟩ := List.forall_mem_cons.mp highs
      rw [takes.goesOn allowed weight sum b rest high, ih others]
      simp only [List.length_cons, Nat.add_lt_add_iff_right, List.drop_succ_cons]

end Streams

section Reading

variable [Cursor σ]

/-- Both loops take the groups of a number and stop behind them. One gives their sum, unless it is too large; the other
gives the integer of 32 bits that is congruent to it, less the weight of the sign. -/
structure ReadsSum (c : σ) (groups left : List UInt8) : Prop where
  unsigned : groupSum groups < 2 ^ 32 →
    ∃ v : UInt32, v.toNat = groupSum groups ∧ mapState Cursor.rest (readWord 0 0 c) = .ok v left
  beyond : 2 ^ 32 ≤ groupSum groups → mapState Cursor.rest (readWord 0 0 c) = .error .integerOverflow left
  signed : ∃ v : Int32, mapState Cursor.rest (readSignedWord 0 0 c) = .ok v left ∧
    v.toInt % 2 ^ 32 =
      ((groupSum groups : Int) - if signBit groups then 2 ^ (7 * groups.length) else 0) % 2 ^ 32

def BothFail (c : σ) (e : DecodeError) (left : List UInt8) : Prop :=
  mapState Cursor.rest (readWord 0 0 c) = .error e left ∧ mapState Cursor.rest (readSignedWord 0 0 c) = .error e left

variable [LawfulCursor σ]

/-- Readers take from a cursor what they take from the list of the bytes that are left in it. -/
theorem follows_law : ReaderLaw (σ := List UInt8) (τ := σ) (Follows Cursor.rest) :=
  ⟨.pure, .throw, .bind, byte_follows⟩

theorem readsSum_of_ended {c : σ} {left : List UInt8} (ended : Ended groups) (few : groups.length ≤ maxGroups)
    (rest : Cursor.rest c = groups ++ left) : ReadsSum c groups left := by
  have unsigned : mapState Cursor.rest (readU32 c) = _ :=
    (follows_law.u32 c).symm.trans (rest ▸ readUnsigned_ended ended few left)
  have signed : mapState Cursor.rest (readS32 c) = _ :=
    (follows_law.s32 c).symm.trans (rest ▸ readSigned_groups ended 0 few left)
  rw [← readWord_eq_readU32] at unsigned
  rw [← readSignedWord_eq_readS32] at signed
  rw [Nat.zero_add, Nat.mul_one, ← groupSum_eq_value] at unsigned
  rw [Int.pow_zero, Int.mul_one, Int.natCast_zero, Int.zero_add, signedValue_eq ended] at signed
  refine ⟨?_, ?_, ?_⟩
  · intro small
    exact ⟨UInt32.ofNat (groupSum groups), Nat.mod_eq_of_lt small, unsigned.trans (if_pos small)⟩
  · intro large
    exact unsigned.trans (if_neg (Nat.not_lt.mpr large))
  · refine ⟨_, signed, ?_⟩
    rw [Int32.toInt_ofInt]
    exact Int.bmod_emod

theorem bothFail_of_unended {c : σ} (highs : ∀ b ∈ (Cursor.rest c).take maxGroups, 128 ≤ b.toNat) :
    BothFail c (if (Cursor.rest c).length < maxGroups then .unexpectedEof else .integerOverflow)
      ((Cursor.rest c).drop maxGroups) := by
  unfold BothFail
  rw [readWord_eq_readU32, readSignedWord_eq_readS32]
  exact ⟨(follows_law.u32 c).symm.trans (unsigned_takesGroups.unended highs),
    (follows_law.s32 c).symm.trans (signed_takesGroups.unended highs)⟩

/-- Both readers are loops over words. On every cursor, a number of up to five bytes is read to its last byte and no
further, as the sum that its bytes stand for; bytes that break off before are all read and are too few; and of bytes that
go on, five are read and are too many. -/
theorem readers_compute_sum (c : σ) :
    ((readU32 : Reader σ UInt32) = readWord 0 0 ∧ (readS32 : Reader σ Int32) = readSignedWord 0 0) ∧
    (∀ n, groupCount? (Cursor.rest c) = some n → n ≤ 5 →
      ReadsSum c ((Cursor.rest c).take n) ((Cursor.rest c).drop n)) ∧
    (groupCount? (Cursor.rest c) = none → (Cursor.rest c).length < 5 → BothFail c .unexpectedEof []) ∧
    (5 ≤ (Cursor.rest c).length → (∀ b ∈ (Cursor.rest c).take 5, b.toNat.testBit 7 = true) →
      BothFail c .integerOverflow ((Cursor.rest c).drop 5)) := by
  refine ⟨⟨readWord_eq_readU32.symm, readSignedWord_eq_readS32.symm⟩, ?_, ?_, ?_⟩
  · intro n known few
    obtain ⟨_, ended⟩ := ended_of_count known
    exact readsSum_of_ended ended (Nat.le_trans (List.length_take_le n _) few) (List.take_append_drop n _).symm
  · intro none short
    have fail := bothFail_of_unended fun b member => highs_of_count none b (List.mem_of_mem_take member)
    have ended : (Cursor.rest c).drop maxGroups = [] := List.drop_eq_nil_of_le (Nat.le_of_lt short)
    rwa [if_pos (show (Cursor.rest c).length < maxGroups from short), ended] at fail
  · intro long highs
    have fail := bothFail_of_unended fun b member => (testBit_top b).mp (highs b member)
    rwa [if_neg (show ¬ (Cursor.rest c).length < maxGroups from Nat.not_lt.mpr long)] at fail

/-- Behind its first byte, the buffer holds the lowest integer of 32 bits and one more byte. Without a sign, the number is
too large. -/
def lowest : Buffer := Buffer.seek 1 (.ofBytes [0x01, 0x80, 0x80, 0x80, 0x80, 0x78, 0x02])

/-- No byte of this stack ends a number. -/
def brokenOff : ByteStack := ⟨#[0xff, 0x80]⟩

/-- A number of six bytes. -/
def overlong : ByteStack := ⟨#[0x00, 0x80, 0x80, 0x80, 0x80, 0x80]⟩

theorem edges_read :
    (groupCount? (Cursor.rest lowest) = some 5 ∧ groupSum [0x80, 0x80, 0x80, 0x80, 0x78] = 2 ^ 35 - 2 ^ 31 ∧
      mapState Cursor.rest (readWord 0 0 lowest) = .error .integerOverflow [0x02] ∧
      ∃ v : Int32, mapState Cursor.rest (readSignedWord 0 0 lowest) = .ok v [0x02] ∧ v.toInt % 2 ^ 32 = 2 ^ 31) ∧
    BothFail brokenOff .unexpectedEof [] ∧ BothFail overlong .integerOverflow [0x00] := by
  have known : groupCount? (Cursor.rest lowest) = some 5 := by decide
  have sum := (readers_compute_sum lowest).2.1 5 known (Nat.le_refl 5)
  refine ⟨⟨known, by decide, sum.beyond (by decide), ?_⟩, ?_, ?_⟩
  · obtain ⟨v, read, same⟩ := sum.signed
    exact ⟨v, read, same.trans (by decide)⟩
  · exact (readers_compute_sum brokenOff).2.2.1 (by decide) (by decide)
  · refine (readers_compute_sum overlong).2.2.2 (Nat.le_succ 5) ?_
    intro b member
    obtain rfl : b = 0x80 := List.eq_of_mem_replicate (show b ∈ List.replicate 5 0x80 from member)
    decide

end Reading

section Writing

variable [Cursor σ]

/-- These bytes are read as the value wherever they stand, and no fewer bytes ever are. -/
structure ShortestForm (read : Reader σ α) (written : List UInt8) (v : α) : Prop where
  positive : 1 ≤ written.length
  bounded : written.length ≤ 5
  readBack : ∀ c rest, Cursor.rest c = written ++ rest → mapState Cursor.rest (read c) = .ok v rest
  shortest : ∀ c after, read c = .ok v after → written.length + (Cursor.rest after).length ≤ (Cursor.rest c).length

theorem shortestForm_of_codec {read : Reader σ α} {listRead : Reader (List UInt8) α} {encode : α → List UInt8} {v : α}
    (codec : Codec listRead encode fun _ => True) (follows : Follows Cursor.rest listRead read)
    (ended : Ended (encode v)) (few : (encode v).length ≤ maxGroups) : ShortestForm read (encode v) v where
  positive := ended.positive
  bounded := few
  readBack c rest left := by
    have short : (encode v).length < UInt32.size := Nat.lt_of_le_of_lt few (by decide)
    rw [← follows c, left]
    exact codec.reads v trivial short rest
  shortest c after outcome := by
    have seen := follows c
    rw [outcome] at seen
    exact (codec.image _ _ _ seen).2

/-- Every number is written in one to five bytes, which are read back as it on every cursor; and no fewer bytes are read as
it. The writers end by themselves: they write the same however many more groups they may take, and the same as the loops
that shift words down and are not told how many they may take. -/
theorem written_in_shortest_form [LawfulCursor σ] :
    (∀ v : UInt32, ShortestForm (readU32 : Reader σ UInt32) (encodeU32 v) v ∧
      (∀ allowed, 5 ≤ allowed → unsignedGroups allowed v.toNat = encodeU32 v) ∧ writeWord v = encodeU32 v) ∧
    (∀ v : Int32, ShortestForm (readS32 : Reader σ Int32) (encodeS32 v) v ∧
      (∀ allowed, 5 ≤ allowed → signedGroups allowed v.toInt = encodeS32 v) ∧ writeSignedWord v = encodeS32 v) := by
  refine ⟨?_, ?_⟩
  · intro v
    obtain ⟨ended, _, few⟩ := encodeU32_spec v
    exact ⟨shortestForm_of_codec u32 follows_law.u32 ended few, fun _ enough => unsignedGroups_allowed ended enough,
      writeWord_eq_encodeU32 v⟩
  · intro v
    obtain ⟨ended, _, few⟩ := encodeS32_spec v
    exact ⟨shortestForm_of_codec s32 follows_law.s32 ended few, fun _ enough => signedGroups_allowed ended enough,
      writeSignedWord_eq_encodeS32 v⟩

/-- Numbers at the ends of their ranges, and on either side of where one group is no longer enough. -/
theorem extremes_in_shortest_form :
    ShortestForm (readU32 : Reader ByteStack UInt32) [0xff, 0xff, 0xff, 0xff, 0x0f] 4294967295 ∧
    ShortestForm (readS32 : Reader ByteStack Int32) [0x80, 0x80, 0x80, 0x80, 0x78] (-2147483648) ∧
    ShortestForm (readS32 : Reader ByteStack Int32) [0x3f] 63 ∧
    ShortestForm (readS32 : Reader ByteStack Int32) [0xc0, 0x00] 64 := by
  obtain ⟨unsigned, signed⟩ := written_in_shortest_form (σ := ByteStack)
  exact ⟨(unsigned 4294967295).1, (signed (-2147483648)).1, (signed 63).1, (signed 64).1⟩

end Writing

end WasmMachine.Proofs.Leb128Values

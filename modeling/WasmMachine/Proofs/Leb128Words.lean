import Mathlib.Data.Nat.Bitwise
import WasmMachine.Proofs.Leb128Codec

/-! LEB128 with shifts and masks. To read, each group is shifted to its place in a word of 64 bits, and it is the place of
the next group that tells when there are too many; to write, a word is shifted down until all that is left is its sign.
These loops keep no count of groups and know no numbers but words. They come to the same as the readers and writers that
do sums: where no bits are set from a place on, setting those of a group adds it, and setting all of them takes the power
of the place away. -/

namespace WasmMachine.Proofs.Leb128Words
open Leb128Codec Leb128

section Loops

variable {σ : Type} [Cursor σ]

/-- Reads groups into a word; the next one goes to the bit `shift`, which moves on only after a group that is not the
last. -/
def readWord (shift : Nat) (word : UInt64) : Reader σ UInt32 := do
  let b ← Reader.byte
  let word := word ||| (b &&& 0x7f).toUInt64 <<< UInt64.ofNat shift
  if b &&& 0x80 = 0 then
    if word ≤ 0xffffffff then return word.toUInt32 else throw .integerOverflow
  else
    let shift := shift + 7
    if 35 ≤ shift then throw .integerOverflow else readWord shift word
termination_by 35 - shift

/-- Reads groups into a word with a sign. Here `shift` moves on after every group; below bit 32 it is then the place from
which on a negative number has all bits set. -/
def readSignedWord (shift : Nat) (word : Int64) : Reader σ Int32 := do
  let b ← Reader.byte
  let word := word ||| (b &&& 0x7f).toUInt64.toInt64 <<< Int64.ofNat shift
  let shift := shift + 7
  if b &&& 0x80 = 0 then
    if shift < 32 ∧ b &&& 0x40 ≠ 0 then return (word ||| ~~~0 <<< Int64.ofNat shift).toInt32
    else return word.toInt32
  else if 35 ≤ shift then throw .integerOverflow
  else readSignedWord shift word
termination_by 35 - shift

theorem toNat_down (v : UInt32) : (v >>> 7).toNat = v.toNat / 128 := by
  rw [UInt32.toNat_shiftRight]
  exact Nat.shiftRight_eq_div_pow _ 7

theorem toInt_down (v : Int32) : (v >>> 7).toInt = v.toInt / 128 := by
  have place : ((7 : Int32).toBitVec.smod 32).toNat = 7 := by decide
  calc (v >>> 7).toBitVec.toInt = (v.toBitVec.sshiftRight 7).toInt := by
        rw [Int32.toBitVec_shiftRight, BitVec.sshiftRight_eq', place]
    _ = v.toInt / 128 := by
        rw [BitVec.toInt_sshiftRight, Int.shiftRight_eq_div_pow]
        rfl

/-- Writes a word group by group, until no bits are left. -/
def writeWord (v : UInt32) : List UInt8 :=
  let b := (v &&& 0x7f).toUInt8
  let rest := v >>> 7
  if rest = 0 then [b] else (b ||| 0x80) :: writeWord rest
termination_by v.toNat
decreasing_by
  rename_i more
  rw [← UInt32.toNat_inj, toNat_down] at more
  rw [toNat_down]
  exact Nat.div_lt_self (Nat.pos_of_ne_zero fun zero => more (by rw [zero]; rfl)) (by decide)

/-- Writes a word group by group, until all bits that are left are copies of the sign, and the last group shows it. -/
def writeSignedWord (v : Int32) : List UInt8 :=
  let b := (v &&& 0x7f).toUInt32.toUInt8
  let rest := v >>> 7
  if (rest = 0 ∧ b &&& 0x40 = 0) ∨ (rest = -1 ∧ b &&& 0x40 ≠ 0) then [b] else (b ||| 0x80) :: writeSignedWord rest
termination_by v.toInt.natAbs
decreasing_by
  rename_i more
  rw [toInt_down]
  refine Nat.lt_of_not_le fun same => more ?_
  -- Shifting down does not change zero and minus one, but these are written in one group.
  have fixed : v.toInt = 0 ∨ v.toInt = -1 := by omega
  rcases fixed with zero | minus
  · obtain rfl : v = 0 := Int32.toInt.inj zero
    decide
  · obtain rfl : v = -1 := Int32.toInt.inj minus
    decide

end Loops

section Bits

variable {b : UInt8} {n : Nat}

theorem testBit_top (b : UInt8) : b.toNat.testBit 7 = true ↔ 128 ≤ b.toNat := by
  have less := b.toNat_lt
  simp only [Nat.testBit_eq_decide_div_mod_eq, decide_eq_true_eq]
  omega

theorem testBit_sign (b : UInt8) : b.toNat.testBit 6 = true ↔ ¬ b.toNat % 128 < 64 := by
  simp only [Nat.testBit_eq_decide_div_mod_eq, decide_eq_true_eq]
  omega

theorem toNat_low (b : UInt8) : (b &&& 0x7f).toNat = b.toNat % 128 := by
  rw [UInt8.toNat_and]
  exact Nat.and_two_pow_sub_one_eq_mod _ 7

/-- A mask of one bit asks for that bit. -/
theorem and_eq_zero {mask : UInt8} {i : Nat} (single : mask.toNat = 2 ^ i) :
    b &&& mask = 0 ↔ ¬ b.toNat.testBit i = true := by
  rw [← UInt8.toNat_inj, UInt8.toNat_and, single, Nat.and_two_pow]
  cases b.toNat.testBit i <;> simp

theorem and_top (b : UInt8) : b &&& 0x80 = 0 ↔ b.toNat < 128 := by
  rw [and_eq_zero (i := 7) rfl, testBit_top, Nat.not_le]

theorem and_sign (low : b.toNat < 128) : b &&& 0x40 = 0 ↔ b.toNat < 64 := by
  rw [and_eq_zero (i := 6) rfl, testBit_sign]
  omega

/-- Bits from a place on are added to a number below it. -/
theorem or_above {place : Nat} (below : n < 2 ^ place) (high : Nat) : n ||| high * 2 ^ place = n + high * 2 ^ place := by
  rw [Nat.or_comm, ← Nat.shiftLeft_eq, ← Nat.shiftLeft_add_eq_or_of_lt below, Nat.add_comm]

theorem or_top (low : n < 128) : n.toUInt8 ||| 0x80 = (n + 128).toUInt8 := by
  apply UInt8.toNat.inj
  rw [UInt8.toNat_or, toNat_group (by omega), toNat_group (by omega)]
  exact or_above (show n < 2 ^ 7 from low) 1

end Bits

section Words

variable {word : UInt64} {place : Nat}

theorem toNat_shifted (x : UInt64) (small : place < 64) :
    (x <<< UInt64.ofNat place).toNat = x.toNat * 2 ^ place % 2 ^ 64 := by
  have whole : (UInt64.ofNat place).toNat % 64 = place := by
    rw [UInt64.toNat_ofNat']
    omega
  rw [UInt64.toNat_shiftLeft, whole, Nat.shiftLeft_eq]

theorem toNat_placed (below : word.toNat < 2 ^ place) (small : place + 7 ≤ 64) (b : UInt8) :
    (word ||| (b &&& 0x7f).toUInt64 <<< UInt64.ofNat place).toNat = word.toNat + b.toNat % 128 * 2 ^ place := by
  have fits : b.toNat % 128 * 2 ^ place < 2 ^ 64 :=
    calc b.toNat % 128 * 2 ^ place < 2 ^ 7 * 2 ^ place :=
          Nat.mul_lt_mul_of_pos_right (Nat.mod_lt _ (by decide)) (Nat.two_pow_pos place)
      _ = 2 ^ (7 + place) := (Nat.pow_add 2 7 place).symm
      _ ≤ 2 ^ 64 := Nat.pow_le_pow_right (by decide) (by omega)
  rw [UInt64.toNat_or, toNat_shifted _ (by omega), UInt8.toNat_toUInt64, toNat_low, Nat.mod_eq_of_lt fits, or_above below]

/-- With all bits set from a place on, a word below that place is less than the whole by the power of the place. -/
theorem toNat_extended (below : word.toNat < 2 ^ place) (small : place < 64) :
    (word ||| ~~~0 <<< UInt64.ofNat place).toNat + 2 ^ place = word.toNat + 2 ^ 64 := by
  have whole : 2 ^ 64 = 2 ^ (64 - place) * 2 ^ place := by
    rw [← Nat.pow_add, Nat.sub_add_cancel (Nat.le_of_lt small)]
  obtain ⟨ones, count⟩ := Nat.exists_eq_add_of_lt (Nat.two_pow_pos (64 - place))
  obtain ⟨low, size⟩ := Nat.exists_eq_add_of_lt (Nat.two_pow_pos place)
  have shifted : (~~~0 <<< UInt64.ofNat place : UInt64).toNat = ones * 2 ^ place := by
    have all : (~~~0 : UInt64).toNat = ones + 2 ^ (64 - place) * low := by
      rw [show (~~~0 : UInt64).toNat = 2 ^ 64 - 1 from rfl, whole, size, count]
      exact Nat.sub_eq_of_eq_add (by ring)
    rw [toNat_shifted _ small, all, whole, Nat.mul_mod_mul_right, Nat.add_mul_mod_self_left, Nat.mod_eq_of_lt (by omega)]
  rw [UInt64.toNat_or, shifted, or_above below, whole, count]
  ring

theorem toNat_smod (small : place < 64) : ((Int64.ofNat place).toBitVec.smod 64).toNat = place := by
  have toNat : (Int64.ofNat place).toBitVec.toNat = place := by
    rw [Int64.toBitVec_ofNat', BitVec.toNat_ofNat]
    omega
  have positive : (Int64.ofNat place).toBitVec.msb = false := by
    rw [BitVec.msb_eq_false_iff_two_mul_lt, toNat]
    omega
  rw [BitVec.smod_eq, positive, show (64 : BitVec 64).msb = false by decide]
  simp only [BitVec.umod_eq, BitVec.toNat_umod, toNat]
  exact Nat.mod_eq_of_lt small

/-- Shifting up is the same with and without a sign. -/
theorem toUInt64_shifted (x : Int64) (small : place < 64) :
    (x <<< Int64.ofNat place).toUInt64 = x.toUInt64 <<< UInt64.ofNat place := by
  apply UInt64.toNat.inj
  rw [toNat_shifted _ small, ← Nat.shiftLeft_eq]
  calc (x <<< Int64.ofNat place).toBitVec.toNat = (x.toBitVec <<< (Int64.ofNat place).toBitVec.smod 64).toNat := by
        rw [Int64.toBitVec_shiftLeft]
    _ = x.toUInt64.toNat <<< place % 2 ^ 64 := by
        rw [BitVec.shiftLeft_eq', BitVec.toNat_shiftLeft, toNat_smod small]
        rfl

theorem toInt32_eq (x : Int64) : x.toInt32 = Int32.ofInt x.toUInt64.toNat := by
  apply Int32.toInt.inj
  have bits : x.toInt = (x.toUInt64.toNat : Int).bmod (2 ^ 64) := BitVec.toInt_eq_toNat_bmod x.toBitVec
  rw [Int64.toInt_toInt32, Int32.toInt_ofInt, bits]
  exact Int.bmod_bmod_of_dvd (by decide)

theorem ofInt_extended (below : word.toNat < 2 ^ place) (small : place < 64) :
    Int32.ofInt (word ||| ~~~0 <<< UInt64.ofNat place).toNat = Int32.ofInt (word.toNat - (2 ^ place : Nat)) := by
  have sum := toNat_extended below small
  have multiple : (word.toNat : Int) - (2 ^ place : Nat) =
      (word ||| ~~~0 <<< UInt64.ofNat place).toNat - 2 ^ 32 * 2 ^ 32 := by omega
  rw [multiple, ofInt_sub_mul]

end Words

section Reading

variable {σ : Type} [Cursor σ]

/-- The groups that have been read are in the word, and all of its bits above them are clear. -/
structure Holds (done : Nat) (word : UInt64) (sum : Nat) : Prop where
  toNat : word.toNat = sum
  below : sum < 2 ^ (7 * done)

theorem weight_next (done : Nat) : 2 ^ (7 * (done + 1)) = 2 ^ (7 * done) * 128 := Nat.pow_add 2 (7 * done) 7

theorem Holds.next {done sum : Nat} {word : UInt64} (holds : Holds done word sum) (few : done < maxGroups) (b : UInt8) :
    Holds (done + 1) (word ||| (b &&& 0x7f).toUInt64 <<< UInt64.ofNat (7 * done))
      (sum + b.toNat % 128 * 2 ^ (7 * done)) := by
  obtain ⟨rfl, below⟩ := holds
  have small : 7 * done + 7 ≤ 64 := by
    unfold maxGroups at few
    omega
  refine ⟨toNat_placed below small b, ?_⟩
  calc word.toNat + b.toNat % 128 * 2 ^ (7 * done) < 2 ^ (7 * done) + 127 * 2 ^ (7 * done) :=
        Nat.add_lt_add_of_lt_of_le below (Nat.mul_le_mul_right _ (by omega))
    _ = 2 ^ (7 * (done + 1)) := by
        rw [weight_next]
        ring

/-- The place is past the fifth group exactly when no more groups are allowed. -/
theorem full_iff {allowed done : Nat} (left : done + (allowed + 1) = maxGroups) : 35 ≤ 7 * done + 7 ↔ allowed = 0 := by
  unfold maxGroups at left
  omega

theorem readWord_eq {allowed done sum : Nat} {word : UInt64} (holds : Holds done word sum)
    (left : done + (allowed + 1) = maxGroups) :
    (readWord (7 * done) word : Reader σ UInt32) = readUnsigned (allowed + 1) (2 ^ (7 * done)) sum := by
  unfold readWord readUnsigned
  refine congrArg (Reader.byte >>= ·) (funext fun b => ?_)
  have next := holds.next (by omega) b
  simp only [and_top, full_iff left]
  split
  · have fits : word ||| (b &&& 0x7f).toUInt64 <<< UInt64.ofNat (7 * done) ≤ 0xffffffff ↔
        sum + b.toNat % 128 * 2 ^ (7 * done) < UInt32.size := by
      rw [UInt64.le_iff_toNat_le, next.toNat]
      exact Nat.lt_succ_iff.symm
    simp only [fits, ← next.toNat]
    rfl
  · cases allowed with
    | zero => rfl
    | succ allowed =>
      rw [if_neg (Nat.succ_ne_zero allowed), ← weight_next]
      exact readWord_eq next (by omega)

theorem readSignedWord_eq {allowed done sum : Nat} {word : Int64} (holds : Holds done word.toUInt64 sum)
    (left : done + (allowed + 1) = maxGroups) :
    (readSignedWord (7 * done) word : Reader σ Int32) = readSigned (allowed + 1) (2 ^ (7 * done)) sum := by
  have few : done < 5 := Nat.lt_of_lt_of_eq (by omega) left
  unfold readSignedWord readSigned
  refine congrArg (Reader.byte >>= ·) (funext fun b => ?_)
  have next := holds.next few b
  rw [← UInt64.toUInt64_toInt64 (b &&& 0x7f).toUInt64, ← toUInt64_shifted _ (by omega), ← Int64.toUInt64_or] at next
  generalize word ||| (b &&& 0x7f).toUInt64.toInt64 <<< Int64.ofNat (7 * done) = longer at next ⊢
  simp only [and_top, full_iff left]
  split
  next low =>
    have kept : 7 * done + 7 < 32 ↔ 2 ^ (7 * done) * 128 < UInt32.size := by
      rw [← weight_next]
      exact (Nat.pow_lt_pow_iff_right (by decide : 1 < 2)).symm
    simp only [kept, Ne, and_sign low, Nat.not_lt]
    split
    · have below : longer.toUInt64.toNat < 2 ^ (7 * done + 7) := next.toNat ▸ next.below
      rw [toInt32_eq, Int64.toUInt64_or, toUInt64_shifted _ (by omega), ← weight_next, ← next.toNat]
      exact congrArg _ (ofInt_extended below (by omega))
    · rw [toInt32_eq, next.toNat]
  · cases allowed with
    | zero => rfl
    | succ allowed =>
      rw [if_neg (Nat.succ_ne_zero allowed), ← weight_next]
      exact readSignedWord_eq next (by omega)

theorem holds_nothing : Holds 0 0 0 := ⟨rfl, Nat.one_pos⟩

theorem readWord_eq_readU32 : (readWord 0 0 : Reader σ UInt32) = readU32 := readWord_eq holds_nothing rfl

theorem readSignedWord_eq_readS32 : (readSignedWord 0 0 : Reader σ Int32) = readS32 :=
  readSignedWord_eq holds_nothing rfl

end Reading

section Writing

theorem group_eq (v : UInt32) : (v &&& 0x7f).toUInt8 = (v.toNat % 128).toUInt8 := by
  apply UInt8.toNat.inj
  rw [toNat_group (by omega), UInt32.toNat_toUInt8, UInt32.toNat_and, show UInt32.toNat 0x7f = 2 ^ 7 - 1 from rfl,
    Nat.and_two_pow_sub_one_eq_mod]
  omega

theorem signedGroup_eq (v : Int32) : (v &&& 0x7f).toUInt32.toUInt8 = (v.toInt % 128).toNat.toUInt8 := by
  have bits : v.toInt = (v.toUInt32.toNat : Int).bmod (2 ^ 32) := BitVec.toInt_eq_toNat_bmod v.toBitVec
  have same : v.toInt % 2 ^ 32 = v.toUInt32.toNat % 2 ^ 32 := bits ▸ Int.bmod_emod
  have low : v.toUInt32.toNat % 128 = (v.toInt % 128).toNat := by omega
  rw [Int32.toUInt32_and, show (0x7f : Int32).toUInt32 = 0x7f from rfl, group_eq, low]

theorem writeWord_eq (k : Nat) (v : UInt32) (small : v.toNat < 128 ^ (k + 1)) :
    writeWord v = unsignedGroups (k + 1) v.toNat := by
  have down := toNat_down v
  have ends : v >>> 7 = 0 ↔ v.toNat < 128 := by
    rw [← UInt32.toNat_inj, down]
    exact Nat.div_eq_zero_iff_lt (by decide)
  unfold writeWord unsignedGroups
  simp only [ends, group_eq, or_top (Nat.mod_lt v.toNat (show 0 < 128 by decide))]
  split
  next last => rw [Nat.mod_eq_of_lt last]
  next more =>
    cases k with
    | zero => exact absurd (by simpa using small) more
    | succ k =>
      have less : (v >>> 7).toNat < 128 ^ (k + 1) := by
        rw [down]
        exact Nat.div_lt_of_lt_mul (by rw [Nat.mul_comm]; exact small)
      rw [writeWord_eq k (v >>> 7) less, down]

theorem writeSignedWord_eq (k : Nat) (v : Int32) (lower : -(64 * 128 ^ k) ≤ v.toInt) (upper : v.toInt < 64 * 128 ^ k) :
    writeSignedWord v = signedGroups (k + 1) v.toInt := by
  have down := toInt_down v
  have zero : v >>> 7 = 0 ↔ v.toInt / 128 = 0 := by
    rw [← Int32.toInt_inj, down]
    rfl
  have minus : v >>> 7 = -1 ↔ v.toInt / 128 = -1 := by
    rw [← Int32.toInt_inj, down]
    rfl
  have low : (v.toInt % 128).toNat < 128 := by omega
  have group : (v.toInt % 128).toNat.toUInt8.toNat = (v.toInt % 128).toNat := toNat_group (by omega)
  have sign := and_sign (group.trans_lt low)
  rw [group] at sign
  unfold writeSignedWord signedGroups
  simp only [zero, minus, signedGroup_eq, sign, or_top low, Ne, Nat.not_lt]
  split
  · rfl
  next more =>
    cases k with
    | zero =>
      -- All integers of seven bits end with their only group.
      exfalso
      rw [Int.pow_zero] at lower upper
      omega
    | succ k =>
      rw [Int.pow_succ] at lower upper
      rw [writeSignedWord_eq k (v >>> 7) (by omega) (by omega), down]

theorem writeWord_eq_encodeU32 (v : UInt32) : writeWord v = encodeU32 v :=
  writeWord_eq 4 v (Nat.lt_trans v.toNat_lt (by decide))

theorem writeSignedWord_eq_encodeS32 (v : Int32) : writeSignedWord v = encodeS32 v := by
  have lower := v.le_toInt
  have upper := v.toInt_lt
  exact writeSignedWord_eq 4 v (by omega) (by omega)

end Writing

end WasmMachine.Proofs.Leb128Words

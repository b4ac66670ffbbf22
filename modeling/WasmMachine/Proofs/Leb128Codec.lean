import Mathlib.Tactic.Ring
import WasmMachine.Proofs.ByteCodec

/-! LEB128 integers are read back, and written in as few groups as any that are read as the same integer.
Reading and writing are both compared with the number that the groups stand for. -/

namespace WasmMachine.Proofs.Leb128Codec
open Sequencing ByteCodec Leb128

/-- The groups of one number: all bytes but the last have their top bit set. -/
inductive Ended : List UInt8 → Prop where
  | last {b} (low : b.toNat < 128) : Ended [b]
  | more {b groups} (high : 128 ≤ b.toNat) (rest : Ended groups) : Ended (b :: groups)

def value : List UInt8 → Nat
  | [] => 0
  | b :: groups => b.toNat % 128 + 128 * value groups

/-- The number for which the groups stand in two's complement, where bit 6 of the last group is the sign. -/
def signedValue : List UInt8 → Int
  | [] => 0
  | [b] => if b.toNat % 128 < 64 then b.toNat % 128 else b.toNat % 128 - 128
  | b :: groups => b.toNat % 128 + 128 * signedValue groups

theorem Ended.positive {groups : List UInt8} (ended : Ended groups) : 0 < groups.length := by
  cases ended <;> exact Nat.zero_lt_succ _

theorem Ended.tail {b : UInt8} {groups : List UInt8} (ended : Ended (b :: groups)) (high : 128 ≤ b.toNat) : Ended groups := by
  cases ended with
  | last low => omega
  | more _ rest => exact rest

theorem signedValue_more {b : UInt8} {groups : List UInt8} (ended : Ended groups) :
    signedValue (b :: groups) = b.toNat % 128 + 128 * signedValue groups := by
  cases ended <;> rfl

theorem value_bound (groups : List UInt8) : value groups < 128 ^ groups.length := by
  induction groups with
  | nil => exact Nat.one_pos
  | cons g others ih =>
    rw [value, List.length_cons, Nat.pow_succ]
    omega

/-- All groups but the last one have their top bit set. -/
theorem Ended.split {groups : List UInt8} (ended : Ended groups) :
    ∃ front last, groups = front ++ [last] ∧ (∀ g ∈ front, 128 ≤ g.toNat) ∧ last.toNat < 128 := by
  induction ended with
  | last low => exact ⟨[], _, rfl, fun _ member => absurd member List.not_mem_nil, low⟩
  | more high _ ih =>
    obtain ⟨front, last, rfl, highs, low⟩ := ih
    exact ⟨_ :: front, last, rfl, List.forall_mem_cons.mpr ⟨high, highs⟩, low⟩

theorem value_split (front : List UInt8) (last : UInt8) :
    value (front ++ [last]) = value front + 128 ^ front.length * (last.toNat % 128) := by
  induction front with
  | nil => simp [value]
  | cons g others ih =>
    rw [List.cons_append, value, ih, value, List.length_cons]
    ring

theorem signedValue_split (front : List UInt8) (last : UInt8) :
    signedValue (front ++ [last]) = value front + 128 ^ front.length * signedValue [last] := by
  induction front with
  | nil => simp [value]
  | cons g others ih =>
    have step : signedValue (g :: (others ++ [last])) = g.toNat % 128 + 128 * signedValue (others ++ [last]) := by
      cases others <;> rfl
    rw [List.cons_append, step, ih, value, List.length_cons]
    push_cast
    ring

theorem signedValue_range {b : UInt8} {groups : List UInt8} (ended : Ended (b :: groups)) :
    -(64 * 128 ^ groups.length) ≤ signedValue (b :: groups) ∧
      signedValue (b :: groups) < 64 * 128 ^ groups.length := by
  induction groups generalizing b with
  | nil =>
    simp only [signedValue, List.length_nil, Int.pow_zero]
    split <;> omega
  | cons next groups ih =>
    cases ended with
    | more high rest =>
      obtain ⟨lower, upper⟩ := ih rest
      rw [signedValue_more rest, List.length_cons, Int.pow_succ]
      omega

section Writing

theorem toNat_group {n : Nat} (small : n < 256) : n.toUInt8.toNat = n := by
  simp [Nat.mod_eq_of_lt small]

/-- A number below `128 ^ (k + 1)` is written in at most `k + 1` groups. -/
theorem unsignedGroups_spec (k allowed n : Nat) (room : k < allowed) (small : n < 128 ^ (k + 1)) :
    Ended (unsignedGroups allowed n) ∧ value (unsignedGroups allowed n) = n ∧
      (unsignedGroups allowed n).length ≤ k + 1 := by
  obtain ⟨allowed, rfl⟩ : ∃ others, allowed = others + 1 := ⟨allowed - 1, by omega⟩
  by_cases last : n < 128
  · have group : n.toUInt8.toNat = n := toNat_group (by omega)
    simp only [unsignedGroups, last, if_true]
    refine ⟨.last (by omega), ?_, by simp⟩
    simp only [value, group]
    omega
  · have group : (n % 128 + 128).toUInt8.toNat = n % 128 + 128 := toNat_group (by omega)
    simp only [unsignedGroups, last, if_false]
    cases k with
    | zero => exact absurd (by simpa using small) last
    | succ k =>
      have less : n / 128 < 128 ^ (k + 1) := Nat.div_lt_of_lt_mul (by rw [Nat.mul_comm]; exact small)
      obtain ⟨ended, same, length⟩ := unsignedGroups_spec k allowed (n / 128) (by omega) less
      refine ⟨.more (by omega) ended, ?_, Nat.succ_le_succ length⟩
      simp only [value, group, same]
      omega

/-- An integer whose sign bit is bit `7 * k + 6` or lower is written in at most `k + 1` groups. -/
theorem signedGroups_spec (k allowed : Nat) (n : Int) (room : k < allowed) (lower : -(64 * 128 ^ k) ≤ n)
    (upper : n < 64 * 128 ^ k) :
    Ended (signedGroups allowed n) ∧ signedValue (signedGroups allowed n) = n ∧
      (signedGroups allowed n).length ≤ k + 1 := by
  obtain ⟨allowed, rfl⟩ : ∃ others, allowed = others + 1 := ⟨allowed - 1, by omega⟩
  by_cases last : (n / 128 = 0 ∧ (n % 128).toNat < 64) ∨ (n / 128 = -1 ∧ 64 ≤ (n % 128).toNat)
  · have group : (n % 128).toNat.toUInt8.toNat = (n % 128).toNat := toNat_group (by omega)
    simp only [signedGroups, last, if_true]
    refine ⟨.last (by omega), ?_, by simp⟩
    simp only [signedValue, group]
    split <;> omega
  · have group : ((n % 128).toNat + 128).toUInt8.toNat = (n % 128).toNat + 128 := toNat_group (by omega)
    simp only [signedGroups, last, if_false]
    cases k with
    | zero =>
      -- All integers of seven bits end with their only group.
      exfalso
      rw [Int.pow_zero] at lower upper
      omega
    | succ k =>
      rw [Int.pow_succ] at lower upper
      obtain ⟨ended, same, length⟩ := signedGroups_spec k allowed (n / 128) (by omega) (by omega) (by omega)
      refine ⟨.more (by omega) ended, ?_, Nat.succ_le_succ length⟩
      rw [signedValue_more ended, group, same]
      omega

/-- Once the groups have ended, it makes no difference that more of them would be allowed. -/
theorem unsignedGroups_allowed {allowed more n : Nat} (ended : Ended (unsignedGroups allowed n)) (le : allowed ≤ more) :
    unsignedGroups more n = unsignedGroups allowed n := by
  induction allowed generalizing more n with
  | zero => cases ended
  | succ allowed ih =>
    obtain ⟨more, rfl⟩ : ∃ others, more = others + 1 := ⟨more - 1, by omega⟩
    by_cases last : n < 128
    · simp only [unsignedGroups, last, if_true]
    · have group : (n % 128 + 128).toUInt8.toNat = n % 128 + 128 := toNat_group (by omega)
      simp only [unsignedGroups, last, if_false] at ended ⊢
      rw [ih (ended.tail (by omega)) (Nat.le_of_succ_le_succ le)]

theorem signedGroups_allowed {allowed more : Nat} {n : Int} (ended : Ended (signedGroups allowed n)) (le : allowed ≤ more) :
    signedGroups more n = signedGroups allowed n := by
  induction allowed generalizing more n with
  | zero => cases ended
  | succ allowed ih =>
    obtain ⟨more, rfl⟩ : ∃ others, more = others + 1 := ⟨more - 1, by omega⟩
    by_cases last : (n / 128 = 0 ∧ (n % 128).toNat < 64) ∨ (n / 128 = -1 ∧ 64 ≤ (n % 128).toNat)
    · simp only [signedGroups, last, if_true]
    · have group : ((n % 128).toNat + 128).toUInt8.toNat = (n % 128).toNat + 128 := toNat_group (by omega)
      simp only [signedGroups, last, if_false] at ended ⊢
      rw [ih (ended.tail (by omega)) (Nat.le_of_succ_le_succ le)]

end Writing

section Reading

variable {allowed weight sum : Nat} {b : UInt8} {groups rest before after : List UInt8}

theorem readUnsigned_last (low : b.toNat < 128) :
    readUnsigned (allowed + 1) weight sum (b :: rest) =
      if sum + b.toNat % 128 * weight < UInt32.size then .ok (UInt32.ofNat (sum + b.toNat % 128 * weight)) rest
      else .error .integerOverflow rest := by
  refine (bind_of_ok (byte_cons b rest)).trans ?_
  simp only [low, if_true]
  split <;> rfl

theorem readUnsigned_more (high : 128 ≤ b.toNat) :
    readUnsigned (allowed + 1) weight sum (b :: rest) =
      readUnsigned allowed (weight * 128) (sum + b.toNat % 128 * weight) rest := by
  refine (bind_of_ok (byte_cons b rest)).trans ?_
  simp only [Nat.not_lt.mpr high, if_false]

/-- Whether the number fits into 32 bits is asked behind its last group, when all of it has been read. -/
theorem readUnsigned_ended (ended : Ended groups) (room : groups.length ≤ allowed) (rest : List UInt8) :
    readUnsigned allowed weight sum (groups ++ rest) =
      if sum + value groups * weight < UInt32.size then .ok (UInt32.ofNat (sum + value groups * weight)) rest
      else .error .integerOverflow rest := by
  obtain ⟨allowed, rfl⟩ : ∃ others, allowed = others + 1 := ⟨allowed - 1, by have := ended.positive; omega⟩
  induction ended generalizing allowed weight sum with
  | last low =>
    simp only [value, Nat.mul_zero, Nat.add_zero]
    exact readUnsigned_last low
  | @more b groups high ended ih =>
    have step : sum + value (b :: groups) * weight =
        sum + b.toNat % 128 * weight + value groups * (weight * 128) := by
      simp only [value]
      ring
    rw [step]
    have room' : groups.length ≤ allowed := Nat.le_of_succ_le_succ room
    obtain ⟨allowed, rfl⟩ : ∃ others, allowed = others + 1 := ⟨allowed - 1, by have := ended.positive; omega⟩
    exact (readUnsigned_more high).trans (ih allowed room')

theorem readUnsigned_groups (ended : Ended groups) (room : groups.length ≤ allowed)
    (fits : sum + value groups * weight < UInt32.size) (rest : List UInt8) :
    readUnsigned allowed weight sum (groups ++ rest) = .ok (UInt32.ofNat (sum + value groups * weight)) rest :=
  (readUnsigned_ended ended room rest).trans (if_pos fits)

theorem readUnsigned_image {n : UInt32} (outcome : readUnsigned allowed weight sum before = .ok n after) :
    ∃ groups, before = groups ++ after ∧ Ended groups ∧ groups.length ≤ allowed ∧
      n.toNat = sum + value groups * weight := by
  induction allowed generalizing weight sum before with
  | zero => cases outcome
  | succ allowed ih =>
    cases before with
    | nil => cases outcome
    | cons b others =>
      by_cases low : b.toNat < 128
      · rw [readUnsigned_last low] at outcome
        split at outcome
        next fits =>
          cases outcome
          refine ⟨[b], rfl, .last low, by simp, ?_⟩
          have whole : (UInt32.ofNat (sum + b.toNat % 128 * weight)).toNat = _ := Nat.mod_eq_of_lt fits
          rw [whole]
          simp [value]
        next => cases outcome
      · rw [readUnsigned_more (Nat.not_lt.mp low)] at outcome
        obtain ⟨groups, rfl, ended, room, same⟩ := ih outcome
        refine ⟨b :: groups, rfl, .more (Nat.not_lt.mp low) ended, Nat.succ_le_succ room, ?_⟩
        rw [same, value]
        ring

theorem readSigned_more (high : 128 ≤ b.toNat) :
    readSigned (allowed + 1) weight sum (b :: rest) =
      readSigned allowed (weight * 128) (sum + b.toNat % 128 * weight) rest := by
  refine (bind_of_ok (byte_cons b rest)).trans ?_
  simp only [Nat.not_lt.mpr high, if_false]

theorem ofInt_sub_mul (n factor : Int) : Int32.ofInt (n - 2 ^ 32 * factor) = Int32.ofInt n := by
  apply Int32.toInt.inj
  rw [Int32.toInt_ofInt, Int32.toInt_ofInt, Int.sub_eq_add_neg, ← Int.mul_neg]
  exact Int.add_mul_bmod_self_left n Int32.size (-factor)

/-- The last group ends the number with its sign. From the fifth group on the sign is beyond the 32 bits that
are kept, so it makes no difference there whether it is extended. -/
theorem readSigned_last (done : Nat) (low : b.toNat < 128) :
    readSigned (allowed + 1) (128 ^ done) sum (b :: rest) =
      .ok (Int32.ofInt (sum + signedValue [b] * 128 ^ done)) rest := by
  refine (bind_of_ok (byte_cons b rest)).trans ?_
  simp only [low, if_true]
  by_cases negative : 64 ≤ b.toNat
  · have sign : ¬ b.toNat % 128 < 64 := by omega
    have extended : (sum : Int) + signedValue [b] * 128 ^ done =
        ((sum + b.toNat % 128 * 128 ^ done : Nat) : Int) - (128 ^ done * 128 : Nat) := by
      simp only [signedValue, sign, if_false]
      push_cast
      ring
    rw [extended]
    split
    · rfl
    next beyond =>
      have many : 5 ≤ done + 1 := by
        refine Nat.lt_of_not_le fun few => beyond ⟨?_, negative⟩
        calc 128 ^ done * 128 = 128 ^ (done + 1) := (Nat.pow_succ ..).symm
          _ ≤ 128 ^ 4 := Nat.pow_le_pow_right (by decide) few
          _ < UInt32.size := by decide
      obtain ⟨more, rfl⟩ : ∃ more, done = more + 4 := ⟨done - 4, by omega⟩
      have multiple : ((128 ^ (more + 4) * 128 : Nat) : Int) = 2 ^ 32 * (8 * 128 ^ more) := by
        push_cast
        ring
      rw [multiple, ofInt_sub_mul]
      rfl
  · have sign : b.toNat % 128 < 64 := by omega
    have plain : (sum : Int) + signedValue [b] * 128 ^ done = (sum + b.toNat % 128 * 128 ^ done : Nat) := by
      simp only [signedValue, sign, if_true]
      push_cast
      ring
    rw [plain]
    simp only [negative, and_false, if_false]
    rfl

theorem readSigned_groups (ended : Ended groups) (done : Nat) (room : groups.length ≤ allowed) (rest : List UInt8) :
    readSigned allowed (128 ^ done) sum (groups ++ rest) =
      .ok (Int32.ofInt (sum + signedValue groups * 128 ^ done)) rest := by
  obtain ⟨allowed, rfl⟩ : ∃ others, allowed = others + 1 := ⟨allowed - 1, by have := ended.positive; omega⟩
  induction ended generalizing allowed sum done with
  | last low => exact readSigned_last done low
  | @more b groups high ended ih =>
    have step : (sum : Int) + signedValue (b :: groups) * 128 ^ done =
        (sum + b.toNat % 128 * 128 ^ done : Nat) + signedValue groups * 128 ^ (done + 1) := by
      rw [signedValue_more ended]
      push_cast
      ring
    rw [step]
    have room' : groups.length ≤ allowed := Nat.le_of_succ_le_succ room
    obtain ⟨allowed, rfl⟩ : ∃ others, allowed = others + 1 := ⟨allowed - 1, by have := ended.positive; omega⟩
    exact (readSigned_more high).trans (ih (done + 1) allowed room')

theorem readSigned_follows {σ : Type} [Cursor σ] [LawfulCursor σ] (allowed weight sum : Nat) :
    Follows (Cursor.rest (σ := σ)) (readSigned allowed weight sum) (readSigned allowed weight sum) := by
  induction allowed generalizing weight sum with
  | zero => exact Follows.throw _
  | succ allowed ih =>
    apply Follows.bind byte_follows
    intro b
    dsimp only
    split
    · split <;> exact Follows.pure _
    · exact ih _ _

theorem readSigned_image {n : Int32} (outcome : readSigned allowed weight sum before = .ok n after) :
    ∃ groups, before = groups ++ after ∧ Ended groups ∧ groups.length ≤ allowed := by
  induction allowed generalizing weight sum before with
  | zero => cases outcome
  | succ allowed ih =>
    cases before with
    | nil => cases outcome
    | cons b others =>
      by_cases low : b.toNat < 128
      · have outcome := (bind_of_ok (byte_cons b others)).symm.trans outcome
        simp only [low, if_true] at outcome
        have stopped : others = after := by
          split at outcome
          · exact (pure_eq_ok outcome).2
          · exact (pure_eq_ok outcome).2
        exact ⟨[b], by rw [stopped]; rfl, .last low, by simp⟩
      · rw [readSigned_more (Nat.not_lt.mp low)] at outcome
        obtain ⟨groups, rfl, ended, room⟩ := ih outcome
        exact ⟨b :: groups, rfl, .more (Nat.not_lt.mp low) ended, Nat.succ_le_succ room⟩

end Reading

theorem encodeU32_spec (n : UInt32) : Ended (encodeU32 n) ∧ value (encodeU32 n) = n.toNat ∧
    (encodeU32 n).length ≤ maxGroups :=
  unsignedGroups_spec 4 5 n.toNat (by decide) (Nat.lt_trans n.toNat_lt (by decide))

theorem encodeS32_spec (n : Int32) : Ended (encodeS32 n) ∧ signedValue (encodeS32 n) = n.toInt ∧
    (encodeS32 n).length ≤ maxGroups := by
  have lower := n.le_toInt
  have upper := n.toInt_lt
  exact signedGroups_spec 4 5 n.toInt (by decide) (by omega) (by omega)

theorem encodeU32_positive (n : UInt32) : 0 < (encodeU32 n).length := (encodeU32_spec n).1.positive

theorem encodeU32_mono {n larger : UInt32} (le : n ≤ larger) : (encodeU32 n).length ≤ (encodeU32 larger).length := by
  obtain ⟨ended, same, length⟩ := encodeU32_spec larger
  have less := value_bound (encodeU32 larger)
  rw [same] at less
  have positive := ended.positive
  obtain ⟨k, groups⟩ : ∃ k, (encodeU32 larger).length = k + 1 := ⟨(encodeU32 larger).length - 1, by omega⟩
  rw [groups] at less length ⊢
  exact (unsignedGroups_spec k 5 n.toNat length (Nat.lt_of_le_of_lt le less)).2.2

theorem u32_reads (n : UInt32) : Reads readU32 (encodeU32 n) n := by
  obtain ⟨ended, same, length⟩ := encodeU32_spec n
  have fits : 0 + value (encodeU32 n) * 1 < UInt32.size := by
    rw [same]
    simpa using n.toNat_lt
  intro rest
  refine (readUnsigned_groups ended length fits rest).trans ?_
  rw [same, Nat.mul_one, Nat.zero_add, UInt32.ofNat_toNat]

theorem s32_reads (n : Int32) : Reads readS32 (encodeS32 n) n := by
  obtain ⟨ended, same, length⟩ := encodeS32_spec n
  intro rest
  refine (readSigned_groups ended 0 length rest).trans ?_
  rw [same, Int.pow_zero, Int.mul_one]
  simp

theorem u32 : Codec readU32 encodeU32 (fun _ => True) where
  reads n _ _ := u32_reads n
  image before n after outcome := by
    obtain ⟨groups, rfl, ended, length, same⟩ := readUnsigned_image outcome
    have less := value_bound groups
    have positive := ended.positive
    obtain ⟨k, count⟩ : ∃ k, groups.length = k + 1 := ⟨groups.length - 1, by omega⟩
    rw [Nat.zero_add, Nat.mul_one] at same
    rw [count] at length
    rw [count, ← same] at less
    have shortest := (unsignedGroups_spec k 5 n.toNat length less).2.2
    refine ⟨trivial, ?_⟩
    rw [List.length_append, count]
    exact Nat.add_le_add_right shortest _

theorem s32 : Codec readS32 encodeS32 (fun _ => True) where
  reads n _ _ := s32_reads n
  image before n after outcome := by
    obtain ⟨groups, rfl, ended, length⟩ := readSigned_image outcome
    have result := (readSigned_groups ended 0 length after).symm.trans outcome
    obtain rfl : Int32.ofInt (signedValue groups) = n := by simpa using result
    refine ⟨trivial, ?_⟩
    rw [List.length_append]
    apply Nat.add_le_add_right
    by_cases full : groups.length = maxGroups
    · rw [full]
      exact (encodeS32_spec _).2.2
    · -- Fewer groups hold few enough bits for nothing to be dropped.
      cases groups with
      | nil => cases ended
      | cons b others =>
        obtain ⟨lower, upper⟩ := signedValue_range ended
        have few : others.length ≤ 3 := by
          simp only [List.length_cons, maxGroups] at full length
          omega
        have power : (128 : Int) ^ others.length ≤ 128 ^ 3 := by
          exact_mod_cast Nat.pow_le_pow_right (show 0 < 128 by decide) few
        have kept : (Int32.ofInt (signedValue (b :: others))).toInt = signedValue (b :: others) :=
          Int32.toInt_ofInt_of_le (by omega) (by omega)
        unfold encodeS32
        rw [kept]
        exact (signedGroups_spec others.length 5 _ (by omega) lower upper).2.2

end WasmMachine.Proofs.Leb128Codec

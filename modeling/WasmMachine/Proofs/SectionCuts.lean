import Mathlib.Data.List.Forall2
import WasmMachine.Proofs.ModuleCodec

/-! Where a module can be cut. Every part that is read in full is read the same whatever follows it, and is missed as soon
as one of its last bytes is; so what is left of a module is a module only if the cut is between two sections. -/

namespace WasmMachine.Proofs.SectionCuts
open Sequencing ByteCodec Leb128Codec CountedCodec ModuleCodec Leb128

variable {α β : Type} {read : Reader (List UInt8) α} {bytes before after : List UInt8} {a : α}

/-- The failures of an input that ends too early. -/
inductive Early : DecodeError → Prop where
  | eof : Early .unexpectedEof
  | inSection (id : UInt8) (expected : UInt32) (actual : Nat) : Early (.sectionTooShort id expected actual)

def EndsEarly (read : Reader (List UInt8) α) (bytes : List UInt8) : Prop :=
  ∃ e after, read bytes = .error e after ∧ Early e

theorem EndsEarly.bind (early : EndsEarly read bytes) (next : α → Reader (List UInt8) β) :
    EndsEarly (read >>= next) bytes := by
  obtain ⟨e, after, failed, reason⟩ := early
  exact ⟨e, after, bind_of_error failed, reason⟩

theorem EndsEarly.behind {next : α → Reader (List UInt8) β} (outcome : read before = .ok a after)
    (early : EndsEarly (next a) after) : EndsEarly (read >>= next) before := by
  obtain ⟨e, last, failed, reason⟩ := early
  exact ⟨e, last, (bind_of_ok outcome).trans failed, reason⟩

/-- The bytes are read as `a` whatever follows, and all of them are needed for it. -/
structure Delimits (read : Reader (List UInt8) α) (bytes : List UInt8) (a : α) : Prop where
  reads : Reads read bytes a
  cut : ∀ n < bytes.length, EndsEarly read (bytes.take n)

theorem Delimits.bind {next : α → Reader (List UInt8) β} {first second : List UInt8} {b : β}
    (head : Delimits read first a) (tail : Delimits (next a) second b) :
    Delimits (read >>= next) (first ++ second) b := by
  refine ⟨head.reads.bind tail.reads, ?_⟩
  intro n inside
  by_cases early : n < first.length
  · rw [List.take_append_of_le_length (Nat.le_of_lt early)]
    exact (head.cut n early).bind next
  · obtain ⟨more, rfl⟩ : ∃ more, n = first.length + more := ⟨n - first.length, by omega⟩
    rw [List.length_append] at inside
    rw [List.take_length_add_append]
    exact .behind (head.reads _) (tail.cut more (by omega))

theorem byte_delimits (b : UInt8) : Delimits Reader.byte [b] b := by
  refine ⟨fun rest => rfl, ?_⟩
  intro n inside
  obtain rfl : n = 0 := by simpa using inside
  exact ⟨_, _, rfl, .eof⟩

theorem exactly_delimits (bytes : List UInt8) : Delimits (Reader.exactly bytes.length) bytes bytes := by
  refine ⟨exactly_reads bytes, ?_⟩
  intro n inside
  refine ⟨.unexpectedEof, bytes.take n, ?_, .eof⟩
  have some : bytes.length ≠ 0 := by omega
  have short : (bytes.take n).length < bytes.length := by
    rw [List.length_take]
    omega
  simp only [Reader.exactly, some, if_false, Cursor.take, short, if_true, List.length_nil, Ne.symm some]

/-- Before its last group a number goes on, so without that group it ends too early. -/
theorem readUnsigned_cut {allowed weight sum : Nat} {groups : List UInt8} (ended : Ended groups)
    (room : groups.length ≤ allowed) {n : Nat} (inside : n < groups.length) :
    EndsEarly (readUnsigned allowed weight sum) (groups.take n) := by
  induction ended generalizing allowed weight sum n with
  | last low =>
    rw [List.length_singleton] at room
    obtain ⟨allowed, rfl⟩ : ∃ others, allowed = others + 1 := ⟨allowed - 1, by omega⟩
    obtain rfl : n = 0 := by simpa using inside
    exact ⟨_, _, rfl, .eof⟩
  | @more b groups high ended ih =>
    rw [List.length_cons] at room
    obtain ⟨allowed, rfl⟩ : ∃ others, allowed = others + 1 := ⟨allowed - 1, by omega⟩
    cases n with
    | zero => exact ⟨_, _, rfl, .eof⟩
    | succ n =>
      obtain ⟨e, after, failed, reason⟩ := ih (Nat.le_of_succ_le_succ room) (Nat.lt_of_succ_lt_succ inside)
      exact ⟨e, after, (readUnsigned_more high).trans failed, reason⟩

theorem u32_delimits {n : UInt32} (outcome : readU32 before = .ok n after) :
    ∃ groups, before = groups ++ after ∧ Delimits readU32 groups n := by
  obtain ⟨groups, rfl, ended, room, same⟩ := readUnsigned_image outcome
  refine ⟨groups, rfl, ?_, fun _ inside => readUnsigned_cut ended room inside⟩
  intro rest
  have fits : 0 + value groups * 1 < UInt32.size := same ▸ n.toNat_lt
  refine (readUnsigned_groups ended room fits rest).trans ?_
  rw [← same, UInt32.ofNat_toNat]

theorem readCut_delimits {contents : Reader (List UInt8) α} {refused : UInt32 → Nat → DecodeError} {size : UInt32}
    {last : List UInt8} (inner : contents bytes = .ok a last) (length : bytes.length = size.toNat)
    (early : ∀ left, Early (refused size left)) : Delimits (readCut contents refused size) bytes a := by
  refine ⟨readCut_reads inner length refused, ?_⟩
  intro n inside
  have short : (bytes.take n).length < size.toNat := by
    rw [List.length_take]
    omega
  refine ⟨refused size (bytes.take n).length, bytes.take n, ?_, early _⟩
  refine (bind_of_ok (remaining_eq (bytes.take n))).trans ?_
  simp only [short, if_true]
  rfl

theorem section_delimits {s : Section} (outcome : Section.read before = .ok s after) :
    ∃ bytes, bytes ≠ [] ∧ before = bytes ++ after ∧ Delimits Section.read bytes s := by
  rw [read_eq] at outcome ⊢
  obtain ⟨id, behind, head, tail⟩ := bind_eq_ok outcome
  obtain ⟨size, between, last, sized, enough, inner, rfl⟩ := readSized_eq_ok tail
  obtain ⟨groups, rfl, number⟩ := u32_delimits sized
  obtain rfl := byte_eq_ok head
  have length : (between.take size.toNat).length = size.toNat := by
    rw [List.length_take]
    omega
  have whole := readCut_delimits inner length (.inSection id size)
  refine ⟨id :: (groups ++ between.take size.toNat), List.cons_ne_nil _ _, by simp, ?_⟩
  exact (byte_delimits id).bind (number.bind whole)

/-- The places before, between and behind pieces that stand one after the other. -/
def boundaries (start : Nat) : List (List UInt8) → List Nat
  | [] => [start]
  | piece :: others => start :: boundaries (start + piece.length) others

theorem boundaries_head (start : Nat) (pieces : List (List UInt8)) : (boundaries start pieces).head? = some start := by
  cases pieces <;> rfl

theorem boundaries_last (start : Nat) (pieces : List (List UInt8)) :
    (boundaries start pieces).getLast? = some (start + pieces.flatten.length) := by
  induction pieces generalizing start with
  | nil => rfl
  | cons piece others ih =>
    rw [boundaries, List.getLast?_cons, ih]
    simp [Nat.add_assoc]

theorem boundaries_length (start : Nat) (pieces : List (List UInt8)) :
    (boundaries start pieces).length = pieces.length + 1 := by
  induction pieces generalizing start with
  | nil => rfl
  | cons piece others ih => exact congrArg (· + 1) (ih _)

theorem mem_boundaries {start c : Nat} {pieces : List (List UInt8)} (member : c ∈ boundaries start pieces) :
    start ≤ c ∧ c ≤ start + pieces.flatten.length := by
  induction pieces generalizing start with
  | nil =>
    obtain rfl := List.mem_singleton.mp member
    simp
  | cons piece others ih =>
    rw [List.flatten_cons, List.length_append]
    rcases List.mem_cons.mp member with rfl | later
    · omega
    · have := ih later
      omega

/-- The bytes of one section. -/
structure Piece (bytes : List UInt8) (s : Section) : Prop where
  some : bytes ≠ []
  delimits : Delimits Section.read bytes s

theorem boundaries_increasing {pieces : List (List UInt8)} {sections : List Section}
    (each : List.Forall₂ Piece pieces sections) (start : Nat) : (boundaries start pieces).Pairwise (· < ·) := by
  induction each generalizing start with
  | nil => exact List.pairwise_singleton _ _
  | cons first _ ih =>
    refine List.pairwise_cons.mpr ⟨?_, ih _⟩
    intro c later
    have := List.length_pos_iff.mpr first.some
    have := mem_boundaries later
    omega

theorem readSections_pieces {fuel : Nat} {sections : List Section} (enough : before.length ≤ fuel)
    (outcome : Module.readSections fuel before = .ok sections after) :
    ∃ pieces, before = pieces.flatten ∧ List.Forall₂ Piece pieces sections := by
  induction fuel generalizing before sections with
  | zero =>
    obtain ⟨rfl, rfl⟩ := pure_eq_ok outcome
    exact ⟨[], List.eq_nil_of_length_eq_zero (Nat.le_zero.mp enough), .nil⟩
  | succ fuel ih =>
    obtain ⟨ended, between, head, tail⟩ := bind_eq_ok outcome
    cases head
    split at tail
    next none =>
      obtain ⟨rfl, rfl⟩ := pure_eq_ok tail
      exact ⟨[], List.eq_nil_of_length_eq_zero (by simpa [Cursor.remaining] using none), .nil⟩
    next =>
      obtain ⟨first, middle, one, others⟩ := bind_eq_ok tail
      obtain ⟨rest, last, more, made⟩ := bind_eq_ok others
      obtain ⟨rfl, rfl⟩ := pure_eq_ok made
      obtain ⟨bytes, some, rfl, delimits⟩ := section_delimits one
      have shorter : middle.length ≤ fuel := by
        have := List.length_pos_iff.mpr some
        rw [List.length_append] at enough
        omega
      obtain ⟨pieces, rfl, each⟩ := ih shorter more
      exact ⟨bytes :: pieces, rfl, .cons ⟨some, delimits⟩ each⟩

theorem readSections_nil (fuel : Nat) : Module.readSections fuel ([] : List UInt8) = .ok [] [] := by
  cases fuel <;> rfl

theorem readSections_more {fuel : Nat} (some : bytes ≠ []) :
    Module.readSections (fuel + 1) bytes = (do
      let first ← Section.read
      let others ← Module.readSections fuel
      return first :: others) bytes := by
  cases bytes with
  | nil => exact absurd rfl some
  | cons b others => rfl

section Piece

variable {piece : List UInt8} {s : Section} {fuel : Nat}

/-- Behind a whole section the others are read. -/
theorem Piece.whole (first : Piece piece s) (rest : List UInt8) :
    Module.readSections (fuel + 1) (piece ++ rest) = (do
      let others ← Module.readSections fuel
      return s :: others) rest :=
  (readSections_more (List.append_ne_nil_of_left_ne_nil first.some rest)).trans (bind_of_ok (first.delimits.reads rest))

/-- A section that has begun has to be whole. -/
theorem Piece.begun (first : Piece piece s) {n : Nat} (begun : 0 < n) (inside : n < piece.length) :
    EndsEarly (Module.readSections (fuel + 1)) (piece.take n) := by
  have some : piece.take n ≠ [] := List.ne_nil_of_length_pos (by rw [List.length_take]; omega)
  obtain ⟨e, after, failed, reason⟩ := (first.delimits.cut n inside).bind _
  exact ⟨e, after, (readSections_more some).trans failed, reason⟩

end Piece

/-- A cut at a boundary leaves whole sections, and any other cut leaves one that has begun and ends too early. -/
theorem readSections_take {pieces : List (List UInt8)} {sections : List Section}
    (each : List.Forall₂ Piece pieces sections) (start fuel n : Nat) (inside : n ≤ pieces.flatten.length)
    (enough : n ≤ fuel) :
    (∀ j, (boundaries start pieces)[j]? = some (start + n) →
      Module.readSections fuel (pieces.flatten.take n) = .ok (sections.take j) []) ∧
    (start + n ∉ boundaries start pieces → EndsEarly (Module.readSections fuel) (pieces.flatten.take n)) := by
  induction each generalizing start fuel n with
  | nil =>
    obtain rfl : n = 0 := by simpa using inside
    refine ⟨?_, fun outside => absurd (List.mem_singleton.mpr rfl) outside⟩
    intro j _
    rw [List.take_nil, List.flatten_nil, List.take_nil]
    exact readSections_nil fuel
  | @cons piece s pieces sections first each ih =>
    have positive := List.length_pos_iff.mpr first.some
    rw [List.flatten_cons, List.length_append] at inside
    by_cases early : n < piece.length
    · -- There is no boundary inside the first section.
      have before {j : Nat} (place : (boundaries start (piece :: pieces))[j]? = some (start + n)) : j = 0 ∧ n = 0 := by
        cases j with
        | zero => exact ⟨rfl, Nat.add_eq_left.mp (Option.some.inj place).symm⟩
        | succ j =>
          have := mem_boundaries (List.mem_of_getElem? (show (boundaries _ pieces)[j]? = _ from place))
          omega
      refine ⟨?_, ?_⟩
      · intro j place
        obtain ⟨rfl, rfl⟩ := before place
        exact readSections_nil fuel
      · intro outside
        have begun : 0 < n := Nat.pos_of_ne_zero fun none => outside (none ▸ List.mem_cons_self)
        obtain ⟨fuel, rfl⟩ : ∃ less, fuel = less + 1 := ⟨fuel - 1, by omega⟩
        rw [List.flatten_cons, List.take_append_of_le_length (Nat.le_of_lt early)]
        exact first.begun begun early
    · obtain ⟨more, rfl⟩ : ∃ more, n = piece.length + more := ⟨n - piece.length, by omega⟩
      obtain ⟨fuel, rfl⟩ : ∃ less, fuel = less + 1 := ⟨fuel - 1, by omega⟩
      obtain ⟨kept, lost⟩ := ih (start + piece.length) fuel more (by omega) (by omega)
      rw [List.flatten_cons, List.take_length_add_append, ← Nat.add_assoc]
      refine ⟨?_, ?_⟩
      · intro j place
        rw [first.whole]
        cases j with
        | zero =>
          have : start = start + piece.length + more := Option.some.inj place
          omega
        | succ j => exact bind_of_ok (kept j place)
      · intro outside
        rw [EndsEarly, first.whole]
        exact (lost fun member => outside (List.mem_cons_of_mem _ member)).bind _

theorem readPreamble_delimits (version : Word) : Delimits Module.readPreamble
    (Module.standardMagic.toList ++ version.toList) (Module.standardMagic, version) := by
  rw [← List.append_nil version.toList]
  apply (exactly_delimits Module.standardMagic.toList).bind
  apply (exactly_delimits version.toList).bind
  exact ⟨fun rest => rfl, fun n inside => absurd inside (Nat.not_lt_zero n)⟩

/-- The places at which a module can be cut, one in front of each section and one behind all of them. -/
structure Cuts (bytes : List UInt8) (m : Module) (cuts : List Nat) : Prop where
  count : cuts.length = m.sections.length + 1
  first : cuts.head? = some 8
  last : cuts.getLast? = some bytes.length
  increasing : cuts.Pairwise (· < ·)
  between : ∀ (j c : Nat), cuts[j]? = some c →
    Module.decode (bytes.take c) = .ok { m with sections := m.sections.take j }
  elsewhere : ∀ c ≤ bytes.length, c ∉ cuts → ∃ e, Module.decode (bytes.take c) = .error e ∧ Early e

theorem decode_pieces {m : Module} (decoded : Module.decode bytes = .ok m) : m.magic = Module.standardMagic ∧
    ∃ pieces, bytes = m.magic.toList ++ m.version.toList ++ pieces.flatten ∧ List.Forall₂ Piece pieces m.sections := by
  unfold Module.decode at decoded
  split at decoded
  next read after loaded =>
    cases decoded
    obtain ⟨⟨magic, version⟩, between, head, tail⟩ := bind_eq_ok loaded
    obtain ⟨standard, rfl⟩ := readPreamble_eq_ok head
    have tail := (bind_of_ok (remaining_eq between)).symm.trans tail
    obtain ⟨sections, last, read, made⟩ := bind_eq_ok tail
    obtain ⟨rfl, rfl⟩ := pure_eq_ok made
    obtain ⟨pieces, rfl, each⟩ := readSections_pieces (Nat.le_refl _) read
    exact ⟨standard, pieces, rfl, each⟩
  next => cases decoded

theorem load_behind (version : Word) (rest : List UInt8) :
    Module.load (Module.standardMagic.toList ++ version.toList ++ rest) = (do
      let sections ← Module.readSections rest.length
      return (⟨Module.standardMagic, version, sections⟩ : Module)) rest :=
  (bind_of_ok (readPreamble_reads version rest)).trans (bind_of_ok (remaining_eq rest))

theorem decode_of_load {m : Module} (loaded : Module.load bytes = .ok m after) : Module.decode bytes = .ok m := by
  rw [Module.decode, loaded]

theorem decode_of_early (early : EndsEarly Module.load bytes) : ∃ e, Module.decode bytes = .error e ∧ Early e := by
  obtain ⟨e, after, failed, reason⟩ := early
  exact ⟨e, by rw [Module.decode, failed], reason⟩

/-- Every module can be cut between its sections, and nowhere else. -/
theorem cut_between_sections {bytes : List UInt8} {m : Module} (decoded : Module.decode bytes = .ok m) :
    ∃ cuts, Cuts bytes m cuts := by
  obtain ⟨magic, version, all⟩ := m
  obtain ⟨rfl, pieces, same, each⟩ : magic = Module.standardMagic ∧ ∃ pieces,
      bytes = magic.toList ++ version.toList ++ pieces.flatten ∧ List.Forall₂ Piece pieces all := decode_pieces decoded
  subst same
  have length : (Module.standardMagic.toList ++ version.toList).length = 8 := rfl
  have cut (n : Nat) : (Module.standardMagic.toList ++ version.toList ++ pieces.flatten).take (8 + n) =
      Module.standardMagic.toList ++ version.toList ++ pieces.flatten.take n := by
    rw [← length, List.take_length_add_append]
  have sections {n : Nat} (inside : n ≤ pieces.flatten.length) := readSections_take each 8
    (pieces.flatten.take n).length n inside (by rw [List.length_take]; omega)
  refine ⟨boundaries 8 pieces, ?_, boundaries_head 8 pieces, ?_, boundaries_increasing each 8, ?_, ?_⟩
  · rw [boundaries_length, each.length_eq]
  · rw [boundaries_last, List.length_append, length]
  · intro j c place
    obtain ⟨behind, inside⟩ := mem_boundaries (List.mem_of_getElem? place)
    obtain ⟨n, rfl⟩ : ∃ n, c = 8 + n := ⟨c - 8, by omega⟩
    rw [cut]
    have kept := (sections (by omega)).1 j place
    exact decode_of_load ((load_behind version _).trans (bind_of_ok kept))
  · intro c inside outside
    rw [List.length_append, length] at inside
    apply decode_of_early
    by_cases early : c < 8
    · rw [List.take_append_of_le_length (by omega)]
      exact ((readPreamble_delimits version).cut c (by omega)).bind _
    · obtain ⟨n, rfl⟩ : ∃ n, c = 8 + n := ⟨c - 8, by omega⟩
      have lost := (sections (by omega)).2 outside
      rw [cut, EndsEarly, load_behind]
      exact lost.bind _

/-- A custom section, and one whose size takes a group more than it needs. -/
def padded : List UInt8 :=
  [0x00, 0x61, 0x73, 0x6d, 0x01, 0x00, 0x00, 0x00, 0x00, 0x03, 0x01, 0x61, 0xff, 0x0c, 0x82, 0x00, 0x81, 0x00]

theorem padded_cuts : Module.decode padded = .ok { sections := [.custom "a" [0xff], .dataCount 1] } ∧
    ∃ cuts, Cuts padded { sections := [.custom "a" [0xff], .dataCount 1] } cuts := by
  have decoded : Module.decode padded = .ok { sections := [.custom "a" [0xff], .dataCount 1] } := by rfl
  exact ⟨decoded, cut_between_sections decoded⟩

end WasmMachine.Proofs.SectionCuts

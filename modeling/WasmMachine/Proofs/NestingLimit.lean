import WasmMachine.Proofs.CodeCodec
import WasmMachine.Proofs.CursorAgreement

/-! Where the nesting of code is cut off. Code that is nested no deeper than the limit is read back from its bytes and
from nothing behind them; code that is nested deeper anywhere is refused at its first instruction beyond the limit,
since all that stands in front of it is read as it was written. -/

namespace WasmMachine.Proofs.NestingLimit
open Sequencing ByteCodec CodeCodec CursorAgreement

variable {α β : Type} {read : Reader (List UInt8) α} {bytes first second : List UInt8} {e : DecodeError}

/-- Reading the bytes fails for this reason, whatever follows them. -/
def Refuses (read : Reader (List UInt8) α) (bytes : List UInt8) (e : DecodeError) : Prop :=
  ∀ rest, ∃ after, read (bytes ++ rest) = .error e after

theorem Refuses.append (refuses : Refuses read first e) (second : List UInt8) : Refuses read (first ++ second) e := by
  intro rest
  rw [List.append_assoc]
  exact refuses (second ++ rest)

theorem Refuses.bind (refuses : Refuses read bytes e) (next : α → Reader (List UInt8) β) :
    Refuses (read >>= next) bytes e := by
  intro rest
  obtain ⟨after, failed⟩ := refuses rest
  exact ⟨after, bind_of_error failed⟩

theorem Refuses.behind {next : α → Reader (List UInt8) β} {a : α} (head : Reads read first a)
    (refuses : Refuses (next a) second e) : Refuses (read >>= next) (first ++ second) e := by
  intro rest
  rw [List.append_assoc, bind_of_ok (head (second ++ rest))]
  exact refuses rest

def tooDeep : DecodeError := .nestingTooDeep Code.maxDepth

/-- The code is refused behind any depth that leaves no room for it. -/
def Refused (code : Code) : Prop :=
  ∀ depth fuel, depth ≤ Code.maxDepth → Code.maxDepth - depth < code.depth → (body code).length < fuel →
    Refuses (Code.readFrom fuel depth) (body code) tooDeep

def RefusedBehindOpcode (i : Instruction) : Prop :=
  ∀ depth fuel, depth ≤ Code.maxDepth → Code.maxDepth - depth < nesting i → (operands i).length < fuel →
    Refuses (Instruction.readWith (Code.readFrom fuel (depth + 1)) depth i.opcode) (operands i) tooDeep

/-- Either the first instruction is too deep, or it is read back and one behind it is. -/
theorem refused_cons {i : Instruction} {rest : Code} (reads : ReadBehindOpcode i) (refused : RefusedBehindOpcode i)
    (later : Refused rest) : Refused (.cons i rest) := by
  intro depth fuel bounded deep enough
  rw [depth_cons] at deep
  rw [body_cons, List.length_cons, List.length_append] at enough
  obtain ⟨fuel, rfl⟩ : ∃ less, fuel = less + 1 := ⟨fuel - 1, by omega⟩
  intro others
  rw [body_cons, List.cons_append, readFrom_opcode]
  by_cases room : nesting i ≤ Code.maxDepth - depth
  · have tail := later depth fuel bounded (by omega) (by omega)
    exact Refuses.behind (reads depth fuel room (by omega)) (tail.bind _) others
  · have head := refused depth fuel bounded (Nat.lt_of_not_le room) (by omega)
    exact (head.bind _).append (body rest) others

section Structured

variable {nested : Reader (List UInt8) (Code × Terminator)} {depth : Nat} {opcode : UInt8}

/-- The sequence behind its block type is the first thing that a structured instruction reads. -/
theorem first_refuses (structured : opcode = 0x02 ∨ opcode = 0x03 ∨ opcode = 0x04) (room : depth < Code.maxDepth)
    (type : BlockType) (refuses : Refuses nested bytes e) :
    Refuses (Instruction.readWith nested depth opcode) ([type.toByte] ++ bytes) e := by
  rcases structured with rfl | rfl | rfl
  · rw [readWith_block room]
    exact Refuses.behind (blockType_reads type) ((refuses.bind _).bind _)
  · rw [readWith_loop room]
    exact Refuses.behind (blockType_reads type) ((refuses.bind _).bind _)
  · rw [readWith_cond room]
    exact Refuses.behind (blockType_reads type) (refuses.bind _)

theorem full_refuses (structured : opcode = 0x02 ∨ opcode = 0x03 ∨ opcode = 0x04) (full : Code.maxDepth ≤ depth) :
    Refuses (Instruction.readWith nested depth opcode) bytes tooDeep := by
  intro rest
  rw [readWith_full structured full]
  exact ⟨bytes ++ rest, rfl⟩

end Structured

/-- An instruction with one nested sequence is too deep itself, or that sequence is. -/
private theorem nested_refused {i : Instruction} {type : BlockType} {inner : Code}
    (structured : i.opcode = 0x02 ∨ i.opcode = 0x03 ∨ i.opcode = 0x04)
    (written : operands i = [type.toByte] ++ (body inner ++ [closing .endOf])) (deepest : nesting i = inner.depth + 1)
    (within : Refused inner) : RefusedBehindOpcode i := by
  intro depth fuel bounded deep enough
  rw [written, List.length_append, List.length_append] at enough
  rw [deepest] at deep
  rw [written]
  by_cases room : depth < Code.maxDepth
  · have refuses := within (depth + 1) fuel room (by omega) (by omega)
    exact first_refuses structured room type (refuses.append _)
  · exact full_refuses structured (Nat.le_of_not_lt room)

theorem op_refused (o : Op) : RefusedBehindOpcode (.op o) :=
  fun _ _ _ deep _ => absurd deep (Nat.not_lt_zero _)

theorem ifElse_refused (type : BlockType) {inner orElse : Code} (reads : ReadBack inner) (within : Refused inner)
    (other : Refused orElse) : RefusedBehindOpcode (.ifElse type inner orElse) := by
  intro depth fuel bounded deep enough
  simp only [nesting, Code.cons, Code.depth] at deep
  simp only [operands, List.length_append] at enough
  by_cases room : depth < Code.maxDepth
  · by_cases shallow : inner.depth ≤ Code.maxDepth - (depth + 1)
    · -- The first branch is read back, so it is the second one that is too deep.
      have between := reads .elseOf (depth + 1) fuel shallow (by omega)
      have refuses := other (depth + 1) fuel room (by omega) (by omega)
      change Refuses (Instruction.readWith _ depth 0x04) _ _
      rw [readWith_cond room]
      refine Refuses.behind (blockType_reads type) (Refuses.behind between ?_)
      exact ((refuses.append _).bind _).bind _
    · have refuses := within (depth + 1) fuel room (Nat.lt_of_not_le shallow) (by omega)
      exact first_refuses (.inr (.inr rfl)) room type ((refuses.append _).append _)
  · exact full_refuses (.inr (.inr rfl)) (Nat.le_of_not_lt room)

theorem refused {code : Code} (short : ShortTables code) : Refused code := by
  induction code with
  | nil => exact fun _ _ _ deep _ => absurd deep (Nat.not_lt_zero _)
  | op o rest later => exact refused_cons (op_readBack short.1) (op_refused o) (later short.2)
  | block type inner rest within later =>
    exact refused_cons (block_readBack type (readBack short.1))
      (nested_refused (.inl rfl) rfl (Nat.max_zero _) (within short.1)) (later short.2)
  | loop type inner rest within later =>
    exact refused_cons (loop_readBack type (readBack short.1))
      (nested_refused (.inr (.inl rfl)) rfl (Nat.max_zero _) (within short.1)) (later short.2)
  | ifThen type inner rest within later =>
    exact refused_cons (ifThen_readBack type (readBack short.1))
      (nested_refused (.inr (.inr rfl)) rfl (Nat.max_zero _) (within short.1)) (later short.2)
  | ifElse type inner orElse rest within other later =>
    have reads := readBack short.1
    exact refused_cons (ifElse_readBack type reads (readBack short.2.1))
      (ifElse_refused type reads (within short.1) (other short.2.1)) (later short.2.2)

theorem code_refuses {code : Code} (short : ShortTables code) (deep : Code.maxDepth < code.depth) :
    Refuses Code.read code.encode tooDeep := by
  rw [encode_eq_body]
  intro rest
  have enough : (body code).length < (body code ++ [closing .endOf] ++ rest).length := by
    simp only [List.length_append, List.length_singleton]
    omega
  have refuses := refused short 0 _ (Nat.zero_le _) deep enough
  exact ((refuses.append [closing .endOf]).bind _) rest

/-- Code whose branch tables can be counted is read back up to its own end from every cursor, if it is nested at most
256 deep; and if it is nested deeper, it is refused for that. -/
theorem codec_exact_to_limit {σ : Type} [Cursor σ] [LawfulCursor σ] {code : Code} (short : ShortTables code)
    {rest : List UInt8} {c : σ} (written : Cursor.rest c = code.encode ++ rest) :
    (code.depth ≤ 256 → ∃ after, Code.read c = .ok code after ∧ Cursor.rest after = rest) ∧
    (256 < code.depth → ∃ after, Code.read c = .error (.nestingTooDeep 256) after) := by
  have alike := (readAlike_of_lawful σ (List UInt8)).code c (code.encode ++ rest) written
  constructor
  · intro shallow
    rw [code_reads short shallow rest] at alike
    exact alike.eq_ok
  · intro deep
    obtain ⟨left, failed⟩ := code_refuses short deep rest
    rw [failed] at alike
    obtain ⟨after, outcome, _⟩ := alike.eq_error
    exact ⟨after, outcome⟩

/-- Branches inside each other, each in the second branch of the one around it. -/
def nestedBranches : Nat → Code
  | 0 => .op (.brTable [0, 300] 1) .nil
  | n + 1 => .ifElse (.value .i32) .nil (nestedBranches n) (.op .nop .nil)

theorem nestedBranches_short (n : Nat) : ShortTables (nestedBranches n) := by
  induction n with
  | zero => exact ⟨show 2 < UInt32.size by decide, trivial⟩
  | succ n ih => exact ⟨trivial, ih, trivial, trivial⟩

theorem nestedBranches_at_limit :
    (∃ after, Code.read (Buffer.ofBytes ((nestedBranches 256).encode ++ [0x0b])) = .ok (nestedBranches 256) after ∧
      Cursor.rest after = [0x0b]) ∧
    ∃ after, Code.read (Buffer.ofBytes ((nestedBranches 257).encode ++ [0x0b])) =
      .error (.nestingTooDeep 256) after := by
  have within : (nestedBranches 256).depth ≤ 256 := by decide +kernel
  have beyond : 256 < (nestedBranches 257).depth := by decide +kernel
  exact ⟨(codec_exact_to_limit (nestedBranches_short 256) rfl).1 within,
    (codec_exact_to_limit (nestedBranches_short 257) rfl).2 beyond⟩

end WasmMachine.Proofs.NestingLimit

import WasmMachine.Proofs.CountedCodec

/-! Instructions are read back. Nesting is followed by one structural induction over the code, in which the fuel
of the reader is paid for by the bytes of each sequence. -/

namespace WasmMachine.Proofs.CodeCodec
open Sequencing ByteCodec Leb128Codec CountedCodec Leb128

theorem valueType : Codec ValueType.read (fun t => [t.toByte]) (fun _ => True) := by
  apply Codec.enumerated
  intro b t
  constructor
  · intro known
    unfold ValueType.ofByte ValueType.ofByte? at known
    split at known
    next found =>
      split at found <;> cases found <;> cases known <;> rfl
    next => cases known
  · rintro rfl
    cases t <;> rfl

theorem blockType_reads (t : BlockType) : Reads BlockType.read [t.toByte] t := by
  intro rest
  cases t with
  | empty => rfl
  | value t => cases t <;> rfl

theorem blockType_image : Image BlockType.read (fun t => [t.toByte]) (fun _ => True) := by
  apply Image.behind_byte
  intro b
  split
  · exact pure_image rfl trivial
  · cases known : ValueType.ofByte? b with
    | some type => exact pure_image rfl trivial
    | none => exact throw_image _

theorem memArg : Codec MemArg.read (fun arg => arg.units.flatten) (fun _ => True) :=
  u32.map₂ u32 MemArg.mk (fun _ _ => by simp [MemArg.units]) (fun arg => by simp)

theorem memArg_reads (arg : MemArg) : Reads MemArg.read arg.units.flatten arg :=
  (u32_reads arg.align).map₂ (u32_reads arg.offset) MemArg.mk (by simp [MemArg.units])

/-- The bytes behind the opcode. -/
def immediates (o : Op) : List UInt8 := o.immediateUnits.flatten

private theorem flatten_units (labels : List UInt32) :
    (Counted.units (fun label => [encodeU32 label]) labels).flatten = Counted.encode encodeU32 labels := by
  have items : (labels.flatMap fun label => [encodeU32 label]).flatten = labels.flatMap encodeU32 := by
    induction labels with
    | nil => rfl
    | cons first others ih => simpa using ih
  simp only [Counted.units, Counted.encode, List.flatten_cons, items]

theorem immediates_brTable (labels : List UInt32) (default : UInt32) :
    immediates (.brTable labels default) = Counted.encode encodeU32 labels ++ encodeU32 default := by
  simp [immediates, Op.immediateUnits, flatten_units]

theorem immediates_callIndirect (type table : UInt32) :
    immediates (.callIndirect type table) = encodeU32 type ++ encodeU32 table := by
  simp [immediates, Op.immediateUnits]

/-- The number of labels to choose from can be written down. -/
def ShortTable : Op → Prop
  | .brTable labels _ => labels.length < UInt32.size
  | _ => True

theorem op_reads (o : Op) (short : ShortTable o) : Reads (Op.read o.opcode) (immediates o) o := by
  cases o with
  | br label => exact (u32_reads label).map Op.br (List.append_nil _)
  | brIf label => exact (u32_reads label).map Op.brIf (List.append_nil _)
  | brTable labels default =>
    have table := vector_reads short (fun label _ => u32_reads label)
    exact table.map₂ (u32_reads default) Op.brTable (immediates_brTable labels default)
  | call index => exact (u32_reads index).map Op.call (List.append_nil _)
  | callIndirect type table =>
    exact (u32_reads type).map₂ (u32_reads table) Op.callIndirect (immediates_callIndirect type table)
  | localGet index => exact (u32_reads index).map Op.localGet (List.append_nil _)
  | localSet index => exact (u32_reads index).map Op.localSet (List.append_nil _)
  | localTee index => exact (u32_reads index).map Op.localTee (List.append_nil _)
  | globalGet index => exact (u32_reads index).map Op.globalGet (List.append_nil _)
  | globalSet index => exact (u32_reads index).map Op.globalSet (List.append_nil _)
  | load arg => exact (memArg_reads arg).map Op.load rfl
  | store arg => exact (memArg_reads arg).map Op.store rfl
  | const value => exact (s32_reads value).map Op.const (List.append_nil _)
  | unreachable | nop | ret | eqz => exact fun rest => rfl
  | binary op => cases op <;> exact fun rest => rfl

theorem op_image (opcode : UInt8) : Image (Op.read opcode) immediates (fun o => o.opcode = opcode) := by
  unfold Op.read
  split
  · exact pure_image rfl rfl
  · exact pure_image rfl rfl
  · exact u32.image.map Op.br (fun _ => List.append_nil _) (fun _ _ => rfl)
  · exact u32.image.map Op.brIf (fun _ => List.append_nil _) (fun _ _ => rfl)
  · exact (vector u32 encodeU32_positive).image.map₂ u32.image Op.brTable immediates_brTable (fun _ _ _ _ => rfl)
  · exact pure_image rfl rfl
  · exact u32.image.map Op.call (fun _ => List.append_nil _) (fun _ _ => rfl)
  · exact u32.image.map₂ u32.image Op.callIndirect immediates_callIndirect (fun _ _ _ _ => rfl)
  · exact u32.image.map Op.localGet (fun _ => List.append_nil _) (fun _ _ => rfl)
  · exact u32.image.map Op.localSet (fun _ => List.append_nil _) (fun _ _ => rfl)
  · exact u32.image.map Op.localTee (fun _ => List.append_nil _) (fun _ _ => rfl)
  · exact u32.image.map Op.globalGet (fun _ => List.append_nil _) (fun _ _ => rfl)
  · exact u32.image.map Op.globalSet (fun _ => List.append_nil _) (fun _ _ => rfl)
  · exact memArg.image.map Op.load (fun _ => rfl) (fun _ _ => rfl)
  · exact memArg.image.map Op.store (fun _ => rfl) (fun _ _ => rfl)
  · exact s32.image.map Op.const (fun _ => List.append_nil _) (fun _ _ => rfl)
  · exact pure_image rfl rfl
  · exact pure_image rfl rfl
  · exact pure_image rfl rfl
  · exact pure_image rfl rfl
  · exact pure_image rfl rfl
  · exact pure_image rfl rfl
  · exact throw_image _

/-- The bytes of a sequence, without the byte that closes it. -/
def body (code : Code) : List UInt8 := code.bodyUnits.flatten

def closing : Terminator → UInt8
  | .endOf => Code.endByte
  | .elseOf => Code.elseByte

def operands : Instruction → List UInt8
  | .op o => immediates o
  | .block type inner | .loop type inner | .ifThen type inner => [type.toByte] ++ (body inner ++ [closing .endOf])
  | .ifElse type inner orElse => [type.toByte] ++ ((body inner ++ [closing .elseOf]) ++ (body orElse ++ [closing .endOf]))

theorem body_cons (i : Instruction) (rest : Code) : body (.cons i rest) = i.opcode :: (operands i ++ body rest) := by
  cases i <;> simp [body, Code.cons, Code.bodyUnits, operands, closing, immediates, Instruction.opcode]

def nesting (i : Instruction) : Nat := (Code.cons i .nil).depth

theorem depth_cons (i : Instruction) (rest : Code) : (Code.cons i rest).depth = max (nesting i) rest.depth := by
  cases i <;> simp [nesting, Code.cons, Code.depth]

/-- No instruction starts like the end of a sequence, and none without nested sequences like one with them. -/
theorem opcode_plain (o : Op) : o.opcode ≠ Code.endByte ∧ o.opcode ≠ Code.elseByte ∧
    ¬ (o.opcode = 0x02 ∨ o.opcode = 0x03 ∨ o.opcode = 0x04) := by
  cases o with
  | binary op => cases op <;> decide
  | _ => simp [Op.opcode, Code.endByte, Code.elseByte]

theorem opcode_begins (i : Instruction) : i.opcode ≠ Code.endByte ∧ i.opcode ≠ Code.elseByte := by
  cases i with
  | op o => exact ⟨(opcode_plain o).1, (opcode_plain o).2.1⟩
  | _ => simp [Instruction.opcode, Code.endByte, Code.elseByte]

section Structured

variable {nested : Reader (List UInt8) (Code × Terminator)} {depth : Nat}

theorem readWith_op {opcode : UInt8} (plain : ¬ (opcode = 0x02 ∨ opcode = 0x03 ∨ opcode = 0x04)) :
    Instruction.readWith nested depth opcode = (do return .op (← Op.read opcode)) := by
  simp only [Instruction.readWith, plain, if_false]

theorem readWith_block (room : depth < Code.maxDepth) : Instruction.readWith nested depth 0x02 = (do
    let type ← BlockType.read
    return .block type (← Code.closed nested)) := by
  simp [Instruction.readWith, Nat.not_le.mpr room]

theorem readWith_loop (room : depth < Code.maxDepth) : Instruction.readWith nested depth 0x03 = (do
    let type ← BlockType.read
    return .loop type (← Code.closed nested)) := by
  simp [Instruction.readWith, Nat.not_le.mpr room]

theorem readWith_cond (room : depth < Code.maxDepth) : Instruction.readWith nested depth 0x04 = (do
    let type ← BlockType.read
    match ← nested with
    | (body, .endOf) => return .ifThen type body
    | (body, .elseOf) => return .ifElse type body (← Code.closed nested)) := by
  simp only [Instruction.readWith, Nat.not_le.mpr room]
  rfl

/-- No structured instruction is read where the nesting has reached its limit. -/
theorem readWith_full {opcode : UInt8} (structured : opcode = 0x02 ∨ opcode = 0x03 ∨ opcode = 0x04)
    (full : Code.maxDepth ≤ depth) :
    Instruction.readWith nested depth opcode = throw (.nestingTooDeep Code.maxDepth) := by
  simp only [Instruction.readWith, structured, full, if_true]
  rfl

theorem readFrom_opcode (fuel : Nat) (i : Instruction) (bytes : List UInt8) :
    Code.readFrom (fuel + 1) depth (i.opcode :: bytes) = (do
      let first ← Instruction.readWith (Code.readFrom fuel (depth + 1)) depth i.opcode
      let (rest, terminator) ← Code.readFrom fuel depth
      return (Code.cons first rest, terminator)) bytes := by
  refine (bind_of_ok (byte_cons i.opcode bytes)).trans ?_
  simp only [opcode_begins i, if_false]

end Structured

section Reading

/-- No branch table of the code, nested ones included, has more labels than can be counted. -/
def ShortTables : Code → Prop
  | .nil => True
  | .op o rest => ShortTable o ∧ ShortTables rest
  | .block _ inner rest | .loop _ inner rest | .ifThen _ inner rest => ShortTables inner ∧ ShortTables rest
  | .ifElse _ inner orElse rest => ShortTables inner ∧ ShortTables orElse ∧ ShortTables rest

/-- The code is read back behind any depth that leaves room for it, up to the byte that closes it. -/
def ReadBack (code : Code) : Prop :=
  ∀ t depth fuel, code.depth ≤ Code.maxDepth - depth → (body code).length < fuel →
    Reads (Code.readFrom fuel depth) (body code ++ [closing t]) (code, t)

def ReadBehindOpcode (i : Instruction) : Prop :=
  ∀ depth fuel, nesting i ≤ Code.maxDepth - depth → (operands i).length < fuel →
    Reads (Instruction.readWith (Code.readFrom fuel (depth + 1)) depth i.opcode) (operands i) i

theorem readBack_nil : ReadBack .nil := by
  intro t depth fuel _ enough rest
  obtain ⟨fuel, rfl⟩ : ∃ less, fuel = less + 1 := ⟨fuel - 1, by omega⟩
  cases t <;> rfl

theorem readBack_cons {i : Instruction} {rest : Code} (first : ReadBehindOpcode i) (later : ReadBack rest) :
    ReadBack (.cons i rest) := by
  intro t depth fuel room enough others
  rw [depth_cons] at room
  rw [body_cons, List.length_cons, List.length_append] at enough
  obtain ⟨fuel, rfl⟩ : ∃ less, fuel = less + 1 := ⟨fuel - 1, by omega⟩
  have head := first depth fuel (by omega) (by omega)
  have tail := later t depth fuel (by omega) (by omega)
  rw [body_cons, List.cons_append, List.cons_append, List.append_assoc, List.append_assoc, readFrom_opcode]
  refine (bind_of_ok (head _)).trans ?_
  rw [← List.append_assoc]
  exact bind_of_ok (tail others)

theorem op_readBack {o : Op} (short : ShortTable o) : ReadBehindOpcode (.op o) := by
  intro depth fuel _ _ rest
  change Instruction.readWith _ depth o.opcode _ = _
  rw [readWith_op (opcode_plain o).2.2]
  exact bind_of_ok (op_reads o short rest)

theorem closed_reads {nested : Reader (List UInt8) (Code × Terminator)} {bytes : List UInt8} {code : Code}
    (reads : Reads nested bytes (code, .endOf)) : Reads (Code.closed nested) bytes code :=
  fun rest => bind_of_ok (reads rest)

/-- An instruction with one nested sequence, which differs from the others of its kind only in its opcode. -/
private theorem nested_readBack {i : Instruction} {type : BlockType} {inner : Code}
    (written : operands i = [type.toByte] ++ (body inner ++ [closing .endOf])) (deep : nesting i = inner.depth + 1)
    (behind : ∀ nested depth, depth < Code.maxDepth → Reads nested (body inner ++ [closing .endOf]) (inner, .endOf) →
      Reads (Instruction.readWith nested depth i.opcode) ([type.toByte] ++ (body inner ++ [closing .endOf])) i)
    (within : ReadBack inner) : ReadBehindOpcode i := by
  intro depth fuel room enough
  rw [written, List.length_append, List.length_append] at enough
  rw [deep] at room
  rw [written]
  exact behind _ depth (by omega) (within .endOf (depth + 1) fuel (by omega) (by omega))

theorem block_readBack (type : BlockType) {inner : Code} : ReadBack inner → ReadBehindOpcode (.block type inner) := by
  apply nested_readBack rfl (Nat.max_zero _)
  intro nested depth room reads
  refine (readWith_block room).symm ▸ Reads.bind (blockType_reads type) ?_
  exact (closed_reads reads).map (Instruction.block type) rfl

theorem loop_readBack (type : BlockType) {inner : Code} : ReadBack inner → ReadBehindOpcode (.loop type inner) := by
  apply nested_readBack rfl (Nat.max_zero _)
  intro nested depth room reads
  refine (readWith_loop room).symm ▸ Reads.bind (blockType_reads type) ?_
  exact (closed_reads reads).map (Instruction.loop type) rfl

theorem ifThen_readBack (type : BlockType) {inner : Code} : ReadBack inner → ReadBehindOpcode (.ifThen type inner) := by
  apply nested_readBack rfl (Nat.max_zero _)
  intro nested depth room reads
  refine (readWith_cond room).symm ▸ Reads.bind (blockType_reads type) ?_
  exact fun rest => bind_of_ok (reads rest)

theorem ifElse_readBack (type : BlockType) {inner orElse : Code} (within : ReadBack inner) (other : ReadBack orElse) :
    ReadBehindOpcode (.ifElse type inner orElse) := by
  intro depth fuel room enough
  simp only [nesting, Code.cons, Code.depth] at room
  simp only [operands, List.length_append] at enough
  have reads := within .elseOf (depth + 1) fuel (by omega) (by omega)
  have readsElse := other .endOf (depth + 1) fuel (by omega) (by omega)
  change Reads (Instruction.readWith _ depth 0x04) _ _
  rw [readWith_cond (by omega)]
  apply Reads.bind (blockType_reads type)
  apply Reads.bind reads
  exact (closed_reads readsElse).map (Instruction.ifElse type inner) rfl

theorem readBack {code : Code} (short : ShortTables code) : ReadBack code := by
  induction code with
  | nil => exact readBack_nil
  | op o rest later => exact readBack_cons (op_readBack short.1) (later short.2)
  | block type inner rest within later => exact readBack_cons (block_readBack type (within short.1)) (later short.2)
  | loop type inner rest within later => exact readBack_cons (loop_readBack type (within short.1)) (later short.2)
  | ifThen type inner rest within later => exact readBack_cons (ifThen_readBack type (within short.1)) (later short.2)
  | ifElse type inner orElse rest within other later =>
    exact readBack_cons (ifElse_readBack type (within short.1) (other short.2.1)) (later short.2.2)

/-- A table takes at least one byte for each of its labels. -/
theorem shortTables_of_bytes {code : Code} (short : (body code).length < UInt32.size) : ShortTables code := by
  induction code with
  | nil => trivial
  | op o rest later =>
    have bytes := short
    rw [show Code.op o rest = .cons (.op o) rest from rfl, body_cons, List.length_cons, List.length_append] at bytes
    refine ⟨?_, later (by omega)⟩
    cases o with
    | brTable labels default =>
      have fewer := Codec.length_le_flatMap encodeU32_positive labels
      rw [operands, immediates_brTable, Counted.encode, List.length_append, List.length_append] at bytes
      exact Nat.lt_of_le_of_lt fewer (by omega)
    | _ => trivial
  | block type inner rest within later | loop type inner rest within later | ifThen type inner rest within later =>
    have parts : (body inner).length + (body rest).length < UInt32.size := by
      simp only [body, Code.bodyUnits, List.flatten_cons, List.flatten_append, List.length_append] at short ⊢
      omega
    exact ⟨within (by omega), later (by omega)⟩
  | ifElse type inner orElse rest within other later =>
    have parts : (body inner).length + (body orElse).length + (body rest).length < UInt32.size := by
      simp only [body, Code.bodyUnits, List.flatten_cons, List.flatten_append, List.length_append] at short ⊢
      omega
    exact ⟨within (by omega), other (by omega), later (by omega)⟩

end Reading

section Images

def sequence : Code × Terminator → List UInt8
  | (code, t) => body code ++ [closing t]

variable {nested : Reader (List UInt8) (Code × Terminator)} {depth : Nat}

theorem closed_image {most : Nat} (image : Image nested sequence (fun read => read.1.depth ≤ most)) :
    Image (Code.closed nested) (fun code => body code ++ [closing .endOf]) (fun code => code.depth ≤ most) := by
  intro before code after outcome
  obtain ⟨⟨read, t⟩, between, head, tail⟩ := bind_eq_ok outcome
  cases t with
  | elseOf => cases tail
  | endOf =>
    obtain ⟨rfl, rfl⟩ := pure_eq_ok tail
    exact image before _ between head

theorem branches_image {most : Nat} (image : Image nested sequence (fun read => read.1.depth ≤ most)) {type : BlockType}
    {before after : List UInt8} {i : Instruction}
    (outcome : (do
        match ← nested with
        | (body, .endOf) => return Instruction.ifThen type body
        | (body, .elseOf) => return Instruction.ifElse type body (← Code.closed nested)) before = .ok i after) :
    i.opcode = 0x04 ∧ nesting i ≤ most + 1 ∧ (operands i).length + after.length ≤ before.length + 1 := by
  obtain ⟨⟨inner, t⟩, between, head, tail⟩ := bind_eq_ok outcome
  obtain ⟨shallow, bound⟩ := image before _ between head
  simp only [sequence, List.length_append] at bound
  cases t with
  | endOf =>
    obtain ⟨rfl, rfl⟩ := pure_eq_ok tail
    refine ⟨rfl, by simpa [nesting, Code.cons, Code.depth] using shallow, ?_⟩
    simp only [operands, List.length_append, List.length_singleton] at bound ⊢
    omega
  | elseOf =>
    obtain ⟨orElse, last, other, made⟩ := bind_eq_ok tail
    obtain ⟨rfl, rfl⟩ := pure_eq_ok made
    obtain ⟨shallowElse, boundElse⟩ := closed_image image between orElse last other
    refine ⟨rfl, by simpa [nesting, Code.cons, Code.depth] using ⟨shallow, shallowElse⟩, ?_⟩
    simp only [operands, List.length_append, List.length_singleton] at bound boundElse ⊢
    omega

theorem readWith_image (image : Image nested sequence (fun read => read.1.depth ≤ Code.maxDepth - (depth + 1)))
    (opcode : UInt8) : Image (Instruction.readWith nested depth opcode) operands
      (fun i => i.opcode = opcode ∧ nesting i ≤ Code.maxDepth - depth) := by
  by_cases structured : opcode = 0x02 ∨ opcode = 0x03 ∨ opcode = 0x04
  · by_cases room : depth < Code.maxDepth
    · have nests : ∀ type (inner : Code), inner.depth ≤ Code.maxDepth - (depth + 1) →
          nesting (.block type inner) ≤ Code.maxDepth - depth := by
        intro type inner shallow
        simp only [nesting, Code.cons, Code.depth]
        omega
      rcases structured with rfl | rfl | rfl
      · rw [readWith_block room]
        exact blockType_image.map₂ (closed_image image) Instruction.block (fun _ _ => rfl)
          (fun type inner _ shallow => ⟨rfl, nests type inner shallow⟩)
      · rw [readWith_loop room]
        exact blockType_image.map₂ (closed_image image) Instruction.loop (fun _ _ => rfl)
          (fun type inner _ shallow => ⟨rfl, nests type inner shallow⟩)
      · rw [readWith_cond room]
        intro before i after outcome
        obtain ⟨type, between, head, tail⟩ := bind_eq_ok outcome
        obtain ⟨_, bound⟩ := blockType_image before type between head
        obtain ⟨begins, shallow, boundBranches⟩ := branches_image image tail
        rw [List.length_singleton] at bound
        exact ⟨⟨begins, by omega⟩, by omega⟩
    · rw [readWith_full structured (Nat.not_lt.mp room)]
      exact throw_image _
  · rw [readWith_op structured]
    apply (op_image opcode).map Instruction.op (fun _ => rfl)
    intro o same
    exact ⟨same, Nat.zero_le _⟩

theorem readFrom_image (fuel depth : Nat) : Image (Code.readFrom fuel depth) sequence
    (fun read => read.1.depth ≤ Code.maxDepth - depth) := by
  induction fuel generalizing depth with
  | zero =>
    intro before read after outcome
    cases outcome
  | succ fuel ih =>
    intro before read after outcome
    obtain ⟨opcode, between, head, tail⟩ := bind_eq_ok outcome
    obtain ⟨_, bound⟩ := byte_image before opcode between head
    rw [List.length_singleton] at bound
    by_cases ends : opcode = Code.endByte
    · simp only [ends, if_true] at tail
      obtain ⟨rfl, rfl⟩ := pure_eq_ok tail
      exact ⟨Nat.zero_le _, bound⟩
    · by_cases parts : opcode = Code.elseByte
      · simp only [parts, if_true] at tail
        obtain ⟨rfl, rfl⟩ := pure_eq_ok tail
        exact ⟨Nat.zero_le _, bound⟩
      · simp only [ends, parts, if_false] at tail
        obtain ⟨first, middle, one, others⟩ := bind_eq_ok tail
        obtain ⟨⟨rest, t⟩, last, more, made⟩ := bind_eq_ok others
        obtain ⟨rfl, rfl⟩ := pure_eq_ok made
        obtain ⟨⟨_, shallow⟩, boundFirst⟩ := readWith_image (ih (depth + 1)) opcode between first middle one
        obtain ⟨shallowRest, boundRest⟩ := ih depth middle _ last more
        dsimp only at shallowRest
        simp only [sequence, body_cons, List.length_append, List.length_cons] at boundRest ⊢
        rw [depth_cons]
        omega

end Images

theorem encode_eq_body (code : Code) : code.encode = body code ++ [closing .endOf] := by
  simp [Code.encode, Code.units, body, closing]

theorem code_reads {code : Code} (short : ShortTables code) (shallow : code.depth ≤ Code.maxDepth) :
    Reads Code.read code.encode code := by
  rw [encode_eq_body]
  apply closed_reads
  intro rest
  refine (bind_of_ok (remaining_eq (body code ++ [closing .endOf] ++ rest))).trans ?_
  refine readBack short .endOf 0 _ shallow ?_ rest
  simp only [List.length_append, List.length_singleton]
  omega

theorem code : Codec Code.read Code.encode (fun code => code.depth ≤ Code.maxDepth) where
  reads code shallow short := by
    rw [encode_eq_body, List.length_append] at short
    exact code_reads (shortTables_of_bytes (by omega)) shallow
  image := by
    have image : Image Code.readSequence sequence (fun read => read.1.depth ≤ Code.maxDepth) := by
      intro before read after outcome
      exact readFrom_image before.length 0 before read after outcome
    have same : Code.encode = fun code => body code ++ [closing .endOf] := funext encode_eq_body
    rw [same]
    exact closed_image image

theorem encode_positive (code : Code) : 0 < code.encode.length := by
  rw [encode_eq_body, List.length_append]
  exact Nat.lt_add_left _ Nat.zero_lt_one

end WasmMachine.Proofs.CodeCodec

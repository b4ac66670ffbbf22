import WasmMachine.Instruction.Reader

/-! Readers in parts. Numbers, vectors and code are read byte by byte, and what is done with a byte does not depend on
the cursor that it came from. A relation of readers on two cursors that holds of single bytes and is closed under
sequencing therefore holds of everything that is read. -/

namespace WasmMachine.Proofs.ReaderParts

variable {σ τ α β : Type} [Cursor σ] [Cursor τ]

structure ReaderLaw (related : {α : Type} → Reader σ α → Reader τ α → Prop) : Prop where
  pure : ∀ {α : Type} (a : α), related (pure a) (pure a)
  throw : ∀ {α : Type} (e : DecodeError), related (throw e : Reader σ α) (throw e)
  bind : ∀ {α β : Type} {r : Reader σ α} {g : Reader τ α} {next : α → Reader σ β} {others : α → Reader τ β},
    related r g → (∀ a, related (next a) (others a)) → related (r >>= next) (g >>= others)
  byte : related Reader.byte Reader.byte

namespace ReaderLaw

variable {related : {α : Type} → Reader σ α → Reader τ α → Prop} (law : ReaderLaw related)
include law

theorem map {r : Reader σ α} {g : Reader τ α} (each : related r g) (make : α → β) :
    related (do return make (← r)) (do return make (← g)) :=
  law.bind each fun a => law.pure (make a)

theorem repeated {r : Reader σ α} {g : Reader τ α} (item : related r g) (count : Nat) :
    related (Reader.repeated r count) (Reader.repeated g count) := by
  induction count with
  | zero => exact law.pure []
  | succ count ih => exact law.bind item fun first => law.map ih (first :: ·)

section Integers

theorem unsigned (allowed weight value : Nat) :
    related (Leb128.readUnsigned allowed weight value) (Leb128.readUnsigned allowed weight value) := by
  induction allowed generalizing weight value with
  | zero => exact law.throw _
  | succ allowed ih =>
    apply law.bind law.byte
    intro b
    dsimp only
    split
    · split
      · exact law.pure _
      · exact law.throw _
    · exact ih _ _

theorem signed (allowed weight value : Nat) :
    related (Leb128.readSigned allowed weight value) (Leb128.readSigned allowed weight value) := by
  induction allowed generalizing weight value with
  | zero => exact law.throw _
  | succ allowed ih =>
    apply law.bind law.byte
    intro b
    dsimp only
    split
    · split
      · exact law.pure _
      · exact law.pure _
    · exact ih _ _

theorem u32 : related Leb128.readU32 Leb128.readU32 := law.unsigned _ _ _

theorem s32 : related Leb128.readS32 Leb128.readS32 := law.signed _ _ _

end Integers

theorem vector {r : Reader σ α} {g : Reader τ α} (item : related r g) : related (Counted.read r) (Counted.read g) :=
  law.bind law.u32 fun count => law.repeated item count.toNat

section Instructions

theorem memArg : related MemArg.read MemArg.read :=
  law.bind law.u32 fun align => law.map law.u32 (MemArg.mk align)

theorem blockType : related BlockType.read BlockType.read := by
  apply law.bind law.byte
  intro b
  split
  · exact law.pure _
  · cases ValueType.ofByte? b with
    | some t => exact law.pure _
    | none => exact law.throw _

theorem op (opcode : UInt8) : related (Op.read opcode) (Op.read opcode) := by
  unfold Op.read
  split
  · exact law.pure _
  · exact law.pure _
  · exact law.map law.u32 Op.br
  · exact law.map law.u32 Op.brIf
  · exact law.bind (law.vector law.u32) fun labels => law.map law.u32 (Op.brTable labels)
  · exact law.pure _
  · exact law.map law.u32 Op.call
  · exact law.bind law.u32 fun type => law.map law.u32 (Op.callIndirect type)
  · exact law.map law.u32 Op.localGet
  · exact law.map law.u32 Op.localSet
  · exact law.map law.u32 Op.localTee
  · exact law.map law.u32 Op.globalGet
  · exact law.map law.u32 Op.globalSet
  · exact law.map law.memArg Op.load
  · exact law.map law.memArg Op.store
  · exact law.map law.s32 Op.const
  · exact law.pure _
  · exact law.pure _
  · exact law.pure _
  · exact law.pure _
  · exact law.pure _
  · exact law.pure _
  · exact law.throw _

end Instructions

section Sequences

variable {nested : Reader σ (Code × Terminator)} {others : Reader τ (Code × Terminator)}

theorem closed (sequence : related nested others) : related (Code.closed nested) (Code.closed others) := by
  apply law.bind sequence
  rintro ⟨code, terminator⟩
  cases terminator with
  | endOf => exact law.pure code
  | elseOf => exact law.throw _

theorem branches (sequence : related nested others) (type : BlockType) :
    related (do
        match ← nested with
        | (body, .endOf) => return Instruction.ifThen type body
        | (body, .elseOf) => return Instruction.ifElse type body (← Code.closed nested))
      (do
        match ← others with
        | (body, .endOf) => return Instruction.ifThen type body
        | (body, .elseOf) => return Instruction.ifElse type body (← Code.closed others)) := by
  apply law.bind sequence
  rintro ⟨body, terminator⟩
  cases terminator with
  | endOf => exact law.pure _
  | elseOf => exact law.map (law.closed sequence) (Instruction.ifElse type body)

theorem readWith (sequence : related nested others) (depth : Nat) (opcode : UInt8) :
    related (Instruction.readWith nested depth opcode) (Instruction.readWith others depth opcode) := by
  by_cases structured : opcode = 0x02 ∨ opcode = 0x03 ∨ opcode = 0x04
  · by_cases deep : Code.maxDepth ≤ depth
    · simp only [Instruction.readWith, structured, deep, if_true]
      exact law.throw _
    · simp only [Instruction.readWith, structured, deep, if_true, if_false]
      apply law.bind law.blockType
      intro type
      split
      · exact law.map (law.closed sequence) (Instruction.block type)
      · split
        · exact law.map (law.closed sequence) (Instruction.loop type)
        · exact law.branches sequence type
  · simp only [Instruction.readWith, structured, if_false]
    exact law.map (law.op opcode) Instruction.op

/-- The second reader may have more fuel, if running out of it is related to going on. -/
theorem readFrom (more : Nat) (out : ∀ depth, related (Code.readFrom 0 depth) (Code.readFrom more depth))
    (fuel depth : Nat) : related (Code.readFrom fuel depth) (Code.readFrom (more + fuel) depth) := by
  induction fuel generalizing depth with
  | zero => exact out depth
  | succ fuel ih =>
    apply law.bind law.byte
    intro opcode
    split
    · exact law.pure _
    · split
      · exact law.pure _
      · apply law.bind (law.readWith (ih (depth + 1)) depth opcode)
        intro first
        exact law.bind (ih depth) fun rest => law.pure _

end Sequences

end ReaderLaw

end WasmMachine.Proofs.ReaderParts

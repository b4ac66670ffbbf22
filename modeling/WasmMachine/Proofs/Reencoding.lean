import WasmMachine.Proofs.Respelling
import WasmMachine.Proofs.SectionCuts

/-! A module that was read is written again in the same bytes, apart from integers that were longer than they had to be
and from bits of constants that are dropped when they are read. -/

namespace WasmMachine.Proofs.Reencoding
open Sequencing ByteCodec Leb128Codec CountedCodec CodeCodec EntryCodec ModuleCodec SectionCuts Respelling Leb128

section Instructions

theorem valueType_byte {b : UInt8} {t : ValueType} (known : ValueType.ofByte? b = some t) : t.toByte = b := by
  unfold ValueType.ofByte? at known
  split at known <;> cases known <;> rfl

theorem valueType_spelled : Spelled ValueType.read (fun t => [t.toByte]) := by
  apply Continues.spelled
  apply byte_spelled.bind
  intro b
  apply lift_continues
  intro t known
  unfold ValueType.ofByte at known
  split at known
  next found =>
    cases known
    rw [valueType_byte found]
    rfl
  next => cases known

theorem blockType_spelled : Spelled BlockType.read (fun t => [t.toByte]) := by
  apply Continues.spelled
  apply byte_spelled.bind
  intro b
  split
  next empty =>
    subst empty
    exact .pure rfl
  next =>
    cases found : ValueType.ofByte? b with
    | none => exact .throw _
    | some t => exact .pure (by rw [BlockType.toByte, valueType_byte found]; rfl)

theorem memArg_spelled : Spelled MemArg.read (fun arg => arg.units.flatten) :=
  (u32_spelled.map₂ u32_spelled MemArg.mk (fun _ _ => by simp [MemArg.units])).spelled

theorem labels_spelled : Spelled (Counted.read readU32) (Counted.encode encodeU32) := vector_spelled u32_spelled

/-- An instruction whose only immediate is an index. -/
theorem index_continues {opcode : UInt8} (make : UInt32 → Op) (begins : ∀ n, (make n).opcode = opcode)
    (units : ∀ n, (make n).immediateUnits = [encodeU32 n]) :
    Continues [opcode] (do return make (← readU32)) (fun o => o.opcode :: immediates o) := by
  apply u32_spelled.map
  intro n
  rw [begins, immediates, units]
  simp

/-- Behind all opcodes but that of constants. -/
theorem op_continues {opcode : UInt8} (other : opcode ≠ 0x41) :
    Continues [opcode] (Op.read opcode) (fun o => o.opcode :: immediates o) := by
  unfold Op.read
  split
  · exact .pure rfl
  · exact .pure rfl
  · exact index_continues Op.br (fun _ => rfl) (fun _ => rfl)
  · exact index_continues Op.brIf (fun _ => rfl) (fun _ => rfl)
  · exact labels_spelled.map₂ u32_spelled Op.brTable (fun _ _ => by simp [Op.opcode, immediates_brTable])
  · exact .pure rfl
  · exact index_continues Op.call (fun _ => rfl) (fun _ => rfl)
  · exact u32_spelled.map₂ u32_spelled Op.callIndirect (fun _ _ => by simp [Op.opcode, immediates_callIndirect])
  · exact index_continues Op.localGet (fun _ => rfl) (fun _ => rfl)
  · exact index_continues Op.localSet (fun _ => rfl) (fun _ => rfl)
  · exact index_continues Op.localTee (fun _ => rfl) (fun _ => rfl)
  · exact index_continues Op.globalGet (fun _ => rfl) (fun _ => rfl)
  · exact index_continues Op.globalSet (fun _ => rfl) (fun _ => rfl)
  · exact memArg_spelled.map Op.load (fun _ => rfl)
  · exact memArg_spelled.map Op.store (fun _ => rfl)
  · exact absurd rfl other
  · exact .pure rfl
  · exact .pure rfl
  · exact .pure rfl
  · exact .pure rfl
  · exact .pure rfl
  · exact .pure rfl
  · exact .throw _

/-- With the opcode in front, which shows where a constant begins. -/
theorem op_spells {opcode : UInt8} {before after : List UInt8} {o : Op} (outcome : Op.read opcode before = .ok o after) :
    Spells (opcode :: before) after (o.opcode :: immediates o) := by
  by_cases const : opcode = 0x41
  · subst const
    obtain ⟨n, between, head, tail⟩ := bind_eq_ok (show (do return Op.const (← readS32)) before = _ from outcome)
    obtain ⟨rfl, rfl⟩ := pure_eq_ok tail
    have written : immediates (.const n) = encodeS32 n := List.append_nil _
    rw [written]
    exact const_spells head
  · exact (op_continues const).behind outcome

variable {nested : Reader (List UInt8) (Code × Terminator)} {depth : Nat}

theorem closed_spelled (spelled : Spelled nested CodeCodec.sequence) :
    Spelled (Code.closed nested) (fun code => body code ++ [closing .endOf]) := by
  intro before code after outcome
  obtain ⟨⟨read, t⟩, between, head, tail⟩ := bind_eq_ok outcome
  cases t with
  | elseOf => cases tail
  | endOf =>
    obtain ⟨rfl, rfl⟩ := pure_eq_ok tail
    exact spelled before _ between head

theorem branches_continues (spelled : Spelled nested CodeCodec.sequence) (type : BlockType) :
    Continues [0x04, type.toByte] (do
        match ← nested with
        | (body, .endOf) => return Instruction.ifThen type body
        | (body, .elseOf) => return Instruction.ifElse type body (← Code.closed nested))
      (fun i => i.opcode :: operands i) := by
  apply spelled.bind
  intro ⟨inner, t⟩
  cases t with
  | endOf => exact .pure rfl
  | elseOf =>
    apply (closed_spelled spelled).map
    intro orElse
    simp [operands, CodeCodec.sequence, Instruction.opcode]

theorem structured_continues (spelled : Spelled nested CodeCodec.sequence) {opcode : UInt8}
    (structured : opcode = 0x02 ∨ opcode = 0x03 ∨ opcode = 0x04) :
    Continues [opcode] (Instruction.readWith nested depth opcode) (fun i => i.opcode :: operands i) := by
  by_cases room : depth < Code.maxDepth
  · rcases structured with rfl | rfl | rfl
    · rw [readWith_block room]
      exact blockType_spelled.map₂ (closed_spelled spelled) Instruction.block (fun _ _ => rfl)
    · rw [readWith_loop room]
      exact blockType_spelled.map₂ (closed_spelled spelled) Instruction.loop (fun _ _ => rfl)
    · rw [readWith_cond room]
      exact blockType_spelled.bind (branches_continues spelled)
  · intro before i after outcome
    simp only [Instruction.readWith, structured, if_true, Nat.not_lt.mp room] at outcome
    cases outcome

theorem readWith_spells (spelled : Spelled nested CodeCodec.sequence) {opcode : UInt8} {before after : List UInt8}
    {i : Instruction} (outcome : Instruction.readWith nested depth opcode before = .ok i after) :
    Spells (opcode :: before) after (i.opcode :: operands i) := by
  by_cases structured : opcode = 0x02 ∨ opcode = 0x03 ∨ opcode = 0x04
  · exact (structured_continues spelled structured).behind outcome
  · rw [readWith_op structured] at outcome
    obtain ⟨o, between, head, tail⟩ := bind_eq_ok outcome
    obtain ⟨rfl, rfl⟩ := pure_eq_ok tail
    exact op_spells head

theorem readFrom_spelled (fuel depth : Nat) : Spelled (Code.readFrom fuel depth) CodeCodec.sequence := by
  induction fuel generalizing depth with
  | zero =>
    intro before read after outcome
    cases outcome
  | succ fuel ih =>
    intro before read after outcome
    obtain ⟨opcode, between, head, tail⟩ := bind_eq_ok outcome
    obtain rfl := byte_eq_ok head
    by_cases ends : opcode = Code.endByte
    · simp only [ends, if_true] at tail ⊢
      obtain ⟨rfl, rfl⟩ := pure_eq_ok tail
      exact .byte _ _
    · by_cases parts : opcode = Code.elseByte
      · simp only [parts, if_true] at tail ⊢
        obtain ⟨rfl, rfl⟩ := pure_eq_ok tail
        exact .byte _ _
      · simp only [ends, parts, if_false] at tail
        obtain ⟨first, middle, one, others⟩ := bind_eq_ok tail
        obtain ⟨⟨rest, t⟩, last, more, made⟩ := bind_eq_ok others
        obtain ⟨rfl, rfl⟩ := pure_eq_ok made
        have spells := (readWith_spells (ih (depth + 1)) one).trans (ih depth middle _ last more)
        simpa only [CodeCodec.sequence, body_cons, List.cons_append, List.append_assoc] using spells

theorem code_spelled : Spelled Code.read Code.encode := by
  have same : Code.encode = fun code => body code ++ [closing .endOf] := funext encode_eq_body
  rw [same]
  apply closed_spelled
  intro before read after outcome
  exact readFrom_spelled before.length 0 before read after outcome

end Instructions

section Entries

theorem refType_spelled : Spelled RefType.read (fun t => [t.toByte]) := by
  apply Continues.spelled
  apply byte_spelled.bind
  intro b
  apply lift_continues
  intro t known
  unfold RefType.ofByte at known
  split at known <;> cases known <;> rfl

theorem functionType_spelled : Spelled FunctionType.read FunctionType.encode := by
  apply Continues.spelled
  apply byte_spelled.bind
  intro tag
  dsimp only
  split
  · intro before t after outcome
    cases outcome
  next known =>
    obtain rfl : tag = 0x60 := Decidable.not_not.mp known
    have types := vector_spelled valueType_spelled
    exact types.map₂ types FunctionType.mk (fun _ _ => rfl)

theorem limits_spelled : Spelled Limits.read Limits.encode := by
  apply Continues.spelled
  apply byte_spelled.bind
  intro tag
  split
  · exact u32_spelled.map (Limits.mk · none) (fun _ => rfl)
  · exact u32_spelled.map₂ u32_spelled (fun min max => Limits.mk min (some max)) (fun _ _ => rfl)
  · exact .throw _

theorem tableType_spelled : Spelled TableType.read TableType.encode :=
  (refType_spelled.map₂ limits_spelled TableType.mk (fun _ _ => rfl)).spelled

theorem globalType_spelled : Spelled GlobalType.read GlobalType.encode := by
  apply Continues.spelled
  apply valueType_spelled.bind
  intro type
  apply byte_spelled.bind
  intro tag
  split
  · exact .pure rfl
  · exact .pure rfl
  · exact .throw _

theorem importDesc_spelled : Spelled ImportDesc.read ImportDesc.encode := by
  apply Continues.spelled
  apply byte_spelled.bind
  intro tag
  split
  next known => exact u32_spelled.map ImportDesc.function (fun _ => by rw [← entityKind.mp known]; rfl)
  next known => exact tableType_spelled.map ImportDesc.table (fun _ => by rw [← entityKind.mp known]; rfl)
  next known => exact limits_spelled.map ImportDesc.memory (fun _ => by rw [← entityKind.mp known]; rfl)
  next known => exact globalType_spelled.map ImportDesc.global (fun _ => by rw [← entityKind.mp known]; rfl)
  next => exact .throw _

theorem import_spelled : Spelled Import.read Import.encode := by
  apply Continues.spelled
  apply name_spelled.bind
  intro source
  exact name_spelled.map₂ importDesc_spelled (Import.mk source) (fun _ _ => rfl)

theorem export_spelled : Spelled Export.read Export.encode := by
  apply Continues.spelled
  apply name_spelled.bind
  intro name
  apply byte_spelled.bind
  intro tag
  apply u32_spelled.bind
  intro index
  split
  next kind known => exact .pure (by simp [Export.encode, entityKind.mp known])
  next => exact .throw _

theorem globalDecl_spelled : Spelled GlobalDecl.read GlobalDecl.encode :=
  (globalType_spelled.map₂ code_spelled GlobalDecl.mk (fun _ _ => rfl)).spelled

theorem localGroup_spelled : Spelled LocalGroup.read LocalGroup.encode :=
  (u32_spelled.map₂ valueType_spelled LocalGroup.mk (fun _ _ => rfl)).spelled

theorem functionBody_spelled : Spelled FunctionBody.read FunctionBody.encode := by
  have parts : FunctionBody.readContents = readAll (do
      let locals ← Counted.read LocalGroup.read
      let code ← Code.read
      return FunctionBody.mk locals code) (.trailingBytes 10) := by
    simp only [FunctionBody.readContents, readAll, bind_assoc, pure_bind]
  change Spelled (readSized FunctionBody.readContents fun _ _ => .unexpectedEof) _
  rw [parts]
  apply sized_spelled
  exact ((vector_spelled localGroup_spelled).map₂ code_spelled FunctionBody.mk (fun _ _ => rfl)).spelled

end Entries

section Segments

theorem elementMode_spelled (flags : UInt32) : Spelled (Element.readMode flags) (Element.encodeMode flags) := by
  apply Continues.spelled
  unfold Element.readMode
  cases Element.inactiveBit flags with
  | true =>
    cases Element.explicitBit flags with
    | true => exact .pure rfl
    | false => exact .pure rfl
  | false =>
    cases explicit : Element.explicitBit flags with
    | true => exact u32_spelled.map₂ code_spelled ElementMode.active (fun _ _ => by simp [Element.encodeMode, explicit])
    | false => exact code_spelled.map (ElementMode.active 0) (fun _ => by simp [Element.encodeMode, explicit])

theorem elementKind_spelled (flags : UInt32) : Spelled (Element.readKind flags) (kindBytes flags) := by
  unfold Element.readKind kindBytes
  cases Element.namesKind flags with
  | false => exact (Continues.pure rfl).spelled
  | true =>
    cases Element.expressionBit flags with
    | true => exact refType_spelled
    | false =>
      apply Continues.spelled
      apply byte_spelled.bind
      intro kind
      split
      · exact .pure rfl
      · exact .throw _

theorem elementItems_spelled (flags : UInt32) : Spelled (Element.readItems flags) Element.encodeItems := by
  apply Continues.spelled
  unfold Element.readItems
  cases Element.expressionBit flags with
  | true => exact (vector_spelled code_spelled).map ElementItems.expressions (fun _ => rfl)
  | false => exact labels_spelled.map ElementItems.functions (fun _ => rfl)

theorem element_spelled : Spelled Element.read Element.encode := by
  intro before e after outcome
  obtain ⟨flags, between, head, tail⟩ := bind_eq_ok outcome
  dsimp only at tail
  split at tail
  · cases tail
  · obtain ⟨mode, second, modeRead, others⟩ := bind_eq_ok tail
    obtain ⟨type, third, kindRead, last⟩ := bind_eq_ok others
    obtain ⟨items, fourth, itemsRead, made⟩ := bind_eq_ok last
    obtain ⟨rfl, rfl⟩ := pure_eq_ok made
    obtain ⟨⟨itemsAgree, _⟩, _⟩ := (elementItems flags).image third items fourth itemsRead
    have kind : (Element.mk flags type mode items).encodeKind = kindBytes flags type := encodeKind_eq itemsAgree
    rw [Element.encode, kind]
    have front := (u32_spelled before flags between head).trans (elementMode_spelled flags between mode second modeRead)
    have typed := front.trans (elementKind_spelled flags second type third kindRead)
    exact typed.trans (elementItems_spelled flags third items fourth itemsRead)

theorem dataMode_spelled : Spelled DataMode.read DataMode.encode := by
  apply Continues.spelled
  apply u32_spelled.bind
  intro flags
  split
  · exact code_spelled.map DataMode.active (fun _ => rfl)
  · exact .pure rfl
  · exact u32_spelled.map₂ code_spelled DataMode.activeExplicit (fun _ _ => rfl)
  · exact .throw _

theorem dataSegment_spelled : Spelled DataSegment.read DataSegment.encode :=
  (dataMode_spelled.map₂ bytes_spelled DataSegment.mk (fun _ _ => rfl)).spelled

end Segments

section Sections

theorem custom_spelled : Spelled (Section.readContents 0) contents := by
  intro before s after outcome
  obtain ⟨known, between, head, tail⟩ := bind_eq_ok outcome
  have tail := (bind_of_ok (remaining_eq between)).symm.trans tail
  have all : Reader.bytes between.length between = .ok between [] := by
    simp [Reader.bytes, Cursor.take]
  have tail := (bind_of_ok all).symm.trans tail
  obtain ⟨rfl, rfl⟩ := pure_eq_ok tail
  exact (name_spelled before known between head).trans ⟨between, (List.append_nil _).symm, .refl between⟩

theorem contents_spelled (id : UInt8) : Spelled (Section.readContents id) contents := by
  unfold Section.readContents
  split
  · exact custom_spelled
  · exact ((vector_spelled functionType_spelled).map Section.types (fun _ => rfl)).spelled
  · exact ((vector_spelled import_spelled).map Section.imports (fun _ => rfl)).spelled
  · exact (labels_spelled.map Section.functions (fun _ => rfl)).spelled
  · exact ((vector_spelled tableType_spelled).map Section.tables (fun _ => rfl)).spelled
  · exact ((vector_spelled limits_spelled).map Section.memories (fun _ => rfl)).spelled
  · exact ((vector_spelled globalDecl_spelled).map Section.globals (fun _ => rfl)).spelled
  · exact ((vector_spelled export_spelled).map Section.exports (fun _ => rfl)).spelled
  · exact (u32_spelled.map Section.start (fun _ => rfl)).spelled
  · exact ((vector_spelled element_spelled).map Section.elements (fun _ => rfl)).spelled
  · exact ((vector_spelled functionBody_spelled).map Section.bodies (fun _ => rfl)).spelled
  · exact ((vector_spelled dataSegment_spelled).map Section.data (fun _ => rfl)).spelled
  · exact (u32_spelled.map Section.dataCount (fun _ => rfl)).spelled
  · exact (Continues.throw _).spelled

theorem section_spelled : Spelled Section.read sectionBytes := by
  rw [read_eq]
  intro before s after outcome
  obtain ⟨id, between, head, tail⟩ := bind_eq_ok outcome
  obtain ⟨⟨⟨same, _⟩, _⟩, _⟩ := sized_image (readContents_image id) between s after tail
  have spells := (byte_spelled before id between head).trans (sized_spelled (contents_spelled id) between s after tail)
  rw [sectionBytes, same]
  exact spells

theorem piece_compares {piece : List UInt8} {s : Section} (whole : Piece piece s) : Compares piece (sectionBytes s) := by
  have outcome := whole.delimits.reads []
  rw [List.append_nil] at outcome
  obtain ⟨bytes, all, compares⟩ := section_spelled piece s [] outcome
  rw [all, List.append_nil]
  exact compares

theorem pieces_compare {pieces : List (List UInt8)} {sections : List Section}
    (each : List.Forall₂ Piece pieces sections) : Compares pieces.flatten (sections.flatMap sectionBytes) := by
  induction each with
  | nil => exact .refl []
  | cons first _ ih => exact (piece_compares first).append ih

theorem decode_compares {bytes : List UInt8} {m : Module} (decoded : Module.decode bytes = .ok m) :
    Compares bytes (moduleBytes m) := by
  obtain ⟨_, pieces, rfl, each⟩ := decode_pieces decoded
  exact (Compares.refl _).append (pieces_compare each)

end Sections

/-- What was read is written again in fewer bytes, or in the same ones up to the bits of constants that are dropped. -/
theorem reencoding_respells {bytes written : List UInt8} {m : Module} (decoded : Module.decode bytes = .ok m)
    (standard : ∀ s ∈ m.sections, ∀ name contents, s ≠ .custom name contents) (encoded : m.encode = .ok written) :
    written.length < bytes.length ∨ Respelled bytes written := by
  obtain ⟨_, good, _⟩ := decode_image decoded
  have fits : ∀ s ∈ m.sections, Fits s := by
    intro s member
    obtain ⟨proper, short⟩ := good s member
    exact ⟨proper, standard s member, short⟩
  obtain rfl : moduleBytes m = written := Except.ok.inj ((encode_eq_moduleBytes fits).symm.trans encoded)
  exact decode_compares decoded

/-- A constant of five groups, the last of which has a bit that does not belong to the integer. -/
def strayBit : List UInt8 :=
  [0x00, 0x61, 0x73, 0x6d, 0x01, 0x00, 0x00, 0x00,
    0x06, 0x0a, 0x01, 0x7f, 0x00, 0x41, 0xff, 0xff, 0xff, 0xff, 0x17, 0x0b]

def strayModule : Module where
  sections := [.globals [⟨⟨.i32, false⟩, .op (.const 2147483647) .nil⟩]]

/-- The same bytes without it. -/
def strayBitDropped : List UInt8 :=
  [0x00, 0x61, 0x73, 0x6d, 0x01, 0x00, 0x00, 0x00,
    0x06, 0x0a, 0x01, 0x7f, 0x00, 0x41, 0xff, 0xff, 0xff, 0xff, 0x07, 0x0b]

theorem strayBit_respells : Module.decode strayBit = .ok strayModule ∧ strayModule.encode = .ok strayBitDropped ∧
    (strayBitDropped.length < strayBit.length ∨ Respelled strayBit strayBitDropped) := by
  have decoded : Module.decode strayBit = .ok strayModule := by decide +kernel
  have encoded : strayModule.encode = .ok strayBitDropped := by decide +kernel
  exact ⟨decoded, encoded, reencoding_respells decoded (by simp [strayModule]) encoded⟩

/-- Neither the same bytes nor fewer. -/
theorem strayBit_not_exact : ∃ m written, Module.decode strayBit = .ok m ∧
    (∀ s ∈ m.sections, ∀ name contents, s ≠ .custom name contents) ∧ m.encode = .ok written ∧
    ¬ (written = strayBit ∨ written.length < strayBit.length) :=
  ⟨strayModule, strayBitDropped, by decide +kernel, by simp [strayModule], by decide +kernel, by decide⟩

end WasmMachine.Proofs.Reencoding

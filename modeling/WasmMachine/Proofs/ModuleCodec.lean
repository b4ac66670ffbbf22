import WasmMachine.Proofs.EntryCodec

/-! Modules are read back, and every module that is read can be written again, in no more bytes. -/

namespace WasmMachine.Proofs.ModuleCodec
open Sequencing ByteCodec Leb128Codec CountedCodec CodeCodec EntryCodec Leb128

def segments : Section → List Element
  | .elements items => items
  | _ => []

def expressions : Section → List Code
  | .globals items => items.map GlobalDecl.init
  | .elements items => items.flatMap elementExpressions
  | .bodies items => items.map FunctionBody.code
  | .data items => items.flatMap (dataOffset ·.mode)
  | _ => []

/-- The bytes between the size of a section and the next section. Custom sections have some too, although they
are never written. -/
def contents : Section → List UInt8
  | .custom name bytes => Counted.encodeName name ++ bytes
  | .elements items => Counted.encode Element.encode items
  | s => s.encodeContents.toOption.getD []

structure ProperSection (s : Section) : Prop where
  elements : ∀ e ∈ segments s, e.check = .ok () ∧ (e.refType = .funcref ∨ e.flags ∈ [5, 6, 7])
  shallow : Shallow (expressions s)

/-- Nothing in the section keeps it from being written and read back. -/
structure Fits (s : Section) : Prop extends ProperSection s where
  standard : ∀ name bytes, s ≠ .custom name bytes
  short : (contents s).length < UInt32.size

section Contents

theorem encodeBytes_positive (bytes : List UInt8) : 0 < (Counted.encodeBytes bytes).length := by
  have := encodeU32_positive (UInt32.ofNat bytes.length)
  simp only [Counted.encodeBytes, Counted.length, List.length_append]
  omega

theorem functionTypes : Codec (Counted.read FunctionType.read) (Counted.encode FunctionType.encode) (fun _ => True) :=
  (vector functionType (fun _ => Nat.zero_lt_succ _)).of (fun _ _ => rfl) (fun _ => by simp)

theorem imports : Codec (Counted.read Import.read) (Counted.encode Import.encode) (fun _ => True) := by
  apply (vector import_ _).of (fun _ _ => rfl) (fun _ => by simp)
  intro i
  have := encodeBytes_positive i.source.toUTF8.toList
  simp only [Import.encode, Counted.encodeName, List.length_append]
  omega

theorem indices : Codec (Counted.read readU32) (Counted.encode encodeU32) (fun _ => True) :=
  (vector u32 encodeU32_positive).of (fun _ _ => rfl) (fun _ => by simp)

theorem tableTypes : Codec (Counted.read TableType.read) (Counted.encode TableType.encode) (fun _ => True) :=
  (vector tableType (fun _ => Nat.zero_lt_succ _)).of (fun _ _ => rfl) (fun _ => by simp)

theorem memories : Codec (Counted.read Limits.read) (Counted.encode Limits.encode) (fun _ => True) := by
  apply (vector limits _).of (fun _ _ => rfl) (fun _ => by simp)
  intro l
  unfold Limits.encode
  split <;> exact Nat.zero_lt_succ _

theorem globals : Codec (Counted.read GlobalDecl.read) (Counted.encode GlobalDecl.encode)
    (fun items => Shallow (items.map GlobalDecl.init)) :=
  (vector globalDecl (fun _ => Nat.zero_lt_succ _)).of (fun _ _ => rfl) (fun _ => by simp [Shallow])

theorem exports : Codec (Counted.read Export.read) (Counted.encode Export.encode) (fun _ => True) := by
  apply (vector export_ _).of (fun _ _ => rfl) (fun _ => by simp)
  intro e
  simp only [Export.encode, List.length_append, List.length_cons]
  omega

theorem bodies : Codec (Counted.read FunctionBody.read) (Counted.encode FunctionBody.encode)
    (fun items => Shallow (items.map FunctionBody.code)) :=
  (vector functionBody (fun _ => encodeBytes_positive _)).of (fun _ _ => rfl) (fun _ => by simp [Shallow])

theorem dataSegments : Codec (Counted.read DataSegment.read) (Counted.encode DataSegment.encode)
    (fun items => Shallow (items.flatMap (dataOffset ·.mode))) := by
  apply (vector dataSegment _).of (fun _ _ => rfl)
  · intro items
    constructor
    · intro shallow d member code inside
      exact shallow code (List.mem_flatMap.mpr ⟨d, member, inside⟩)
    · intro shallow code inside
      obtain ⟨d, member, inside⟩ := List.mem_flatMap.mp inside
      exact shallow d member code inside
  · intro d
    have := encodeBytes_positive d.bytes
    simp only [DataSegment.encode, List.length_append]
    omega

theorem elements : Codec (Counted.read Element.read) (Counted.encode Element.encode)
    (fun items => ProperSection (.elements items)) := by
  apply (vector element element_positive).of (fun _ _ => rfl)
  intro items
  constructor
  · intro proper e member
    obtain ⟨agree, typed⟩ := proper.elements e member
    exact ⟨agree, typed, fun code inside => proper.shallow code (List.mem_flatMap.mpr ⟨e, member, inside⟩)⟩
  · intro proper
    refine ⟨?_, ?_⟩
    · intro e member
      exact ⟨(proper e member).agree, (proper e member).typed⟩
    · intro code inside
      obtain ⟨e, member, inside⟩ := List.mem_flatMap.mp inside
      exact (proper e member).shallow code inside

end Contents

section Sections

private theorem proper_of_shallow {s : Section} (none : segments s = []) (shallow : Shallow (expressions s)) :
    ProperSection s := by
  refine ⟨?_, shallow⟩
  rw [none]
  exact fun _ member => absurd member List.not_mem_nil

private theorem proper_of_bare {s : Section} (none : segments s = []) (bare : expressions s = []) :
    ProperSection s := by
  apply proper_of_shallow none
  rw [bare]
  exact fun _ member => absurd member List.not_mem_nil

theorem readContents_reads {s : Section} (fits : Fits s) : Reads (Section.readContents s.id) (contents s) s := by
  have proper := fits.toProperSection
  have short := fits.short
  cases s with
  | custom name bytes => exact absurd rfl (fits.standard name bytes)
  | types items => exact (functionTypes.reads items trivial short).map Section.types rfl
  | imports items => exact (imports.reads items trivial short).map Section.imports rfl
  | functions items => exact (indices.reads items trivial short).map Section.functions rfl
  | tables items => exact (tableTypes.reads items trivial short).map Section.tables rfl
  | memories items => exact (memories.reads items trivial short).map Section.memories rfl
  | globals items => exact (globals.reads items proper.shallow short).map Section.globals rfl
  | exports items => exact (exports.reads items trivial short).map Section.exports rfl
  | start function => exact (u32_reads function).map Section.start rfl
  | elements items => exact (elements.reads items proper short).map Section.elements rfl
  | bodies items => exact (bodies.reads items proper.shallow short).map Section.bodies rfl
  | data items => exact (dataSegments.reads items proper.shallow short).map Section.data rfl
  | dataCount count => exact (u32_reads count).map Section.dataCount rfl

theorem readCustom_image : Image (Section.readContents 0) contents (fun s => s.id = 0 ∧ ProperSection s) := by
  intro before s after outcome
  obtain ⟨known, between, head, tail⟩ := bind_eq_ok outcome
  obtain ⟨_, bound⟩ := name.image before known between head
  have tail := (bind_of_ok (remaining_eq between)).symm.trans tail
  have all : Reader.bytes between.length between = .ok between [] := by
    simp [Reader.bytes, Cursor.take]
  have tail := (bind_of_ok all).symm.trans tail
  obtain ⟨rfl, rfl⟩ := pure_eq_ok tail
  refine ⟨⟨rfl, proper_of_bare rfl rfl⟩, ?_⟩
  simp only [contents, List.length_append, List.length_nil]
  omega

theorem readContents_image (id : UInt8) :
    Image (Section.readContents id) contents (fun s => s.id = id ∧ ProperSection s) := by
  unfold Section.readContents
  split
  · exact readCustom_image
  · exact functionTypes.image.map Section.types (fun _ => rfl)
      (fun _ _ => ⟨rfl, proper_of_bare rfl rfl⟩)
  · exact imports.image.map Section.imports (fun _ => rfl)
      (fun _ _ => ⟨rfl, proper_of_bare rfl rfl⟩)
  · exact indices.image.map Section.functions (fun _ => rfl)
      (fun _ _ => ⟨rfl, proper_of_bare rfl rfl⟩)
  · exact tableTypes.image.map Section.tables (fun _ => rfl)
      (fun _ _ => ⟨rfl, proper_of_bare rfl rfl⟩)
  · exact memories.image.map Section.memories (fun _ => rfl)
      (fun _ _ => ⟨rfl, proper_of_bare rfl rfl⟩)
  · exact globals.image.map Section.globals (fun _ => rfl)
      (fun _ shallow => ⟨rfl, proper_of_shallow rfl shallow⟩)
  · exact exports.image.map Section.exports (fun _ => rfl)
      (fun _ _ => ⟨rfl, proper_of_bare rfl rfl⟩)
  · exact u32.image.map Section.start (fun _ => rfl)
      (fun _ _ => ⟨rfl, proper_of_bare rfl rfl⟩)
  · exact elements.image.map Section.elements (fun _ => rfl) (fun _ proper => ⟨rfl, proper⟩)
  · exact bodies.image.map Section.bodies (fun _ => rfl)
      (fun _ shallow => ⟨rfl, proper_of_shallow rfl shallow⟩)
  · exact dataSegments.image.map Section.data (fun _ => rfl)
      (fun _ shallow => ⟨rfl, proper_of_shallow rfl shallow⟩)
  · exact u32.image.map Section.dataCount (fun _ => rfl)
      (fun _ _ => ⟨rfl, proper_of_bare rfl rfl⟩)
  · exact throw_image _

theorem read_eq : (Section.read : Reader (List UInt8) Section) = (do
    let id ← Reader.byte
    readSized (Section.readWhole id) (.sectionTooShort id)) := by
  unfold Section.read Section.readHeader readSized Section.readBody
  simp only [bind_assoc]
  congr
  funext id
  congr
  funext size
  congr
  funext left
  split <;> rfl

def sectionBytes (s : Section) : List UInt8 := s.id :: Counted.encodeBytes (contents s)

theorem sectionBytes_positive (s : Section) : 0 < (sectionBytes s).length := Nat.zero_lt_succ _

theorem section_reads {s : Section} (fits : Fits s) : Reads Section.read (sectionBytes s) s := by
  have inner : Section.readWhole s.id (contents s) = .ok s [] := by
    have reads := readContents_reads fits []
    rw [List.append_nil] at reads
    exact readAll_of_nil reads _
  rw [read_eq]
  apply Reads.tagged
  exact sized_reads inner fits.short _

theorem section_image : Image Section.read sectionBytes
    (fun s => ProperSection s ∧ (contents s).length < UInt32.size) := by
  rw [read_eq]
  intro before s after outcome
  obtain ⟨id, between, head, tail⟩ := bind_eq_ok outcome
  obtain ⟨_, bound⟩ := byte_image before id between head
  obtain ⟨⟨⟨same, proper⟩, short⟩, boundSized⟩ := sized_image (readContents_image id) between s after tail
  refine ⟨⟨proper, short⟩, ?_⟩
  dsimp only at boundSized
  simp only [sectionBytes, List.length_cons, List.length_nil] at bound ⊢
  omega

end Sections

section Modules

variable {m : Module} {bytes : List UInt8}

theorem readSections_reads (sections : List Section) (fits : ∀ s ∈ sections, Fits s) (fuel : Nat)
    (enough : sections.length ≤ fuel) :
    Module.readSections fuel (sections.flatMap sectionBytes) = .ok sections [] := by
  induction sections generalizing fuel with
  | nil => cases fuel <;> rfl
  | cons s others ih =>
    obtain ⟨fuel, rfl⟩ : ∃ less, fuel = less + 1 := ⟨fuel - 1, by simp only [List.length_cons] at enough; omega⟩
    have later := ih (fun t member => fits t (List.mem_cons_of_mem _ member)) fuel (Nat.le_of_succ_le_succ enough)
    have more : Reader.atEnd ((s :: others).flatMap sectionBytes) = .ok false _ := rfl
    refine (bind_of_ok more).trans ?_
    refine (bind_of_ok (section_reads (fits s List.mem_cons_self) _)).trans ?_
    exact bind_of_ok later

theorem readSections_image (fuel : Nat) (before : List UInt8) (sections : List Section) (after : List UInt8)
    (outcome : Module.readSections fuel before = .ok sections after) :
    (∀ s ∈ sections, ProperSection s ∧ (contents s).length < UInt32.size) ∧
      (sections.flatMap sectionBytes).length ≤ before.length := by
  induction fuel generalizing before sections with
  | zero =>
    obtain ⟨rfl, rfl⟩ := pure_eq_ok outcome
    exact ⟨fun _ member => absurd member List.not_mem_nil, Nat.zero_le _⟩
  | succ fuel ih =>
    obtain ⟨ended, between, head, tail⟩ := bind_eq_ok outcome
    cases head
    split at tail
    · obtain ⟨rfl, rfl⟩ := pure_eq_ok tail
      exact ⟨fun _ member => absurd member List.not_mem_nil, Nat.zero_le _⟩
    · obtain ⟨first, middle, one, others⟩ := bind_eq_ok tail
      obtain ⟨rest, last, more, made⟩ := bind_eq_ok others
      obtain ⟨rfl, rfl⟩ := pure_eq_ok made
      obtain ⟨good, bound⟩ := section_image before first middle one
      obtain ⟨goodRest, boundRest⟩ := ih middle rest more
      refine ⟨List.forall_mem_cons.mpr ⟨good, goodRest⟩, ?_⟩
      rw [List.flatMap_cons, List.length_append]
      omega

private theorem forM_check {items : List Element} (agree : ∀ e ∈ items, e.check = .ok ()) :
    items.forM Element.check = .ok () := by
  induction items with
  | nil => rfl
  | cons e others ih =>
    change (do e.check; others.forM Element.check) = _
    rw [agree e List.mem_cons_self]
    exact ih (fun f member => agree f (List.mem_cons_of_mem _ member))

theorem encodeContents_eq {s : Section} (standard : ∀ name bytes, s ≠ .custom name bytes) (proper : ProperSection s) :
    s.encodeContents = .ok (contents s) := by
  cases s with
  | custom name bytes => exact absurd rfl (standard name bytes)
  | elements items =>
    have checked : items.forM Element.check = .ok () := forM_check (fun e member => (proper.elements e member).1)
    change (do items.forM Element.check; return Counted.encode Element.encode items) = _
    rw [checked]
    rfl
  | _ => rfl

theorem encodeSections_eq {sections : List Section} (fits : ∀ s ∈ sections, Fits s) :
    Module.encodeSections sections = .ok (sections.flatMap sectionBytes) := by
  induction sections with
  | nil => rfl
  | cons s others ih =>
    have later := ih (fun t member => fits t (List.mem_cons_of_mem _ member))
    have written := encodeContents_eq (fits s List.mem_cons_self).standard (fits s List.mem_cons_self).toProperSection
    simp only [Module.encodeSections, Section.encode, written, later]
    rfl

theorem readPreamble_reads (version : Word) :
    Reads Module.readPreamble (Module.standardMagic.toList ++ version.toList) (Module.standardMagic, version) := by
  apply Reads.bind (exactly_reads Module.standardMagic.toList)
  intro rest
  exact bind_of_ok (exactly_reads version.toList rest)

private theorem word_toList {bytes : List UInt8} {word : Word} (known : Word.ofList? bytes = some word) :
    word.toList = bytes := by
  unfold Word.ofList? at known
  split at known
  · cases known
    rfl
  · cases known

theorem readPreamble_eq_ok {before after : List UInt8} {magic version : Word}
    (outcome : Module.readPreamble before = .ok (magic, version) after) :
    magic = Module.standardMagic ∧ before = magic.toList ++ version.toList ++ after := by
  obtain ⟨first, between, head, tail⟩ := bind_eq_ok outcome
  obtain ⟨_, rfl⟩ := exactly_image head
  dsimp only at tail
  split at tail
  · cases tail
  next standard =>
    obtain ⟨second, last, other, made⟩ := bind_eq_ok tail
    obtain ⟨_, rfl⟩ := exactly_image other
    cases known : Word.ofList? second with
    | none =>
      rw [known] at made
      cases made
    | some word =>
      rw [known] at made
      cases made
      rw [word_toList known, ← Decidable.not_not.mp standard, List.append_assoc]
      exact ⟨rfl, rfl⟩

theorem readPreamble_image {before after : List UInt8} {magic version : Word}
    (outcome : Module.readPreamble before = .ok (magic, version) after) :
    magic = Module.standardMagic ∧ after.length + 8 = before.length := by
  obtain ⟨standard, rfl⟩ := readPreamble_eq_ok outcome
  simp only [Word.toList, List.length_append, List.length_cons, List.length_nil]
  exact ⟨standard, by omega⟩

def moduleBytes (m : Module) : List UInt8 := m.magic.toList ++ m.version.toList ++ m.sections.flatMap sectionBytes

theorem encode_eq_moduleBytes {m : Module} (fits : ∀ s ∈ m.sections, Fits s) : m.encode = .ok (moduleBytes m) := by
  simp only [Module.encode, encodeSections_eq fits]
  rfl

theorem decode_moduleBytes {m : Module} (magic : m.magic = Module.standardMagic) (fits : ∀ s ∈ m.sections, Fits s) :
    Module.decode (moduleBytes m) = .ok m := by
  have fewer : m.sections.length ≤ (m.sections.flatMap sectionBytes).length :=
    Codec.length_le_flatMap sectionBytes_positive m.sections
  have loaded : Module.load (moduleBytes m) = .ok ⟨Module.standardMagic, m.version, m.sections⟩ [] := by
    rw [moduleBytes, magic]
    refine (bind_of_ok (readPreamble_reads m.version _)).trans ?_
    refine (bind_of_ok (remaining_eq _)).trans ?_
    exact bind_of_ok (readSections_reads m.sections fits _ fewer)
  simp only [Module.decode, loaded]
  rw [← magic]

theorem decode_image {bytes : List UInt8} {m : Module} (decoded : Module.decode bytes = .ok m) :
    m.magic = Module.standardMagic ∧ (∀ s ∈ m.sections, ProperSection s ∧ (contents s).length < UInt32.size) ∧
      (moduleBytes m).length ≤ bytes.length := by
  unfold Module.decode at decoded
  split at decoded
  next read after outcome =>
    cases decoded
    obtain ⟨⟨magic, version⟩, between, head, tail⟩ := bind_eq_ok outcome
    obtain ⟨rfl, preamble⟩ := readPreamble_image head
    have tail := (bind_of_ok (remaining_eq between)).symm.trans tail
    obtain ⟨sections, last, read, made⟩ := bind_eq_ok tail
    obtain ⟨rfl, rfl⟩ := pure_eq_ok made
    obtain ⟨good, bound⟩ := readSections_image _ between sections last read
    refine ⟨rfl, good, ?_⟩
    simp only [moduleBytes, Word.toList, List.length_append, List.length_cons, List.length_nil]
    omega
  next => cases decoded

end Modules

/-- The sections that are written and read back. The size of the contents also limits all vectors, names and
bodies in them, since none of their items is written as nothing. -/
structure Writable (s : Section) : Prop extends ProperSection s where
  standard : ∀ name bytes, s ≠ .custom name bytes
  short : ∀ bytes, s.encodeContents = .ok bytes → bytes.length < UInt32.size

theorem Writable.fits {s : Section} (writable : Writable s) : Fits s :=
  ⟨writable.toProperSection, writable.standard,
    writable.short _ (encodeContents_eq writable.standard writable.toProperSection)⟩

/-- Reading undoes writing, on every module that has a written form. -/
theorem decode_encode (m : Module) (magic : m.magic = Module.standardMagic) (writable : ∀ s ∈ m.sections, Writable s) :
    ∃ bytes, m.encode = .ok bytes ∧ Module.decode bytes = .ok m := by
  have fits : ∀ s ∈ m.sections, Fits s := fun s member => (writable s member).fits
  exact ⟨moduleBytes m, encode_eq_moduleBytes fits, decode_moduleBytes magic fits⟩

/-- A module with sections twice and out of order, another version, and a segment that names its own type. -/
def unusualModule : Module where
  version := ⟨0xff, 0x01, 0x02, 0x03⟩
  sections := [
    .dataCount 1,
    .elements [⟨6, .externref, .active 1 (.op (.const (-1)) .nil), .expressions [.nil]⟩],
    .bodies [⟨[⟨300, .i32⟩], .block .empty (.op (.brTable [0, 0] 0) .nil) .nil⟩],
    .dataCount 1]

theorem unusualModule_reads_back :
    ∃ bytes, unusualModule.encode = .ok bytes ∧ Module.decode bytes = .ok unusualModule := by
  apply decode_encode unusualModule rfl
  intro s member
  simp only [unusualModule, List.mem_cons, List.not_mem_nil, or_false] at member
  rcases member with rfl | rfl | rfl | rfl
  all_goals
    refine ⟨⟨by decide, by decide⟩, by simp, ?_⟩
    intro bytes written
    cases written
    decide

/-- Whatever is read without custom sections can be written again, in no more bytes, and is then read as the same
module. The bytes need not be the same: integers may have been longer than they had to be. -/
theorem encode_decoded (bytes : List UInt8) (m : Module) (decoded : Module.decode bytes = .ok m)
    (standard : ∀ s ∈ m.sections, ∀ name bytes, s ≠ .custom name bytes) :
    ∃ written, m.encode = .ok written ∧ written.length ≤ bytes.length ∧ Module.decode written = .ok m := by
  obtain ⟨magic, good, bound⟩ := decode_image decoded
  have fits : ∀ s ∈ m.sections, Fits s := by
    intro s member
    obtain ⟨proper, short⟩ := good s member
    exact ⟨proper, standard s member, short⟩
  exact ⟨moduleBytes m, encode_eq_moduleBytes fits, bound, decode_moduleBytes magic fits⟩

/-- Two integers in more groups than they need. -/
def longForm : List UInt8 := [0x00, 0x61, 0x73, 0x6d, 0x01, 0x00, 0x00, 0x00, 0x0c, 0x82, 0x00, 0x81, 0x00]

theorem longForm_encode_decoded :
    ∃ written, Module.encode { sections := [.dataCount 1] } = .ok written ∧ written.length ≤ longForm.length ∧
      Module.decode written = .ok { sections := [.dataCount 1] } :=
  encode_decoded longForm { sections := [.dataCount 1] } rfl (by simp)

end WasmMachine.Proofs.ModuleCodec

import WasmMachine.Proofs.CodeCodec

/-! The entries of sections are read back: signatures, limits, imports, exports, globals, function bodies and
segments. -/

namespace WasmMachine.Proofs.EntryCodec
open Sequencing ByteCodec Leb128Codec CountedCodec CodeCodec Leb128

theorem refType : Codec RefType.read (fun t => [t.toByte]) (fun _ => True) := by
  apply Codec.enumerated
  intro b t
  constructor
  · intro known
    unfold RefType.ofByte at known
    split at known <;> cases known <;> rfl
  · rintro rfl
    cases t <;> rfl

theorem valueTypes : Codec (Counted.read ValueType.read) (Counted.encode fun t => [t.toByte]) (fun _ => True) :=
  (vector valueType (fun _ => Nat.zero_lt_one)).of (fun _ _ => rfl) (fun _ => by simp)

theorem functionType : Codec FunctionType.read FunctionType.encode (fun _ => True) where
  reads t _ short := by
    simp only [FunctionType.encode, List.length_cons, List.length_append] at short
    apply Reads.tagged
    exact (valueTypes.reads t.params trivial (by omega)).map₂ (valueTypes.reads t.results trivial (by omega))
      FunctionType.mk rfl
  image := by
    apply Image.behind_byte
    intro tag
    dsimp only
    split
    · intro before t after outcome
      cases outcome
    · exact valueTypes.image.map₂ valueTypes.image FunctionType.mk (fun _ _ => rfl) (fun _ _ _ _ => trivial)

theorem limits : Codec Limits.read Limits.encode (fun _ => True) where
  reads l _ _ := by
    obtain ⟨min, max⟩ := l
    cases max with
    | none =>
      apply Reads.tagged
      exact (u32_reads min).map (Limits.mk · none) rfl
    | some max =>
      apply Reads.tagged
      exact (u32_reads min).map₂ (u32_reads max) (fun min max => Limits.mk min (some max)) rfl
  image := by
    apply Image.behind_byte
    intro tag
    split
    · exact u32.image.map (Limits.mk · none) (fun _ => rfl) (fun _ _ => trivial)
    · exact u32.image.map₂ u32.image (fun min max => Limits.mk min (some max)) (fun _ _ => rfl) (fun _ _ _ _ => trivial)
    · exact throw_image _

theorem tableType : Codec TableType.read TableType.encode (fun _ => True) :=
  refType.map₂ limits TableType.mk (fun _ _ => rfl) (fun t => by simp)

theorem globalType : Codec GlobalType.read GlobalType.encode (fun _ => True) where
  reads t _ _ := by
    obtain ⟨valueType, isMutable⟩ := t
    cases valueType <;> cases isMutable <;> exact fun rest => rfl
  image before t after outcome := by
    obtain ⟨type, between, head, tail⟩ := bind_eq_ok outcome
    obtain ⟨tag, last, flag, made⟩ := bind_eq_ok tail
    obtain ⟨_, bound⟩ := valueType.image before type between head
    obtain ⟨_, boundFlag⟩ := byte_image between tag last flag
    rw [List.length_singleton] at bound boundFlag
    have stopped : last = after := by
      split at made
      · exact (pure_eq_ok made).2
      · exact (pure_eq_ok made).2
      · cases made
    refine ⟨trivial, ?_⟩
    rw [stopped] at boundFlag
    simp only [GlobalType.encode, List.length_cons, List.length_nil]
    omega

theorem importDesc : Codec ImportDesc.read ImportDesc.encode (fun _ => True) where
  reads d _ short := by
    simp only [ImportDesc.encode, List.length_cons] at short
    cases d with
    | function type =>
      apply Reads.tagged
      exact (u32_reads type).map ImportDesc.function rfl
    | table type =>
      apply Reads.tagged
      exact (tableType.reads type trivial (Nat.lt_of_succ_lt short)).map ImportDesc.table rfl
    | memory type =>
      apply Reads.tagged
      exact (limits.reads type trivial (Nat.lt_of_succ_lt short)).map ImportDesc.memory rfl
    | global type =>
      apply Reads.tagged
      exact (globalType.reads type trivial (Nat.lt_of_succ_lt short)).map ImportDesc.global rfl
  image := by
    apply Image.behind_byte
    intro tag
    split
    · exact u32.image.map ImportDesc.function (fun _ => rfl) (fun _ _ => trivial)
    · exact tableType.image.map ImportDesc.table (fun _ => rfl) (fun _ _ => trivial)
    · exact limits.image.map ImportDesc.memory (fun _ => rfl) (fun _ _ => trivial)
    · exact globalType.image.map ImportDesc.global (fun _ => rfl) (fun _ _ => trivial)
    · exact throw_image _

theorem import_ : Codec Import.read Import.encode (fun _ => True) := by
  have described : Codec (do
      let name ← Counted.readName
      let desc ← ImportDesc.read
      return (name, desc)) (fun p => Counted.encodeName p.1 ++ p.2.encode) (fun _ => True) :=
    name.map₂ importDesc Prod.mk (fun _ _ => rfl) (fun p => by simp)
  have parts : (Import.read : Reader (List UInt8) Import) = (do
      let source ← Counted.readName
      let described ← (do
        let name ← Counted.readName
        let desc ← ImportDesc.read
        return (name, desc))
      return ⟨source, described.1, described.2⟩) := by
    simp only [Import.read, bind_assoc, pure_bind]
  rw [parts]
  apply name.map₂ described (fun source described => Import.mk source described.1 described.2)
  · intro source described
    exact List.append_assoc ..
  · intro i
    simp

theorem entityKind {tag : UInt8} {kind : EntityKind} : EntityKind.ofByte? tag = some kind ↔ kind.toByte = tag := by
  constructor
  · intro known
    unfold EntityKind.ofByte? at known
    split at known <;> cases known <;> rfl
  · rintro rfl
    cases kind <;> rfl

theorem export_ : Codec Export.read Export.encode (fun _ => True) where
  reads e _ short := by
    rw [Export.encode, List.length_append] at short
    have named := name.reads e.name trivial (by omega)
    apply Reads.bind named
    apply Reads.tagged
    intro rest
    refine (bind_of_ok (u32_reads e.index rest)).trans ?_
    simp only [entityKind.mpr rfl]
    rfl
  image before e after outcome := by
    obtain ⟨known, between, head, tail⟩ := bind_eq_ok outcome
    obtain ⟨tag, middle, kind, others⟩ := bind_eq_ok tail
    obtain ⟨index, last, indexed, made⟩ := bind_eq_ok others
    obtain ⟨_, bound⟩ := name.image before known between head
    obtain ⟨_, boundKind⟩ := byte_image between tag middle kind
    obtain ⟨_, boundIndex⟩ := u32.image middle index last indexed
    cases known : EntityKind.ofByte? tag with
    | none =>
      rw [known] at made
      cases made
    | some kind =>
      rw [known] at made
      obtain ⟨rfl, rfl⟩ := pure_eq_ok made
      refine ⟨trivial, ?_⟩
      simp only [Export.encode, List.length_append, List.length_cons, List.length_nil] at boundKind ⊢
      omega

theorem globalDecl : Codec GlobalDecl.read GlobalDecl.encode (fun g => g.init.depth ≤ Code.maxDepth) := by
  apply globalType.map₂ code GlobalDecl.mk (fun _ _ => rfl)
  intro g
  refine ⟨fun shallow => ⟨g.type, g.init, trivial, shallow, rfl⟩, ?_⟩
  rintro ⟨type, init, _, shallow, rfl⟩
  exact shallow

theorem localGroup : Codec LocalGroup.read LocalGroup.encode (fun _ => True) :=
  u32.map₂ valueType LocalGroup.mk (fun _ _ => rfl) (fun g => by simp)

theorem localGroup_positive (g : LocalGroup) : 0 < g.encode.length := by
  rw [LocalGroup.encode, List.length_append]
  exact Nat.lt_add_left _ Nat.zero_lt_one

theorem functionBody : Codec FunctionBody.read FunctionBody.encode (fun f => f.code.depth ≤ Code.maxDepth) := by
  have parts : FunctionBody.readContents = readAll (do
      let locals ← Counted.read LocalGroup.read
      let code ← Code.read
      return FunctionBody.mk locals code) (.trailingBytes 10) := by
    simp only [FunctionBody.readContents, readAll, bind_assoc, pure_bind]
  change Codec (readSized FunctionBody.readContents fun _ _ => .unexpectedEof) _ _
  rw [parts]
  apply sized ((vector localGroup localGroup_positive).map₂ code FunctionBody.mk (fun _ _ => rfl) ?_)
  intro f
  refine ⟨fun shallow => ⟨f.locals, f.code, fun _ _ => trivial, shallow, rfl⟩, ?_⟩
  rintro ⟨locals, code, _, shallow, rfl⟩
  exact shallow

/-- No expression is nested deeper than is read. -/
def Shallow (codes : List Code) : Prop := ∀ code ∈ codes, code.depth ≤ Code.maxDepth

instance (codes : List Code) : Decidable (Shallow codes) :=
  inferInstanceAs (Decidable (∀ code ∈ codes, code.depth ≤ Code.maxDepth))

section Elements

def offset : ElementMode → List Code
  | .active _ code => [code]
  | .passive | .declarative => []

def itemExpressions : ElementItems → List Code
  | .functions _ => []
  | .expressions codes => codes

variable (flags : UInt32)

theorem elementMode : Codec (Element.readMode flags) (Element.encodeMode flags)
    (fun mode => Element.modeAgrees flags mode = true ∧ Shallow (offset mode)) := by
  unfold Element.readMode
  cases inactive : Element.inactiveBit flags with
  | true =>
    cases explicit : Element.explicitBit flags with
    | true =>
      apply (Codec.pure ElementMode.declarative).of (by rintro _ rfl; rfl)
      intro mode
      cases mode <;> simp [Element.modeAgrees, inactive, explicit, offset, Shallow]
    | false =>
      apply (Codec.pure ElementMode.passive).of (by rintro _ rfl; rfl)
      intro mode
      cases mode <;> simp [Element.modeAgrees, inactive, explicit, offset, Shallow]
  | false =>
    cases explicit : Element.explicitBit flags with
    | true =>
      apply u32.map₂ code ElementMode.active
      · intro table code
        simp [Element.encodeMode, explicit]
      · intro mode
        cases mode <;> simp [Element.modeAgrees, inactive, explicit, offset, Shallow]
    | false =>
      apply code.map (ElementMode.active 0)
      · intro code
        simp [Element.encodeMode, explicit]
      · intro mode
        cases mode with
        | active table code =>
          simp only [Element.modeAgrees, inactive, explicit, offset, Shallow]
          constructor
          · rintro ⟨first, shallow⟩
            obtain rfl : table = 0 := by simpa using first
            exact ⟨code, by simpa using shallow, rfl⟩
          · rintro ⟨_, shallow, same⟩
            cases same
            exact ⟨rfl, by simpa using shallow⟩
        | passive | declarative => simp [Element.modeAgrees, inactive]

/-- The byte that names the kind of the items, where there is one. -/
def kindBytes (type : RefType) : List UInt8 :=
  if Element.namesKind flags then
    if Element.expressionBit flags then [type.toByte] else [0x00]
  else []

theorem elementKind : Codec (Element.readKind flags) (kindBytes flags)
    (fun type => type = .funcref ∨ (Element.namesKind flags = true ∧ Element.expressionBit flags = true)) := by
  unfold Element.readKind kindBytes
  cases named : Element.namesKind flags with
  | false => exact (Codec.pure RefType.funcref).of (fun _ _ => rfl) (fun _ => by simp)
  | true =>
    cases expressions : Element.expressionBit flags with
    | true => exact refType.of (fun _ _ => rfl) (fun _ => by simp)
    | false =>
      refine ⟨?_, ?_⟩
      · intro type same _ rest
        obtain rfl : type = .funcref := by simpa using same
        rfl
      · apply Image.behind_byte
        intro tag
        split
        · exact pure_image rfl (.inl rfl)
        · exact throw_image _

theorem elementItems : Codec (Element.readItems flags) Element.encodeItems
    (fun items => Element.itemsAgree flags items = true ∧ Shallow (itemExpressions items)) := by
  unfold Element.readItems
  cases expressions : Element.expressionBit flags with
  | true =>
    apply (vector code encode_positive).map ElementItems.expressions (fun _ => rfl)
    intro items
    cases items <;> simp [Element.itemsAgree, expressions, itemExpressions, Shallow]
  | false =>
    apply (vector u32 encodeU32_positive).map ElementItems.functions (fun _ => rfl)
    intro items
    cases items <;> simp [Element.itemsAgree, expressions, itemExpressions, Shallow]

def elementExpressions (e : Element) : List Code := offset e.mode ++ itemExpressions e.items

/-- Only three forms name the type of references that are given by expressions. -/
theorem namesType_iff {flags : UInt32} (known : flags ≤ 7) :
    (Element.namesKind flags = true ∧ Element.expressionBit flags = true) ↔ flags ∈ [5, 6, 7] := by
  have forms : ∀ n : Fin 8, (Element.namesKind (UInt32.ofNat n) = true ∧
      Element.expressionBit (UInt32.ofNat n) = true) ↔ UInt32.ofNat n ∈ [5, 6, 7] := by decide
  have few : flags.toNat < 8 := Nat.lt_succ_of_le (UInt32.le_iff_toNat_le.mp known)
  have form := forms ⟨flags.toNat, few⟩
  rwa [UInt32.ofNat_toNat] at form

theorem encodeKind_eq {e : Element} (agree : Element.itemsAgree e.flags e.items = true) :
    e.encodeKind = kindBytes e.flags e.refType := by
  unfold Element.encodeKind kindBytes
  cases items : e.items <;> simp_all [Element.itemsAgree]

/-- The segments that are read back: their flags agree with what they are, and they hold references to functions
unless their form can name another type. -/
structure ProperElement (e : Element) : Prop where
  agree : e.check = .ok ()
  typed : e.refType = .funcref ∨ e.flags ∈ [5, 6, 7]
  shallow : Shallow (elementExpressions e)

theorem check_eq_ok {e : Element} : e.check = .ok () ↔
    e.flags ≤ 7 ∧ Element.modeAgrees e.flags e.mode = true ∧ Element.itemsAgree e.flags e.items = true := by
  unfold Element.check Element.flagsAgree
  split
  next agree => simpa [and_assoc] using agree
  next disagree => simpa [and_assoc] using disagree

/-- A segment whose flags agree with it is read back part by part. -/
theorem element_reads_of_parts {e : Element} (agree : e.check = .ok ())
    (mode : Reads (Element.readMode e.flags) (Element.encodeMode e.flags e.mode) e.mode)
    (kind : Reads (Element.readKind e.flags) (kindBytes e.flags e.refType) e.refType)
    (items : Reads (Element.readItems e.flags) (Element.encodeItems e.items) e.items) :
    Reads Element.read e.encode e := by
  obtain ⟨known, _, itemsAgree⟩ := check_eq_ok.mp agree
  simp only [Element.encode, encodeKind_eq itemsAgree, List.append_assoc]
  apply Reads.bind (u32_reads e.flags)
  rw [if_neg (UInt32.not_lt.mpr known)]
  apply Reads.bind mode
  exact kind.map₂ items (fun type items => Element.mk e.flags type e.mode items) rfl

theorem element : Codec Element.read Element.encode ProperElement where
  reads e proper short := by
    obtain ⟨known, mode, items⟩ := check_eq_ok.mp proper.agree
    have typed := proper.typed
    rw [← namesType_iff known] at typed
    have shallow := List.forall_mem_append.mp proper.shallow
    simp only [Element.encode, encodeKind_eq items, List.length_append] at short
    apply element_reads_of_parts proper.agree
    · exact (elementMode e.flags).reads e.mode ⟨mode, shallow.1⟩ (by omega)
    · exact (elementKind e.flags).reads e.refType typed (by omega)
    · exact (elementItems e.flags).reads e.items ⟨items, shallow.2⟩ (by omega)
  image before e after outcome := by
    obtain ⟨flags, between, head, tail⟩ := bind_eq_ok outcome
    obtain ⟨_, bound⟩ := u32.image before flags between head
    dsimp only at tail
    split at tail
    · cases tail
    next known =>
      obtain ⟨mode, second, modeRead, others⟩ := bind_eq_ok tail
      obtain ⟨type, third, kindRead, last⟩ := bind_eq_ok others
      obtain ⟨items, fourth, itemsRead, made⟩ := bind_eq_ok last
      obtain ⟨rfl, rfl⟩ := pure_eq_ok made
      obtain ⟨⟨modeAgrees, offsetShallow⟩, boundMode⟩ := (elementMode flags).image between mode second modeRead
      obtain ⟨typed, boundKind⟩ := (elementKind flags).image second type third kindRead
      obtain ⟨⟨itemsAgree, itemsShallow⟩, boundItems⟩ := (elementItems flags).image third items fourth itemsRead
      have few := UInt32.not_lt.mp known
      rw [namesType_iff few] at typed
      refine ⟨⟨check_eq_ok.mpr ⟨few, modeAgrees, itemsAgree⟩, typed,
        List.forall_mem_append.mpr ⟨offsetShallow, itemsShallow⟩⟩, ?_⟩
      have kind : (Element.mk flags type mode items).encodeKind = kindBytes flags type := encodeKind_eq itemsAgree
      simp only [Element.encode, kind, List.length_append]
      omega

theorem element_positive (e : Element) : 0 < e.encode.length := by
  have := encodeU32_positive e.flags
  simp only [Element.encode, List.length_append]
  omega

end Elements

section Data

def dataOffset : DataMode → List Code
  | .passive => []
  | .active code | .activeExplicit _ code => [code]

private theorem shallow_singleton {code : Code} : Shallow [code] ↔ code.depth ≤ Code.maxDepth := List.forall_mem_singleton

theorem dataMode : Codec DataMode.read DataMode.encode (fun mode => Shallow (dataOffset mode)) where
  reads mode shallow short := by
    cases mode with
    | passive => exact fun rest => rfl
    | active offset =>
      simp only [DataMode.encode, List.length_append] at short
      have reads := code.reads offset (shallow_singleton.mp shallow) (by omega)
      exact Reads.bind (u32_reads 0) (reads.map DataMode.active rfl)
    | activeExplicit memory offset =>
      simp only [DataMode.encode, List.length_append] at short
      have reads := code.reads offset (shallow_singleton.mp shallow) (by omega)
      rw [DataMode.encode, List.append_assoc]
      exact Reads.bind (u32_reads 2) ((u32_reads memory).map₂ reads DataMode.activeExplicit rfl)
  image before mode after outcome := by
    obtain ⟨flags, between, head, tail⟩ := bind_eq_ok outcome
    obtain ⟨_, bound⟩ := u32.image before flags between head
    split at tail
    · obtain ⟨offset, last, codeRead, made⟩ := bind_eq_ok tail
      obtain ⟨rfl, rfl⟩ := pure_eq_ok made
      obtain ⟨shallow, boundCode⟩ := code.image between offset last codeRead
      refine ⟨shallow_singleton.mpr shallow, ?_⟩
      simp only [DataMode.encode, List.length_append]
      omega
    · obtain ⟨rfl, rfl⟩ := pure_eq_ok tail
      exact ⟨fun _ member => absurd member List.not_mem_nil, bound⟩
    · obtain ⟨memory, middle, memoryRead, others⟩ := bind_eq_ok tail
      obtain ⟨offset, last, codeRead, made⟩ := bind_eq_ok others
      obtain ⟨rfl, rfl⟩ := pure_eq_ok made
      obtain ⟨_, boundMemory⟩ := u32.image between memory middle memoryRead
      obtain ⟨shallow, boundCode⟩ := code.image middle offset last codeRead
      refine ⟨shallow_singleton.mpr shallow, ?_⟩
      simp only [DataMode.encode, List.length_append]
      omega
    · cases tail

theorem dataSegment : Codec DataSegment.read DataSegment.encode (fun d => Shallow (dataOffset d.mode)) := by
  apply dataMode.map₂ bytes DataSegment.mk (fun _ _ => rfl)
  intro d
  refine ⟨fun shallow => ⟨d.mode, d.bytes, shallow, trivial, rfl⟩, ?_⟩
  rintro ⟨mode, bytes, shallow, _, rfl⟩
  exact shallow

end Data

end WasmMachine.Proofs.EntryCodec

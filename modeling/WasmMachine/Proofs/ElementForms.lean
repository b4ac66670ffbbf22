import WasmMachine.Proofs.EntryCodec

/-! What the eight forms of element segments keep. The flags say which of the other parts are written, so a segment
with flags that agree with its mode and its items loses neither of them. The type of its references is not checked:
five of the forms leave it out, and segments in these forms come back as segments of functions. -/

namespace WasmMachine.Proofs.ElementForms
open ByteCodec Leb128Codec CountedCodec CodeCodec EntryCodec

variable {flags : UInt32} {e : Element}

def itemCount : ElementItems → Nat
  | .functions indices => indices.length
  | .expressions codes => codes.length

/-- All vectors in the segment can be counted. -/
structure ShortVectors (e : Element) : Prop where
  items : itemCount e.items < UInt32.size
  tables : ∀ code ∈ elementExpressions e, ShortTables code

section Parts

theorem mode_reads {mode : ElementMode} (agrees : Element.modeAgrees flags mode = true)
    (each : ∀ code ∈ offset mode, Reads Code.read code.encode code) :
    Reads (Element.readMode flags) (Element.encodeMode flags mode) mode := by
  cases mode with
  | active table code =>
    have placed := each code List.mem_cons_self
    simp only [Element.modeAgrees, Bool.and_eq_true, Bool.not_eq_true'] at agrees
    obtain ⟨active, implied⟩ := agrees
    simp only [Element.readMode, Element.encodeMode, active]
    cases explicit : Element.explicitBit flags with
    | true => exact (u32_reads table).map₂ placed ElementMode.active rfl
    | false =>
      obtain rfl : table = 0 := by simpa [explicit] using implied
      exact placed.map (ElementMode.active 0) rfl
  | passive | declarative =>
    simp only [Element.modeAgrees, Bool.and_eq_true, Bool.not_eq_true'] at agrees
    simp only [Element.readMode, agrees]
    exact fun rest => rfl

theorem items_read {items : ElementItems} (agree : Element.itemsAgree flags items = true)
    (few : itemCount items < UInt32.size) (each : ∀ code ∈ itemExpressions items, Reads Code.read code.encode code) :
    Reads (Element.readItems flags) (Element.encodeItems items) items := by
  cases items with
  | functions indices =>
    simp only [Element.itemsAgree, Bool.not_eq_true'] at agree
    simp only [Element.readItems, agree]
    exact (vector_reads few fun index _ => u32_reads index).map ElementItems.functions rfl
  | expressions codes =>
    simp only [Element.itemsAgree] at agree
    simp only [Element.readItems, agree]
    exact (vector_reads few each).map ElementItems.expressions rfl

theorem kindBytes_short (type : RefType) : (kindBytes flags type).length < UInt32.size := by
  unfold kindBytes
  split
  · split <;> exact (by decide : 1 < UInt32.size)
  · exact (by decide : 0 < UInt32.size)

end Parts

theorem element_reads (proper : ProperElement e) (short : ShortVectors e) : Reads Element.read e.encode e := by
  obtain ⟨known, mode, items⟩ := check_eq_ok.mp proper.agree
  have typed := proper.typed
  rw [← namesType_iff known] at typed
  have each : ∀ code ∈ elementExpressions e, Reads Code.read code.encode code :=
    fun code member => code_reads (short.tables code member) (proper.shallow code member)
  obtain ⟨offsets, expressions⟩ := List.forall_mem_append.mp each
  apply element_reads_of_parts proper.agree
  · exact mode_reads mode offsets
  · exact (elementKind e.flags).reads e.refType typed (kindBytes_short e.refType)
  · exact items_read items short.items expressions

/-- A type that has no place in the form does not show in its bytes. -/
theorem kindBytes_unnamed (unnamed : ¬ (Element.namesKind flags = true ∧ Element.expressionBit flags = true))
    (type other : RefType) : kindBytes flags type = kindBytes flags other := by
  unfold kindBytes
  split
  next named =>
    rw [if_neg fun expressions => unnamed ⟨named, expressions⟩, if_neg fun expressions => unnamed ⟨named, expressions⟩]
  · rfl

/-- The type that a reader finds in the written form, or takes for granted where there is none. -/
def writtenType (e : Element) : RefType := if e.flags ∈ [5, 6, 7] then e.refType else .funcref

theorem writtenType_eq_iff : writtenType e = e.refType ↔ e.refType = .funcref ∨ e.flags ∈ [5, 6, 7] := by
  unfold writtenType
  split
  next named => simp only [named, or_true]
  next unnamed => simp only [unnamed, or_false, eq_comm]

def asWritten (e : Element) : Element := { e with refType := writtenType e }

theorem asWritten_eq_iff : asWritten e = e ↔ writtenType e = e.refType := by
  constructor
  · exact fun same => congrArg Element.refType same
  · intro same
    rw [asWritten, same]

theorem asWritten_proper (agree : e.check = .ok ()) (shallow : Shallow (elementExpressions e)) :
    ProperElement (asWritten e) := by
  refine ⟨agree, ?_, shallow⟩
  by_cases named : e.flags ∈ [5, 6, 7]
  · exact .inr named
  · exact .inl (if_neg named)

theorem asWritten_encode (agree : e.check = .ok ()) : (asWritten e).encode = e.encode := by
  obtain ⟨known, _, items⟩ := check_eq_ok.mp agree
  by_cases named : e.flags ∈ [5, 6, 7]
  · rw [asWritten_eq_iff.mpr (if_pos named)]
  · rw [← namesType_iff known] at named
    have kind : (asWritten e).encodeKind = e.encodeKind := by
      rw [encodeKind_eq items]
      exact (encodeKind_eq (e := asWritten e) items).trans (kindBytes_unnamed named _ _)
    rw [Element.encode, kind]
    rfl

/-- Exactly the segments that pass the check are read back up to the type of their references. -/
theorem accepted_iff (shallow : Shallow (elementExpressions e)) (short : ShortVectors e) :
    e.check = .ok () ↔ Element.read e.encode = .ok (asWritten e) [] := by
  constructor
  · intro agree
    have reads := element_reads (asWritten_proper agree shallow) ⟨short.items, short.tables⟩ []
    rwa [asWritten_encode agree, List.append_nil] at reads
  · intro outcome
    exact (element.image _ _ _ outcome).1.agree

theorem read_back_iff (shallow : Shallow (elementExpressions e)) (short : ShortVectors e) :
    Element.read e.encode = .ok e [] ↔ e.check = .ok () ∧ (e.refType = .funcref ∨ e.flags ∈ [5, 6, 7]) := by
  rw [← writtenType_eq_iff, ← asWritten_eq_iff]
  constructor
  · intro outcome
    obtain ⟨proper, _⟩ := element.image _ _ _ outcome
    exact ⟨proper.agree, asWritten_eq_iff.mpr (writtenType_eq_iff.mpr proper.typed)⟩
  · rintro ⟨agree, same⟩
    have outcome := (accepted_iff shallow short).mp agree
    rwa [same] at outcome

/-- The check lets through exactly the segments that come back with all but their type. The type comes back too where
the form names it, and elsewhere only if it is the one that is taken for granted. -/
theorem type_alone_is_unchecked (shallow : Shallow (elementExpressions e)) (short : ShortVectors e) :
    (e.check = .ok () ↔ Element.read e.encode = .ok (asWritten e) []) ∧
    (Element.read e.encode = .ok e [] ↔ e.check = .ok () ∧ (e.refType = .funcref ∨ e.flags ∈ [5, 6, 7])) :=
  ⟨accepted_iff shallow short, read_back_iff shallow short⟩

/-- The form names the type of the references. -/
def namedType : Element := ⟨6, .externref, .active 3 (.op (.const 1) .nil), .expressions [.op (.globalGet 0) .nil]⟩

/-- The form has no place for the type of the references. -/
def strayType : Element := ⟨0, .externref, .active 0 (.op (.const 0) .nil), .functions [0]⟩

theorem namedType_short : ShortVectors namedType := by
  refine ⟨show 1 < UInt32.size by decide, ?_⟩
  simp [namedType, elementExpressions, offset, itemExpressions, ShortTables, ShortTable]

theorem strayType_short : ShortVectors strayType := by
  refine ⟨show 1 < UInt32.size by decide, ?_⟩
  simp [strayType, elementExpressions, offset, itemExpressions, ShortTables, ShortTable]

theorem namedType_kept_strayType_lost :
    Element.read namedType.encode = .ok namedType [] ∧
    strayType.check = .ok () ∧
    Element.read strayType.encode = .ok { strayType with refType := .funcref } [] := by
  have kept := type_alone_is_unchecked (e := namedType) (by decide) namedType_short
  have lost := type_alone_is_unchecked (e := strayType) (by decide) strayType_short
  exact ⟨kept.2.mpr ⟨rfl, .inr (by decide)⟩, rfl, lost.1.mp rfl⟩

/-- Not every segment that passes the check is read back. -/
theorem strayType_passes : ¬ ∀ e : Element, Shallow (elementExpressions e) → ShortVectors e →
    (e.check = .ok () ↔ Element.read e.encode = .ok e []) := by
  intro always
  have outcome := (always strayType (by decide) strayType_short).mp rfl
  have typed := (element.image _ _ _ outcome).1.typed
  exact absurd typed (by decide)

end WasmMachine.Proofs.ElementForms

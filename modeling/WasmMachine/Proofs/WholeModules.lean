import WasmMachine.Module.Writer

/-! Modules are written whole or not at all. A module is refused for its first section that has no written form, and
such a section for its own name or for its first segment that contradicts itself. Nothing has been written by then:
a buffer takes up the bytes of a module all at once, over those that follow its position. -/

namespace WasmMachine.Proofs.WholeModules

variable {α ε : Type} {refuses : α → ε → Prop}

/-- Of the items that are refused at all, the first one is refused with this error. -/
def First (refuses : α → ε → Prop) (items : List α) (e : ε) : Prop :=
  ∃ front item back, items = front ++ item :: back ∧ (∀ earlier ∈ front, ∀ e, ¬ refuses earlier e) ∧ refuses item e

theorem first_nil {e : ε} : ¬ First refuses [] e := by
  rintro ⟨front, item, back, split, _⟩
  exact List.append_ne_nil_of_right_ne_nil front (List.cons_ne_nil item back) split.symm

theorem first_cons {item : α} {items : List α} {e : ε} :
    First refuses (item :: items) e ↔ refuses item e ∨ (∀ e, ¬ refuses item e) ∧ First refuses items e := by
  constructor
  · rintro ⟨front, refused, back, split, accepted, here⟩
    cases front with
    | nil =>
      cases split
      exact .inl here
    | cons other front =>
      cases split
      obtain ⟨head, tail⟩ := List.forall_mem_cons.mp accepted
      exact .inr ⟨head, front, refused, back, rfl, tail, here⟩
  · rintro (here | ⟨head, front, refused, back, rfl, tail, here⟩)
    · exact ⟨[], item, items, rfl, fun _ impossible => absurd impossible List.not_mem_nil, here⟩
    · exact ⟨item :: front, refused, back, rfl, List.forall_mem_cons.mpr ⟨head, tail⟩, here⟩

theorem exists_first {items : List α} : (∃ e, First refuses items e) ↔ ∃ item ∈ items, ∃ e, refuses item e := by
  induction items with
  | nil => simp only [first_nil, exists_false, List.not_mem_nil, false_and]
  | cons item items ih =>
    simp only [first_cons, exists_or, exists_and_left, ih, List.mem_cons, or_and_right, exists_eq_left]
    by_cases here : ∃ e, refuses item e
    · simp only [here, true_or]
    · simp only [not_exists.mp here, exists_false, not_false_eq_true, implies_true, true_and]

section Errors

variable {β : Type} {e : ε} {first : Except ε α}

theorem bind_eq_error {next : α → Except ε β} :
    (first >>= next) = .error e ↔ first = .error e ∨ ∃ a, first = .ok a ∧ next a = .error e := by
  cases first with
  | ok a =>
    change next a = .error e ↔ _
    simp
  | error other =>
    change Except.error other = .error e ↔ _
    simp

theorem pure_ne_error {a : α} : (pure a : Except ε α) ≠ .error e := by
  intro impossible
  cases impossible

theorem exists_ok : (∃ a, first = .ok a) ↔ ∀ e, ¬ first = .error e := by
  cases first with
  | ok a => simp
  | error other => simp

end Errors

/-- Why a section has no written form. -/
inductive Refuses : Section → EncodeError → Prop where
  | custom (name : String) (bytes : List UInt8) : Refuses (.custom name bytes) (.customSection name)
  | segment {items e} (first : First (fun x e => Element.check x = .error e) items e) : Refuses (.elements items) e

theorem forM_check_eq_error {items : List Element} {e : EncodeError} :
    items.forM Element.check = .error e ↔ First (fun x e => Element.check x = .error e) items e := by
  induction items with
  | nil => exact iff_of_false pure_ne_error first_nil
  | cons x others ih =>
    change (x.check >>= fun _ => others.forM Element.check) = _ ↔ _
    rw [bind_eq_error, first_cons, exists_and_right, exists_ok, ih]

theorem section_encode_eq_error {s : Section} {e : EncodeError} : s.encode = .error e ↔ Refuses s e := by
  have contents : s.encode = .error e ↔ s.encodeContents = .error e := by
    unfold Section.encode
    simp only [bind_eq_error, pure_ne_error, and_false, exists_false, or_false]
  rw [contents]
  cases s with
  | custom name bytes =>
    constructor
    · intro failed
      cases failed
      exact .custom name bytes
    · rintro ⟨⟩
      rfl
  | elements items =>
    change (items.forM Element.check >>= fun _ => pure (Counted.encode Element.encode items)) = _ ↔ _
    simp only [bind_eq_error, pure_ne_error, and_false, exists_false, or_false, forM_check_eq_error]
    constructor
    · exact .segment
    · rintro ⟨⟩
      assumption
  | _ =>
    constructor
    · intro impossible
      cases impossible
    · intro impossible
      cases impossible

theorem encodeSections_eq_error {sections : List Section} {e : EncodeError} :
    Module.encodeSections sections = .error e ↔ First Refuses sections e := by
  induction sections with
  | nil => exact iff_of_false pure_ne_error first_nil
  | cons s others ih =>
    rw [first_cons, ← ih]
    simp only [← section_encode_eq_error, Module.encodeSections, bind_eq_error, pure_ne_error, and_false, exists_false,
      or_false, exists_and_right, exists_ok]

theorem encode_eq_error {m : Module} {e : EncodeError} : m.encode = .error e ↔ First Refuses m.sections e := by
  rw [← encodeSections_eq_error]
  unfold Module.encode
  simp only [bind_eq_error, pure_ne_error, and_false, exists_false, or_false]

/-- A module is refused exactly if something in it has no written form. -/
theorem exists_encode_error {m : Module} : (∃ e, m.encode = .error e) ↔
    (∃ name bytes, Section.custom name bytes ∈ m.sections) ∨
      ∃ items, Section.elements items ∈ m.sections ∧ ∃ x ∈ items, ∃ e, x.check = .error e := by
  simp only [encode_eq_error, exists_first]
  constructor
  · rintro ⟨s, member, e, refused⟩
    cases refused with
    | custom name bytes => exact .inl ⟨name, bytes, member⟩
    | segment first => exact .inr ⟨_, member, exists_first.mp ⟨e, first⟩⟩
  · rintro (⟨name, bytes, member⟩ | ⟨items, member, refused⟩)
    · exact ⟨_, member, _, .custom name bytes⟩
    · obtain ⟨e, first⟩ := exists_first.mpr refused
      exact ⟨_, member, e, .segment first⟩

theorem buffer_ext {a b : Buffer} (bytes : a.bytes.toList = b.bytes.toList) (position : a.position = b.position) :
    a = b := by
  obtain ⟨bytesOfA, positionOfA, _⟩ := a
  obtain ⟨bytesOfB, positionOfB, _⟩ := b
  cases Array.toList_inj.mp bytes
  cases position
  rfl

/-- A module is refused with the error of the first section that has no written form, and of the first segment in it
that is refused; then the buffer is as it was. Otherwise the bytes of the module, and they alone, come to stand from
the position on, and the position comes to stand behind them. -/
theorem stored_whole_or_not (m : Module) (b : Buffer) :
    (∀ e, m.encode = .error e ↔ First Refuses m.sections e) ∧
    ((∃ e, m.encode = .error e) ↔ (∃ name bytes, Section.custom name bytes ∈ m.sections) ∨
      ∃ items, Section.elements items ∈ m.sections ∧ ∃ x ∈ items, ∃ e, x.check = .error e) ∧
    (∀ e after, m.store b = .error e after ↔ m.encode = .error e ∧ after = b) ∧
    (∀ after, m.store b = .ok () after ↔ ∃ bytes, m.encode = .ok bytes ∧
      after.bytes.toList = b.bytes.toList.take b.position ++ bytes ++ b.bytes.toList.drop (b.position + bytes.length) ∧
      after.position = b.position + bytes.length) := by
  refine ⟨fun _ => encode_eq_error, exists_encode_error, ?_, ?_⟩
  · intro e after
    unfold Module.store
    cases m.encode with
    | ok bytes => simp
    | error other => simp [eq_comm]
  · intro after
    unfold Module.store
    cases m.encode with
    | error e => simp
    | ok bytes =>
      simp only [Except.ok.injEq, exists_eq_left', EStateM.Result.ok.injEq, true_and, ← Buffer.write_bytes]
      constructor
      · rintro rfl
        exact ⟨rfl, rfl⟩
      · rintro ⟨same, position⟩
        exact (buffer_ext same position).symm

end WasmMachine.Proofs.WholeModules

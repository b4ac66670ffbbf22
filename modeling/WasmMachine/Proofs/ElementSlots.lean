import WasmMachine.Proofs.Placements

/-! Element segments bind functions to the slots of tables, one slot after the other, and each slot is checked only when
its turn comes. A table is too short for slot numbers to wrap while they are in it, so a run that succeeds has bound
exactly the slots that its segments name. A segment that fails has bound those before the fault, and they stay bound. -/

namespace WasmMachine.Proofs.ElementSlots
open Sequencing InstructionEffects IndexSpaces CodeFootprint ConstantOffsets Placements Instantiation

/-- What an active segment of function indices is laid over. -/
def target? (e : Element) : Option (ActiveSegment UInt32) :=
  match e.mode, e.items with
  | .active table offset, .functions indices => some ⟨table, offset, indices⟩
  | _, _ => none

/-- The active segments of function indices, in their order. -/
def active (es : List Element) : List (ActiveSegment UInt32) := es.filterMap target?

/-- An active segment of expressions, which is refused before its offset is looked at. -/
def unsupported (e : Element) : Bool :=
  match e.mode, e.items with
  | .active _ _, .expressions _ => true
  | _, _ => false

/-- What the slots of all tables hold. -/
def slots (h : Heap) : Array (Array (Option FunctionId)) := h.tables.map Table.slots

/-- The placement of the functions that the indices stand for. -/
def named (functions : Array FunctionId) (p : Placement UInt32) : Placement (Option FunctionId) :=
  p.map (functions[·.toNat]?)

/-- Functions were laid over the slots, and all else is as it was. -/
structure Bound (objects : Array Nat) (ps : List (Placement (Option FunctionId))) (before after : Heap) : Prop where
  slots : slots after = overlaid objects ps (slots before)
  types : after.tables.map (fun t => (t.refType, t.limits)) = before.tables.map fun t => (t.refType, t.limits)
  functions : after.functions = before.functions
  memories : after.memories = before.memories
  globals : after.globals = before.globals

namespace Bound

variable {objects : Array Nat} {p : Placement (Option FunctionId)} {ps : List (Placement (Option FunctionId))}
  {before between after : Heap}

theorem nil (same : after = before) : Bound objects [] before after := by
  subst same
  exact ⟨(overlaid_nil objects _).symm, rfl, rfl, rfl, rfl⟩

theorem cons (head : Bound objects [p] before between) (tail : Bound objects ps between after) :
    Bound objects (p :: ps) before after where
  slots := by rw [overlaid_cons, ← head.slots, tail.slots]
  types := tail.types.trans head.types
  functions := tail.functions.trans head.functions
  memories := tail.memories.trans head.memories
  globals := tail.globals.trans head.globals

end Bound

section Slots

variable {functions : Array FunctionId} {t changed : Table} {m : Machine} {table : UInt32} {id : Nat}

/-- Within a table, slot numbers do not wrap. -/
theorem toNat_next_slot {slot : UInt32} (inside : slot.toNat < t.slots.size) : (slot + 1).toNat = slot.toNat + 1 := by
  have bound : slot.toNat < 10000000 := Nat.lt_of_lt_of_le inside t.size_le
  rw [UInt32.toNat_add, UInt32.toNat_one]
  omega

/-- The table with the functions of these indices in its slots from a number on. -/
structure Rebound (functions : Array FunctionId) (t : Table) (slot : Nat) (indices : List UInt32) (changed : Table) :
    Prop where
  known : ∀ i ∈ indices, ∃ f, functions[i.toNat]? = some f
  within : indices ≠ [] → slot + indices.length ≤ t.slots.size
  slots : changed.slots = patch t.slots slot (indices.map (functions[·.toNat]?))
  type : (changed.refType, changed.limits) = (t.refType, t.limits)

theorem Rebound.nil (slot : Nat) : Rebound functions t slot [] t where
  known := fun _ impossible => absurd impossible List.not_mem_nil
  within nonempty := absurd rfl nonempty
  slots := (patch_nil _ _).symm
  type := rfl

/-- The table with one more slot bound. -/
theorem Rebound.cons {slot : UInt32} {index : UInt32} {indices : List UInt32} {f : FunctionId} {between : Table}
    (found : functions[index.toNat]? = some f) (inside : slot.toNat < t.slots.size) (set : t.set slot f = .ok between)
    (rest : Rebound functions between (slot.toNat + 1) indices changed) :
    Rebound functions t slot.toNat (index :: indices) changed := by
  unfold Table.set at set
  rw [if_pos inside] at set
  cases set
  refine ⟨List.forall_mem_cons.mpr ⟨⟨f, found⟩, rest.known⟩, ?_, ?_, rest.type⟩
  · intro _
    cases indices with
    | nil => exact inside
    | cons next others =>
      have fits := rest.within (List.cons_ne_nil next others)
      simp only [Array.size_setIfInBounds, List.length_cons] at fits ⊢
      omega
  · rw [rest.slots, List.map_cons, found, patch_cons]

/-- Why a function is not bound to a slot: there is no such function, or there is no such slot. -/
inductive Unbindable (functions : Array FunctionId) (size slot : Nat) (index : UInt32) : Halt → Prop where
  | function (missing : functions[index.toNat]? = none) :
      Unbindable functions size slot index (.trap (.invalidIndex .function index))
  | slot (known : ∃ f, functions[index.toNat]? = some f) (outside : size ≤ slot) :
      Unbindable functions size slot index (.trap (.invalidIndex .tableElement (UInt32.ofNat slot)))

theorem set_inside {slot : UInt32} (inside : slot.toNat < t.slots.size) (f : FunctionId) :
    ∃ between, t.set slot f = .ok between ∧ between.slots.size = t.slots.size := by
  refine ⟨_, if_pos inside, ?_⟩
  exact Array.size_setIfInBounds

theorem setTable_self {h : Heap} (stored : h.tables[id]? = some t) : h.setTable id t = h := by
  obtain ⟨inside, rfl⟩ := Array.getElem?_eq_some_iff.mp stored
  simp only [Heap.setTable, Array.setIfInBounds, inside, dif_pos, Array.set_getElem_self]

variable (place : m.store.tables[table.toNat]? = some id) (stored : m.heap.tables[id]? = some t)
include place stored

theorem bindSlots_found {slot index : UInt32} {others : List UInt32} {f : FunctionId}
    (found : m.store.functions[index.toNat]? = some f) : bindSlots table slot (index :: others) m = (do
      let t ← Run.lift (t.set slot f)
      Run.modifyHeap (·.setTable id t)
      bindSlots table (slot + 1) others) m := by
  have function : Run.look (·.functionId index) m = .ok f m := look_found found
  have named : Run.look (·.tableId table) m = .ok id m := look_found place
  have looked : Run.look (·.table table) m = .ok t m := look_found (Option.bind_eq_some_iff.mpr ⟨id, place, stored⟩)
  rw [bindSlots, bind_of_ok function, bind_of_ok named, bind_of_ok looked]

/-- One slot is bound, and the others are left to the table that it is bound in. -/
theorem bindSlots_bound {slot index : UInt32} {others : List UInt32} {f : FunctionId} {between : Table}
    (found : m.store.functions[index.toNat]? = some f) (set : t.set slot f = .ok between) :
    bindSlots table slot (index :: others) m =
      bindSlots table (slot + 1) others { m with heap := m.heap.setTable id between } := by
  rw [bindSlots_found place stored found, set]
  rfl

/-- By induction on the indices, with the table as it is before each of them: all are bound, or those before the first
one that cannot be. -/
theorem bindSlots_run (slot : UInt32) (indices : List UInt32) :
    (∃ changed, Rebound m.store.functions t slot.toNat indices changed ∧
      bindSlots table slot indices m = .ok () { m with heap := m.heap.setTable id changed }) ∨
    ∃ front index back changed halt, indices = front ++ index :: back ∧
      Rebound m.store.functions t slot.toNat front changed ∧
      Unbindable m.store.functions t.slots.size (slot.toNat + front.length) index halt ∧
      bindSlots table slot indices m = .error halt { m with heap := m.heap.setTable id changed } := by
  induction indices generalizing slot m t with
  | nil =>
    refine .inl ⟨t, .nil _, ?_⟩
    rw [setTable_self stored]
    rfl
  | cons index others ih =>
    cases found : m.store.functions[index.toNat]? with
    | none =>
      have missing : Run.look (·.functionId index) m = .error (.trap (.invalidIndex .function index)) m :=
        look_missing found
      refine .inr ⟨[], index, others, t, _, rfl, .nil _, .function found, ?_⟩
      rw [setTable_self stored, bindSlots]
      exact bind_of_error missing
    | some f =>
      by_cases inside : slot.toNat < t.slots.size
      · obtain ⟨between, set, size⟩ := set_inside inside f
        have bound : (m.heap.setTable id between).tables[id]? = some between :=
          Array.getElem?_setIfInBounds_self_of_lt (Array.getElem?_eq_some_iff.mp stored).1
        have twice : ∀ changed, (m.heap.setTable id between).setTable id changed = m.heap.setTable id changed := by
          intro changed
          simp only [Heap.setTable, Array.setIfInBounds_setIfInBounds]
        have rest := ih (m := { m with heap := m.heap.setTable id between }) place bound (slot + 1)
        -- This slot is in the table, so the number of the next one has not wrapped, whether or not it is in there too.
        rw [toNat_next_slot inside] at rest
        rw [bindSlots_bound place stored found set]
        obtain ⟨changed, rebound, done⟩ | ⟨front, last, back, changed, halt, rfl, rebound, fault, failed⟩ := rest
        · exact .inl ⟨changed, rebound.cons found inside set, by rw [done, twice]⟩
        · refine .inr ⟨index :: front, last, back, changed, halt, rfl, rebound.cons found inside set, ?_, ?_⟩
          · rw [List.length_cons, Nat.add_comm front.length, ← Nat.add_assoc, ← size]
            exact fault
          · rw [failed, twice]
      · have refused : t.set slot f = .error (.invalidIndex .tableElement slot) := if_neg inside
        refine .inr ⟨[], index, others, t, _, rfl, .nil _, .slot ⟨f, found⟩ (Nat.le_of_not_lt inside), ?_⟩
        rw [setTable_self stored, bindSlots_found place stored found, refused, List.length_nil, Nat.add_zero,
          UInt32.ofNat_toNat]
        rfl

end Slots

section Segment

variable {m n : Machine} {p : Placement UInt32}

/-- There is such a table, there are such functions, and the table reaches as far as they do, if there are any. -/
def Bindable (m : Machine) (p : Placement UInt32) : Prop :=
  ∃ size, p.extent m.store.tables (slots m.heap) = some size ∧
    (∀ i ∈ p.items, ∃ f, m.store.functions[i.toNat]? = some f) ∧ (p.items ≠ [] → p.stop ≤ size)

/-- How a placement fails: there is no such table, or one of the functions cannot be bound and those before it are. -/
inductive Stops (m : Machine) (p : Placement UInt32) : Halt → Heap → Prop where
  | table (missing : p.extent m.store.tables (slots m.heap) = none) :
      Stops m p (.trap (.invalidIndex .table p.index)) m.heap
  | item {front back index size halt heap} (split : p.items = front ++ index :: back)
      (known : p.extent m.store.tables (slots m.heap) = some size) (begun : Bindable m { p with items := front })
      (fault : Unbindable m.store.functions size (p.start.toNat + front.length) index halt)
      (bound : Bound m.store.tables [named m.store.functions { p with items := front }] m.heap heap) :
      Stops m p halt heap

theorem Stops.not_bindable {halt : Halt} {heap : Heap} (stops : Stops m p halt heap) : ¬ Bindable m p := by
  rintro ⟨size, known, functions, within⟩
  cases stops with
  | table missing => cases known.symm.trans missing
  | @item front back index other _ _ split there _ fault _ =>
    obtain rfl : size = other := Option.some.inj (known.symm.trans there)
    have member : index ∈ p.items := by simp [split]
    cases fault with
    | function missing =>
      obtain ⟨f, found⟩ := functions index member
      cases found.symm.trans missing
    | slot _ outside =>
      have room := within (List.ne_nil_of_mem member)
      simp only [Placement.stop, split, List.length_append, List.length_cons] at room
      omega

theorem bindable_of_rebound {t changed : Table} {id : Nat}
    (place : m.store.tables[p.index.toNat]? = some id) (stored : m.heap.tables[id]? = some t)
    (rebound : Rebound m.store.functions t p.start.toNat p.items changed) : Bindable m p :=
  ⟨t.slots.size, by simp [slots, Placement.extent_map, place, stored], rebound.known, rebound.within⟩

theorem bound_of_rebound {t changed : Table} {id : Nat} (place : m.store.tables[p.index.toNat]? = some id)
    (stored : m.heap.tables[id]? = some t) (rebound : Rebound m.store.functions t p.start.toNat p.items changed) :
    Bound m.store.tables [named m.store.functions p] m.heap (m.heap.setTable id changed) where
  slots := overlaid_set m.store.tables place stored rebound.slots
  types := map_set_of_same stored rebound.type
  functions := rfl
  memories := rfl
  globals := rfl

/-- The functions of a segment in the slots of its table. -/
def bindAt (p : Placement UInt32) : Run Unit := do
  let _ ← Run.look (·.table p.index)
  bindSlots p.index p.start p.items

theorem bindAt_cases (m : Machine) (p : Placement UInt32) :
    (Bindable m p ∧ ∃ heap, bindAt p m = .ok () { m with heap } ∧
      Bound m.store.tables [named m.store.functions p] m.heap heap) ∨
    ∃ halt heap, Stops m p halt heap ∧ bindAt p m = .error halt { m with heap } := by
  cases known : p.extent m.store.tables (slots m.heap) with
  | none =>
    have absent := known
    rw [slots, Placement.extent_map, Option.map_eq_none_iff] at absent
    have missing : Run.look (·.table p.index) m = .error (.trap (.invalidIndex .table p.index)) m :=
      look_missing absent
    exact .inr ⟨_, m.heap, .table known, bind_of_error missing⟩
  | some size =>
    obtain ⟨id, t, place, stored, rfl⟩ := Placement.extent_eq_some known
    have looked : Run.look (·.table p.index) m = .ok t m :=
      look_found (Option.bind_eq_some_iff.mpr ⟨id, place, stored⟩)
    rw [bindAt, bind_of_ok looked]
    obtain ⟨changed, rebound, done⟩ | ⟨front, index, back, changed, halt, split, rebound, fault, failed⟩ :=
      bindSlots_run place stored p.start p.items
    · exact .inl ⟨bindable_of_rebound place stored rebound, _, done, bound_of_rebound place stored rebound⟩
    · have begun : Bindable m { p with items := front } := bindable_of_rebound place stored rebound
      exact .inr ⟨halt, _, .item split known begun fault (bound_of_rebound place stored rebound), failed⟩

end Segment

section Run

variable {m n : Machine} {fuel : Nat} {e : Element} {s : ActiveSegment UInt32}

theorem applyElement_active (target : target? e = some s) (segment : Nat) : applyElement fuel segment e = (do
    let offset ← evaluateOffset fuel s.offset
    bindAt ⟨s.index, offset.toUInt32, s.items⟩
    Run.note (.elementApplied segment s.items.length s.index offset.toUInt32)) := by
  obtain ⟨flags, refType, mode, items⟩ := e
  cases mode with
  | passive => cases target
  | declarative => cases target
  | active table offset =>
    cases items with
    | expressions codes => cases target
    | functions indices =>
      cases target
      simp only [applyElement, bindAt, bind_assoc]

/-- A segment that is not to be bound is refused or passed over. -/
theorem applyElement_inactive (inactive : target? e = none) (segment : Nat) : applyElement fuel segment e =
    if unsupported e then Run.trap (.unsupported (.expressionItems segment)) else Run.note (.elementSkipped segment) := by
  obtain ⟨flags, refType, mode, items⟩ := e
  cases mode with
  | passive => rfl
  | declarative => rfl
  | active table offset =>
    cases items with
    | expressions codes => rfl
    | functions indices => cases inactive

theorem supported_of_target (target : target? e = some s) : unsupported e = false := by
  obtain ⟨flags, refType, mode, items⟩ := e
  cases mode with
  | passive => rfl
  | declarative => rfl
  | active table offset =>
    cases items with
    | expressions codes => cases target
    | functions indices => rfl

section Active

variable (target : target? e = some s) (constant : Constant s.offset) (alike : Alike m n) (segment : Nat)
include target constant alike

theorem applyElement_stuck {halt : Halt} {stopped : Machine} (failed : evaluateOffset fuel s.offset m = .error halt stopped) :
    ∃ after, applyElement fuel segment e n = .error halt after := by
  obtain ⟨after, outcome, _⟩ := evaluateOffset_stuck constant alike failed
  rw [applyElement_active target]
  exact ⟨after, bind_of_error outcome⟩

/-- A segment whose offset is known is bound whole, or up to its first function that cannot be. -/
theorem applyElement_cases {offset : Int32} {ready : Machine} (placed : evaluateOffset fuel s.offset m = .ok offset ready) :
    (Bindable n ⟨s.index, offset.toUInt32, s.items⟩ ∧ ∃ after, applyElement fuel segment e n = .ok () after ∧
      Alike ready after ∧ after.store.tables = n.store.tables ∧ after.store.functions = n.store.functions ∧
      Bound n.store.tables [named n.store.functions ⟨s.index, offset.toUInt32, s.items⟩] n.heap after.heap) ∨
    ∃ halt after, Stops n ⟨s.index, offset.toUInt32, s.items⟩ halt after.heap ∧
      applyElement fuel segment e n = .error halt after := by
  obtain ⟨between, outcome, states, calm⟩ := evaluateOffset_placed constant alike placed
  have cases := bindAt_cases between ⟨s.index, offset.toUInt32, s.items⟩
  obtain ⟨stack, steps, journal, usage, rfl⟩ := calm.exists_eq
  rw [applyElement_active target, bind_of_ok outcome]
  obtain ⟨bindable, heap, done, bound⟩ | ⟨halt, heap, stops, failed⟩ := cases
  · refine .inl ⟨bindable, _, bind_of_ok done, ⟨states.store, ?_⟩, rfl, rfl, bound⟩
    exact states.globals.trans bound.globals.symm
  · refine .inr ⟨halt, _, ?_, bind_of_error failed⟩
    cases stops with
    | table missing => exact .table missing
    | item split known begun fault bound => exact .item split known begun fault bound

end Active

theorem bindable_of_bound {after : Machine} {ps : List (Placement (Option FunctionId))}
    (tables : after.store.tables = n.store.tables) (functions : after.store.functions = n.store.functions)
    (bound : Bound n.store.tables ps n.heap after.heap) (p : Placement UInt32) : Bindable after p ↔ Bindable n p := by
  rw [Bindable, Bindable, tables, functions, bound.slots, extent_overlaid]

/-- What it takes for all segments to be bound: none of them is one of expressions, each offset comes to a number, and
each table takes the functions that are placed in it. -/
def Admits (fuel : Nat) (es : List Element) (m n : Machine) : Prop :=
  (∀ e ∈ es, unsupported e = false) ∧ (evaluated fuel (active es) m).2 = none ∧
    ∀ p ∈ (evaluated fuel (active es) m).1, Bindable n p

theorem admits_inactive {others : List Element} (inactive : target? e = none) :
    Admits fuel (e :: others) m n ↔ unsupported e = false ∧ Admits fuel others m n := by
  have same : active (e :: others) = active others := List.filterMap_cons_none inactive
  rw [Admits, same, List.forall_mem_cons, and_assoc]
  rfl

theorem admits_active {others : List Element} (target : target? e = some s) {offset : Int32} {ready : Machine}
    (placed : evaluateOffset fuel s.offset m = .ok offset ready) :
    Admits fuel (e :: others) m n ↔ Bindable n ⟨s.index, offset.toUInt32, s.items⟩ ∧ Admits fuel others ready n := by
  have split : active (e :: others) = s :: active others := List.filterMap_cons_some target
  simp only [Admits, split, evaluated_ok placed, List.forall_mem_cons, supported_of_target target, true_and]
  constructor
  · rintro ⟨supported, all, here, later⟩
    exact ⟨here, supported, all, later⟩
  · rintro ⟨here, supported, all, later⟩
    exact ⟨supported, all, here, later⟩

/-- By induction on the segments, with a machine beside the running one in which only the offsets are evaluated. -/
theorem applyElements_run {es : List Element} (constant : ∀ s ∈ active es, Constant s.offset) (alike : Alike m n)
    (fuel segment : Nat) :
    (Admits fuel es m n ∧ ∃ after, applyElements fuel segment es n = .ok () after ∧
      Bound n.store.tables ((evaluated fuel (active es) m).1.map (named n.store.functions)) n.heap after.heap) ∨
    (¬ Admits fuel es m n ∧ ∃ halt after, applyElements fuel segment es n = .error halt after) := by
  induction es generalizing m n segment with
  | nil =>
    refine .inl ⟨⟨?_, rfl, ?_⟩, n, rfl, .nil rfl⟩
    · exact fun _ impossible => absurd impossible List.not_mem_nil
    · exact fun _ impossible => absurd impossible List.not_mem_nil
  | cons e others ih =>
    unfold applyElements
    cases target : target? e with
    | none =>
      have same : active (e :: others) = active others := List.filterMap_cons_none target
      rw [same] at constant ⊢
      rw [admits_inactive target, applyElement_inactive target]
      cases unsupported e with
      | true => exact .inr ⟨fun admits => Bool.false_ne_true admits.1.symm, _, _, rfl⟩
      | false =>
        have noted : Alike m { n with journal := n.journal.note (.elementSkipped segment) } :=
          ⟨alike.store, alike.globals⟩
        rw [eq_self, true_and]
        exact ih constant noted (segment + 1)
    | some s =>
      have split : active (e :: others) = s :: active others := List.filterMap_cons_some target
      have constants := constant
      rw [split] at constants
      obtain ⟨here, later⟩ := List.forall_mem_cons.mp constants
      cases evaluation : evaluateOffset fuel s.offset m with
      | error halt stopped =>
        obtain ⟨after, stuck⟩ := applyElement_stuck target here alike segment evaluation
        refine .inr ⟨?_, halt, after, bind_of_error stuck⟩
        rintro ⟨_, all, _⟩
        rw [split, evaluated_error evaluation] at all
        cases all
      | ok offset ready =>
        rw [admits_active target evaluation, split, evaluated_ok evaluation, List.map_cons]
        obtain ⟨bindable, between, applied, states, tables, functions, bound⟩ | ⟨halt, after, stops, failed⟩ :=
          applyElement_cases target here alike segment evaluation
        · rw [bind_of_ok applied]
          have admits : Admits fuel others ready between ↔ Admits fuel others ready n := by
            simp only [Admits, bindable_of_bound tables functions bound]
          have rest := ih later states (segment + 1)
          rw [admits, tables, functions] at rest
          obtain ⟨admitted, after, done, laid⟩ | ⟨refused, failed⟩ := rest
          · exact .inl ⟨⟨bindable, admitted⟩, after, done, bound.cons laid⟩
          · exact .inr ⟨fun admits => refused admits.2, failed⟩
        · exact .inr ⟨fun admits => stops.not_bindable admits.1, halt, after, bind_of_error failed⟩

end Run

/-- Functions that fit into a table have slot numbers that do not wrap. -/
theorem toNat_slot {m : Machine} {p : Placement UInt32} {size : Nat}
    (known : p.extent m.store.tables (slots m.heap) = some size) (room : p.stop ≤ size) {k : Nat}
    (inside : k < p.items.length) : (p.start + UInt32.ofNat k).toNat = p.start.toNat + k := by
  obtain ⟨_, t, _, _, rfl⟩ := Placement.extent_eq_some known
  have bound : t.slots.size ≤ 10000000 := t.size_le
  have below : p.start.toNat + k < 4294967296 := by
    unfold Placement.stop at room
    omega
  rw [UInt32.toNat_add, UInt32.toNat_ofNat', Nat.mod_eq_of_lt (by omega : k < 2 ^ 32), Nat.mod_eq_of_lt below]

/-- With constant offsets, all segments are bound exactly if each of them can be; each non-empty one then lies within
its table, without wrapping, and names functions that there are. Afterwards each slot holds the function that the last
segment over it names, and the others hold what they held. -/
theorem elements_bind_named_slots {fuel : Nat} (segment : Nat) {es : List Element} {m : Machine}
    {ps : List (Placement UInt32)} {stuck : Option Halt} (constant : ∀ s ∈ active es, Constant s.offset)
    (known : evaluated fuel (active es) m = (ps, stuck)) :
    ((∃ after, applyElements fuel segment es m = .ok () after) ↔
      (∀ e ∈ es, unsupported e = false) ∧ stuck = none ∧ ∀ p ∈ ps, Bindable m p) ∧
    ∀ after, applyElements fuel segment es m = .ok () after →
      denoted (globalInteger m) (active es) m.store.stack.operands = some ps ∧
      (∀ p ∈ ps, p.items ≠ [] →
        (∃ size, p.extent m.store.tables (slots m.heap) = some size ∧ p.stop ≤ size) ∧
        (∀ i ∈ p.items, ∃ f, m.store.functions[i.toNat]? = some f) ∧
        ∀ k < p.items.length, (p.start + UInt32.ofNat k).toNat = p.start.toNat + k) ∧
      Bound m.store.tables (ps.map (named m.store.functions)) m.heap after.heap := by
  have places := denoted_evaluated constant fuel m
  have complete := evaluated_length fuel (active es) m
  have run := applyElements_run constant (.refl m) fuel segment
  simp only [Admits, known] at places complete run
  obtain ⟨admits, after, done, bound⟩ | ⟨refused, halt, after, failed⟩ := run
  · refine ⟨⟨fun _ => admits, fun _ => ⟨after, done⟩⟩, ?_⟩
    intro other same
    obtain rfl : after = other := by
      cases done.symm.trans same
      rfl
    rw [complete admits.2.1, List.take_length] at places
    refine ⟨places, ?_, bound⟩
    intro p member nonempty
    obtain ⟨size, there, functions, within⟩ := admits.2.2 p member
    exact ⟨⟨size, there, within nonempty⟩, functions, fun k inside => toNat_slot there (within nonempty) inside⟩
  · have impossible : ∀ other, applyElements fuel segment es m ≠ .ok () other := by
      intro other done
      cases done.symm.trans failed
    refine ⟨iff_of_false ?_ refused, fun other done => absurd done (impossible other)⟩
    rintro ⟨other, done⟩
    exact impossible other done

/-- Two segments that overlap, the second through another index of the same table, with one between them that is for
later, and an empty one whose offset lies far outside. -/
def overlapping : List Element := [
  ⟨0, .funcref, .active 0 (.op (.const 1) .nil), .functions [0, 1]⟩,
  ⟨1, .funcref, .passive, .functions [7]⟩,
  ⟨2, .funcref, .active 1 (.op (.const 2) .nil), .functions [0]⟩,
  ⟨0, .funcref, .active 0 (.op (.const (-1)) .nil), .functions []⟩]

def overlappingMachine : Machine where
  heap := { tables := #[⟨.funcref, ⟨3, none⟩, #[some 9, none, none], by decide⟩] }
  store := { Store.create {} with tables := #[0, 0], functions := #[4, 5] }

theorem overlapping_bound :
    (∀ s ∈ active overlapping, Constant s.offset) ∧
    evaluated 1 (active overlapping) overlappingMachine =
      ([⟨0, 1, [0, 1]⟩, ⟨1, 2, [0]⟩, ⟨0, 4294967295, []⟩], none) ∧
    ∃ after, applyElements 1 0 overlapping overlappingMachine = .ok () after ∧
      slots after.heap = #[#[some 9, some 4, some 4]] := by
  have constant : ∀ s ∈ active overlapping, Constant s.offset := by
    intro s member
    simp only [active, overlapping, target?, List.filterMap_cons, List.filterMap_nil, List.mem_cons, List.not_mem_nil,
      or_false] at member
    obtain rfl | rfl | rfl := member
    · exact .const 1 .nil
    · exact .const 2 .nil
    · exact .const (-1) .nil
  have known : evaluated 1 (active overlapping) overlappingMachine =
      ([⟨0, 1, [0, 1]⟩, ⟨1, 2, [0]⟩, ⟨0, 4294967295, []⟩], none) := by decide +kernel
  obtain ⟨after, done⟩ := failure_eq_none.mp
    (by decide +kernel : failure (applyElements 1 0 overlapping overlappingMachine) = none)
  obtain ⟨_, _, bound⟩ := (elements_bind_named_slots 0 constant known).2 after done
  exact ⟨constant, known, after, done, bound.slots.trans (by decide +kernel)⟩

/-- A segment that fails in a table that there is has bound the functions before the first one that cannot be bound,
and no others; they are not taken back. -/
theorem fault_leaves_front_bound {fuel : Nat} (segment : Nat) {e : Element} {s : ActiveSegment UInt32}
    {p : Placement UInt32} {m after : Machine} {halt : Halt} {size : Nat} (target : target? e = some s)
    (constant : Constant s.offset) (known : evaluated fuel [s] m = ([p], none))
    (there : p.extent m.store.tables (slots m.heap) = some size)
    (failed : applyElement fuel segment e m = .error halt after) :
    ∃ front index back, p.items = front ++ index :: back ∧
      (∀ i ∈ front, ∃ f, m.store.functions[i.toNat]? = some f) ∧ (front ≠ [] → p.start.toNat + front.length ≤ size) ∧
      Unbindable m.store.functions size (p.start.toNat + front.length) index halt ∧
      Bound m.store.tables [named m.store.functions { p with items := front }] m.heap after.heap := by
  cases evaluation : evaluateOffset fuel s.offset m with
  | error stuck stopped =>
    rw [evaluated_error evaluation] at known
    cases known
  | ok offset ready =>
    rw [evaluated_ok evaluation] at known
    cases known
    obtain ⟨_, done, applied, _⟩ | ⟨fault, stopped, stops, error⟩ :=
      applyElement_cases target constant (.refl m) segment evaluation
    · cases applied.symm.trans failed
    · cases error.symm.trans failed
      generalize after.heap = heap at stops ⊢
      cases stops with
      | table missing => cases there.symm.trans missing
      | item split known begun fault bound =>
        obtain rfl := Option.some.inj (there.symm.trans known)
        obtain ⟨_, same, functions, within⟩ := begun
        obtain rfl := Option.some.inj (there.symm.trans same)
        exact ⟨_, _, _, split, functions, within, fault, bound⟩

/-- A segment for two slots of a table that has one, which a function of another instance is bound to. -/
def halfBound : Element := ⟨0, .funcref, .active 0 (.op (.const 0) .nil), .functions [0, 0]⟩

def halfBoundTarget : ActiveSegment UInt32 := ⟨0, .op (.const 0) .nil, [0, 0]⟩

def halfBoundPlace : Placement UInt32 := ⟨0, 0, [0, 0]⟩

def halfBoundMachine : Machine where
  heap := { tables := #[⟨.funcref, ⟨1, none⟩, #[some 0], by decide⟩] }
  store := { Store.create {} with tables := #[0], functions := #[1] }

theorem halfBound_fails :
    ∃ after, applyElement 1 0 halfBound halfBoundMachine = .error (.trap (.invalidIndex .tableElement 1)) after :=
  failure_eq_some.mp (by decide +kernel)

theorem halfBound_leaves_front :
    target? halfBound = some halfBoundTarget ∧ Constant halfBoundTarget.offset ∧
    evaluated 1 [halfBoundTarget] halfBoundMachine = ([halfBoundPlace], none) ∧
    halfBoundPlace.extent #[0] (slots halfBoundMachine.heap) = some 1 ∧
    ∃ after, applyElement 1 0 halfBound halfBoundMachine = .error (.trap (.invalidIndex .tableElement 1)) after ∧
    ∃ front index back, halfBoundPlace.items = front ++ index :: back ∧
      (∀ i ∈ front, ∃ f, halfBoundMachine.store.functions[i.toNat]? = some f) ∧ (front ≠ [] → 0 + front.length ≤ 1) ∧
      Unbindable #[1] 1 (0 + front.length) index (.trap (.invalidIndex .tableElement 1)) ∧
      Bound #[0] [named #[1] { halfBoundPlace with items := front }] halfBoundMachine.heap after.heap := by
  have known : evaluated 1 [halfBoundTarget] halfBoundMachine = ([halfBoundPlace], none) := by decide +kernel
  have there : halfBoundPlace.extent #[0] (slots halfBoundMachine.heap) = some 1 := by decide +kernel
  obtain ⟨after, failed⟩ := halfBound_fails
  have left := fault_leaves_front_bound 0 rfl (.const 0 .nil) known there failed
  exact ⟨rfl, .const 0 .nil, known, there, after, failed, left⟩

/-- The slot that was bound to a function of another instance no longer is, although the segment failed. -/
theorem halfBound_not_intact : Constant (.op (.const 0) .nil) ∧ halfBound.mode = .active 0 (.op (.const 0) .nil) ∧
    ∃ after, applyElement 1 0 halfBound halfBoundMachine = .error (.trap (.invalidIndex .tableElement 1)) after ∧
      slots halfBoundMachine.heap = #[#[some 0]] ∧ slots after.heap = #[#[some 1]] := by
  obtain ⟨after, failed⟩ := halfBound_fails
  have slot : slots (final (applyElement 1 0 halfBound halfBoundMachine)).heap = #[#[some 1]] := by decide +kernel
  rw [failed] at slot
  exact ⟨.const 0 .nil, rfl, after, failed, by decide +kernel, slot⟩

end WasmMachine.Proofs.ElementSlots

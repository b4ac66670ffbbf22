import WasmMachine.Proofs.Placements

/-! Data segments overlay memories in order, each one whole or not at all. What is written never bears on where later
segments go, since offsets see no memory; so where they go can be said first, and then which of them are written: those
before the first one that its memory cannot take. -/

namespace WasmMachine.Proofs.DataOverlay
open Sequencing InstructionEffects IndexSpaces CodeFootprint ConstantOffsets Placements Instantiation

/-- What an active segment is laid over; a passive one is for later. -/
def target? (d : DataSegment) : Option (ActiveSegment UInt8) :=
  match d.mode with
  | .passive => none
  | .active offset => some ⟨0, offset, d.bytes⟩
  | .activeExplicit memory offset => some ⟨memory, offset, d.bytes⟩

/-- The active segments, in their order. -/
def active (ds : List DataSegment) : List (ActiveSegment UInt8) := ds.filterMap target?

/-- The bytes of all memories. -/
def contents (h : Heap) : Array (Array UInt8) := h.memories.map Memory.bytes

/-- Bytes were laid over the memories, and all else is as it was. -/
structure Overlaid (objects : Array Nat) (ps : List (Placement UInt8)) (before after : Heap) : Prop where
  bytes : contents after = overlaid objects ps (contents before)
  limits : after.memories.map Memory.limits = before.memories.map Memory.limits
  functions : after.functions = before.functions
  tables : after.tables = before.tables
  globals : after.globals = before.globals

namespace Overlaid

variable {objects : Array Nat} {p : Placement UInt8} {ps : List (Placement UInt8)} {before between after : Heap}

theorem nil (same : after = before) : Overlaid objects [] before after := by
  subst same
  exact ⟨(overlaid_nil objects _).symm, rfl, rfl, rfl, rfl⟩

theorem cons (head : Overlaid objects [p] before between) (tail : Overlaid objects ps between after) :
    Overlaid objects (p :: ps) before after where
  bytes := by rw [overlaid_cons, ← head.bytes, tail.bytes]
  limits := tail.limits.trans head.limits
  functions := tail.functions.trans head.functions
  tables := tail.tables.trans head.tables
  globals := tail.globals.trans head.globals

/-- No memory becomes longer or shorter. -/
theorem sizes (laid : Overlaid objects ps before after) :
    after.memories.map Memory.size = before.memories.map Memory.size := by
  have lengths : ∀ h : Heap, h.memories.map Memory.size = (contents h).map Array.size := by
    intro h
    simp only [contents, Array.map_map]
    rfl
  rw [lengths, lengths, laid.bytes]
  apply Array.ext <;> simp [overlaid]

end Overlaid

/-- Why a memory does not take the bytes that are placed in it: there is no such memory, or it ends before them. -/
def refusal (m : Machine) (p : Placement UInt8) : Halt :=
  match p.extent m.store.memories (contents m.heap) with
  | none => .trap (.invalidIndex .memory p.index)
  | some _ => .trap (.memoryOutOfBounds p.start.toUInt64 p.items.length)

/-- The memory takes all the bytes that are placed in it. -/
def takes (m : Machine) (p : Placement UInt8) : Bool := p.fits m.store.memories (contents m.heap)

theorem overlay_eq_patch (bytes : Array UInt8) (start : Nat) (new : List UInt8) :
    Bytes.overlay bytes start new = patch bytes start new := by
  induction new generalizing bytes start with
  | nil => rw [Bytes.overlay, patch_nil]
  | cons b rest ih => rw [Bytes.overlay, ih, patch_cons]

section Copy

variable {m : Machine} {memory : UInt32} {offset : Int32} {bytes : List UInt8}

theorem copyToMemory_missing (missing : m.store.memories[memory.toNat]?.bind (m.heap.memories[·]?) = none) :
    copyToMemory memory offset bytes m = .error (.trap (.invalidIndex .memory memory)) m := by
  have looked : Run.look (·.memory memory) m = .error (.trap (.invalidIndex .memory memory)) m :=
    look_missing missing
  unfold copyToMemory
  cases place : m.store.memories[memory.toNat]? with
  | none =>
    have unnamed : Run.look (·.memoryId memory) m = .error (.trap (.invalidIndex .memory memory)) m :=
      look_missing place
    exact bind_of_error unnamed
  | some id =>
    have named : Run.look (·.memoryId memory) m = .ok id m := look_found place
    rw [bind_of_ok named]
    exact bind_of_error looked

theorem copyToMemory_held {id : Nat} {target : Memory} (place : m.store.memories[memory.toNat]? = some id)
    (stored : m.heap.memories[id]? = some target) : copyToMemory memory offset bytes m = (do
      let target ← Run.lift (target.write offset.toUInt32.toUInt64 bytes)
      Run.modifyHeap (·.setMemory id target)) m := by
  have named : Run.look (·.memoryId memory) m = .ok id m := look_found place
  have looked : Run.look (·.memory memory) m = .ok target m :=
    look_found (Option.bind_eq_some_iff.mpr ⟨id, place, stored⟩)
  unfold copyToMemory
  rw [bind_of_ok named, bind_of_ok looked]

theorem copyToMemory_takes (room : takes m ⟨memory, offset.toUInt32, bytes⟩ = true) :
    ∃ heap, copyToMemory memory offset bytes m = .ok () { m with heap } ∧
      Overlaid m.store.memories [⟨memory, offset.toUInt32, bytes⟩] m.heap heap := by
  obtain ⟨size, known, enough⟩ := Placement.fits_iff.mp room
  obtain ⟨id, target, place, stored, rfl⟩ := Placement.extent_eq_some known
  have written : target.write offset.toUInt32.toUInt64 bytes =
      .ok ⟨patch target.bytes offset.toUInt32.toNat bytes, target.limits⟩ := by
    simp only [Memory.write, Memory.inBounds, UInt32.toNat_toUInt64, overlay_eq_patch, decide_eq_true_eq]
    exact if_pos enough
  refine ⟨m.heap.setMemory id ⟨patch target.bytes offset.toUInt32.toNat bytes, target.limits⟩, ?_, ?_⟩
  · rw [copyToMemory_held place stored, written]
    rfl
  · exact ⟨overlaid_set m.store.memories place stored rfl, map_set_of_same stored rfl, rfl, rfl, rfl⟩

theorem copyToMemory_refuses (full : takes m ⟨memory, offset.toUInt32, bytes⟩ = false) :
    copyToMemory memory offset bytes m = .error (refusal m ⟨memory, offset.toUInt32, bytes⟩) m := by
  unfold refusal
  cases known : Placement.extent m.store.memories (contents m.heap) ⟨memory, offset.toUInt32, bytes⟩ with
  | none =>
    rw [contents, Placement.extent_map] at known
    exact copyToMemory_missing (Option.map_eq_none_iff.mp known)
  | some size =>
    obtain ⟨id, target, place, stored, rfl⟩ := Placement.extent_eq_some known
    have long : ¬ offset.toUInt32.toNat + bytes.length ≤ target.bytes.size := by
      intro enough
      have room := Placement.fits_iff.mpr ⟨_, known, enough⟩
      exact Bool.false_ne_true (full.symm.trans room)
    have refused : target.write offset.toUInt32.toUInt64 bytes =
        .error (.memoryOutOfBounds offset.toUInt32.toUInt64 bytes.length) := by
      simp only [Memory.write, Memory.inBounds, UInt32.toNat_toUInt64, decide_eq_true_eq]
      exact if_neg long
    rw [copyToMemory_held place stored, refused]
    rfl

end Copy

section Run

variable {m n : Machine} {fuel : Nat}

/-- What a memory takes does not depend on what it holds, but on how long it is. -/
theorem takes_of_overlaid {ps : List (Placement UInt8)} (names : n.store.memories = m.store.memories)
    (laid : Overlaid m.store.memories ps m.heap n.heap) : takes n = takes m := by
  funext p
  rw [takes, takes, names, laid.bytes, fits_overlaid]

theorem refusal_of_overlaid {ps : List (Placement UInt8)} (names : n.store.memories = m.store.memories)
    (laid : Overlaid m.store.memories ps m.heap n.heap) : refusal n = refusal m := by
  funext p
  rw [refusal, refusal, names, laid.bytes, extent_overlaid]

theorem applyDataSegment_passive {d : DataSegment} (passive : target? d = none) (segment : Nat) :
    applyDataSegment fuel segment d = Run.note (.dataSkipped segment) := by
  obtain ⟨mode, bytes⟩ := d
  cases mode with
  | passive => rfl
  | active offset => cases passive
  | activeExplicit memory offset => cases passive

theorem applyDataSegment_active {d : DataSegment} {s : ActiveSegment UInt8} (target : target? d = some s)
    (segment : Nat) : applyDataSegment fuel segment d = applyDataAt fuel segment s.index s.offset s.items := by
  obtain ⟨mode, bytes⟩ := d
  cases mode with
  | passive => cases target
  | active offset =>
    cases target
    rfl
  | activeExplicit memory offset =>
    cases target
    rfl

section Segment

variable {s : ActiveSegment UInt8} (constant : Constant s.offset) (alike : Alike m n) (segment : Nat)
include constant alike

/-- An offset that does not come to a number ends the run with all memories as they were. -/
theorem applyDataAt_stuck {halt : Halt} {stopped : Machine} (failed : evaluateOffset fuel s.offset m = .error halt stopped) :
    ∃ after, applyDataAt fuel segment s.index s.offset s.items n = .error halt after ∧ after.heap = n.heap := by
  obtain ⟨after, outcome, calm⟩ := evaluateOffset_stuck constant alike failed
  exact ⟨after, bind_of_error outcome, calm.heap⟩

variable {offset : Int32} {ready : Machine} (placed : evaluateOffset fuel s.offset m = .ok offset ready)
include placed

theorem applyDataAt_takes (room : takes n ⟨s.index, offset.toUInt32, s.items⟩ = true) :
    ∃ after, applyDataAt fuel segment s.index s.offset s.items n = .ok () after ∧ Alike ready after ∧
      after.store.memories = n.store.memories ∧
      Overlaid n.store.memories [⟨s.index, offset.toUInt32, s.items⟩] n.heap after.heap := by
  obtain ⟨between, outcome, states, calm⟩ := evaluateOffset_placed constant alike placed
  obtain ⟨stack, steps, store⟩ := calm.store
  have names : between.store.memories = n.store.memories := by rw [store]
  rw [← takes_of_overlaid names (.nil calm.heap)] at room
  obtain ⟨heap, copied, laid⟩ := copyToMemory_takes room
  rw [names, calm.heap] at laid
  refine ⟨_, (bind_of_ok outcome).trans (bind_of_ok copied), ⟨states.store, ?_⟩, names, laid⟩
  exact (states.globals.trans (congrArg Heap.globals calm.heap)).trans laid.globals.symm

theorem applyDataAt_refuses (full : takes n ⟨s.index, offset.toUInt32, s.items⟩ = false) :
    ∃ after, applyDataAt fuel segment s.index s.offset s.items n =
      .error (refusal n ⟨s.index, offset.toUInt32, s.items⟩) after ∧ after.heap = n.heap := by
  obtain ⟨between, outcome, states, calm⟩ := evaluateOffset_placed constant alike placed
  obtain ⟨stack, steps, store⟩ := calm.store
  have names : between.store.memories = n.store.memories := by rw [store]
  rw [← takes_of_overlaid names (.nil calm.heap)] at full
  rw [← refusal_of_overlaid names (.nil calm.heap)]
  exact ⟨between, (bind_of_ok outcome).trans (bind_of_error (copyToMemory_refuses full)), calm.heap⟩

end Segment

/-- By induction on the segments, with a machine beside the running one in which only the offsets are evaluated: the two
stay alike to all that offsets can see. -/
theorem applyData_overlays {ds : List DataSegment} (constant : ∀ s ∈ active ds, Constant s.offset) (alike : Alike m n)
    (fuel segment : Nat) :
    failure (applyData fuel segment ds n) =
      (((evaluated fuel (active ds) m).1.find? (!takes n ·)).map (refusal n)).or (evaluated fuel (active ds) m).2 ∧
    Overlaid n.store.memories ((evaluated fuel (active ds) m).1.takeWhile (takes n)) n.heap
      (final (applyData fuel segment ds n)).heap := by
  induction ds generalizing m n segment with
  | nil => exact ⟨rfl, .nil rfl⟩
  | cons d others ih =>
    unfold applyData
    cases target : target? d with
    | none =>
      have same : active (d :: others) = active others := List.filterMap_cons_none target
      rw [same] at constant ⊢
      rw [applyDataSegment_passive target]
      have noted : Alike m { n with journal := n.journal.note (.dataSkipped segment) } := ⟨alike.store, alike.globals⟩
      exact ih constant noted (segment + 1)
    | some s =>
      have split : active (d :: others) = s :: active others := List.filterMap_cons_some target
      rw [split] at constant ⊢
      rw [applyDataSegment_active target]
      obtain ⟨here, later⟩ := List.forall_mem_cons.mp constant
      cases evaluation : evaluateOffset fuel s.offset m with
      | error halt stopped =>
        obtain ⟨after, stuck, heap⟩ := applyDataAt_stuck here alike segment evaluation
        rw [bind_of_error stuck, evaluated_error evaluation]
        exact ⟨rfl, .nil heap⟩
      | ok offset ready =>
        rw [evaluated_ok evaluation]
        cases room : takes n ⟨s.index, offset.toUInt32, s.items⟩ with
        | false =>
          obtain ⟨after, refused, heap⟩ := applyDataAt_refuses here alike segment evaluation room
          rw [bind_of_error refused]
          simp only [List.find?_cons, List.takeWhile_cons, room, Bool.not_false]
          exact ⟨rfl, .nil heap⟩
        | true =>
          -- What has been written changes no length and no global: later segments go the same way and fit as before.
          obtain ⟨after, taken, states, names, laid⟩ := applyDataAt_takes here alike segment evaluation room
          obtain ⟨failed, rest⟩ := ih later states (segment + 1)
          rw [takes_of_overlaid names laid, names] at rest
          rw [takes_of_overlaid names laid, refusal_of_overlaid names laid] at failed
          rw [bind_of_ok taken]
          simp only [List.find?_cons, List.takeWhile_cons, room, Bool.not_true]
          exact ⟨failed, laid.cons rest⟩

section There

variable {ps : List (Placement UInt8)}
  (there : ∀ p ∈ ps, ∃ size, p.extent m.store.memories (contents m.heap) = some size)
include there

theorem refusal_there {p : Placement UInt8} (member : p ∈ ps) :
    refusal m p = .trap (.memoryOutOfBounds p.start.toUInt64 p.items.length) := by
  obtain ⟨size, known⟩ := there p member
  rw [refusal, known]

/-- Among placements in memories that there are, one is refused exactly if it ends behind its memory. -/
theorem exists_refused : (ps.find? (!takes m ·)).isSome = true ↔
      ∃ p ∈ ps, ∃ size, p.extent m.store.memories (contents m.heap) = some size ∧ size < p.stop := by
  rw [List.find?_isSome]
  constructor
  · rintro ⟨p, member, refused⟩
    obtain ⟨size, known⟩ := there p member
    refine ⟨p, member, size, known, Nat.lt_of_not_le fun enough => ?_⟩
    rw [takes, Placement.fits_iff.mpr ⟨size, known, enough⟩] at refused
    cases refused
  · rintro ⟨p, member, size, known, long⟩
    refine ⟨p, member, ?_⟩
    simp only [takes, Placement.fits, known, Option.any_some, Nat.not_le.mpr long, decide_false, Bool.not_false]

end There

end Run

/-- With constant offsets, segments go where the offsets say, on top of the operands that were there. The first one
that its memory cannot take, or else the first offset that does not come to a number, ends the run; up to there each
byte is that of the last segment that covers it, and nothing else is written. -/
theorem data_overlaid_in_order {fuel : Nat} (segment : Nat) {ds : List DataSegment} {m : Machine}
    {ps : List (Placement UInt8)} {stuck : Option Halt} (constant : ∀ s ∈ active ds, Constant s.offset)
    (known : evaluated fuel (active ds) m = (ps, stuck)) :
    denoted (globalInteger m) ((active ds).take ps.length) m.store.stack.operands = some ps ∧
    (stuck = none → ps.length = (active ds).length) ∧
    (stuck = some .outOfFuel → ∃ s ∈ active ds, fuel < s.offset.length) ∧
    failure (applyData fuel segment ds m) = ((ps.find? (!takes m ·)).map (refusal m)).or stuck ∧
    (stuck = none → (∀ p ∈ ps, ∃ size, p.extent m.store.memories (contents m.heap) = some size) →
      ((∃ halt after, applyData fuel segment ds m = .error halt after) ↔
        ∃ p ∈ ps, ∃ size, p.extent m.store.memories (contents m.heap) = some size ∧ size < p.stop) ∧
      failure (applyData fuel segment ds m) = (ps.find? (!takes m ·)).map fun p =>
        .trap (.memoryOutOfBounds p.start.toUInt64 p.items.length)) ∧
    Overlaid m.store.memories (ps.takeWhile (takes m)) m.heap (final (applyData fuel segment ds m)).heap ∧
    (final (applyData fuel segment ds m)).heap.memories.map Memory.size = m.heap.memories.map Memory.size := by
  have places := denoted_evaluated constant fuel m
  have complete := evaluated_length fuel (active ds) m
  have fueled := evaluated_fueled constant fuel m
  obtain ⟨failed, laid⟩ := applyData_overlays constant (.refl m) fuel segment
  rw [known] at places complete fueled failed laid
  refine ⟨places, complete, fueled, failed, ?_, laid, laid.sizes⟩
  intro all there
  rw [all, Option.or_none] at failed
  refine ⟨?_, failed.trans (Option.map_congr fun p found => refusal_there there (List.mem_of_find?_eq_some found))⟩
  simp only [← failure_eq_some, failed, ← Option.isSome_iff_exists, Option.isSome_map]
  exact exists_refused there

/-- Two segments that overlap, the second through another index of the same memory, with one between them that is for
later; an empty one at the very end; one whose offset is taken as a large number; and one more behind it. -/
def layered : List DataSegment := [
  ⟨.active (.op (.const 1) .nil), [1, 2, 3]⟩,
  ⟨.passive, [8]⟩,
  ⟨.activeExplicit 1 (.op (.globalGet 0) (.op (.const 1) (.op (.binary .add) .nil))), [9]⟩,
  ⟨.active (.op (.const 4) .nil), []⟩,
  ⟨.active (.op (.const (-1)) .nil), [5]⟩,
  ⟨.active (.op (.const 0) .nil), [7]⟩]

def layeredMachine : Machine where
  heap := { memories := #[⟨#[0, 0, 0, 0], ⟨0, none⟩⟩], globals := #[⟨⟨.i32, false⟩, .i32 1, true⟩] }
  store := { Store.create {} with memories := #[0, 0], globals := #[0] }

theorem layered_in_order :
    (∀ s ∈ active layered, Constant s.offset) ∧
    evaluated 3 (active layered) layeredMachine =
      ([⟨0, 1, [1, 2, 3]⟩, ⟨1, 2, [9]⟩, ⟨0, 4, []⟩, ⟨0, 4294967295, [5]⟩, ⟨0, 0, [7]⟩], none) ∧
    failure (applyData 3 0 layered layeredMachine) = some (.trap (.memoryOutOfBounds 4294967295 1)) ∧
    contents (final (applyData 3 0 layered layeredMachine)).heap = #[#[0, 1, 9, 3]] := by
  have constant : ∀ s ∈ active layered, Constant s.offset := by
    intro s member
    simp only [active, layered, target?, List.filterMap_cons, List.filterMap_nil, List.mem_cons, List.not_mem_nil,
      or_false] at member
    obtain rfl | rfl | rfl | rfl | rfl := member
    · exact .const 1 .nil
    · exact .globalGet 0 (.const 1 (.add .nil))
    · exact .const 4 .nil
    · exact .const (-1) .nil
    · exact .const 0 .nil
  have known : evaluated 3 (active layered) layeredMachine =
      ([⟨0, 1, [1, 2, 3]⟩, ⟨1, 2, [9]⟩, ⟨0, 4, []⟩, ⟨0, 4294967295, [5]⟩, ⟨0, 0, [7]⟩], none) := by decide +kernel
  obtain ⟨_, _, _, failed, _, laid, _⟩ := data_overlaid_in_order 0 constant known
  exact ⟨constant, known, failed.trans (by decide +kernel), laid.bytes.trans (by decide +kernel)⟩

end WasmMachine.Proofs.DataOverlay

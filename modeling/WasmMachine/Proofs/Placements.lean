import WasmMachine.Proofs.ConstantOffsets

/-! Segments, and what they are laid over. An active segment names an object, an offset and the items that come to stand
from there on. Objects are shared: two indices may name one of them, so what stands at a position is said for the
object and not for the index, as the item of the last placement that covers the position. -/

namespace WasmMachine.Proofs.Placements
open Sequencing ConstantOffsets Instantiation

variable {β γ : Type}

/-- Items that come to stand in the object of this index, from this position on. -/
structure Placement (β : Type) where
  index : UInt32
  start : UInt32
  items : List β
  deriving DecidableEq

namespace Placement

/-- The position behind the last item, which need not be a 32-bit number. -/
def stop (p : Placement β) : Nat := p.start.toNat + p.items.length

/-- The item that comes to stand at a position of an object, if the placement covers it. -/
def item? (objects : Array Nat) (p : Placement β) (object position : Nat) : Option β :=
  if objects[p.index.toNat]? = some object ∧ p.start.toNat ≤ position then p.items[position - p.start.toNat]? else none

def map (f : β → γ) (p : Placement β) : Placement γ := ⟨p.index, p.start, p.items.map f⟩

/-- How long the object is, if the index stands for one. -/
def extent (objects : Array Nat) (contents : Array (Array γ)) (p : Placement β) : Option Nat :=
  (objects[p.index.toNat]?.bind (contents[·]?)).map Array.size

/-- There is such an object and it reaches as far as the items do. -/
def fits (objects : Array Nat) (contents : Array (Array γ)) (p : Placement β) : Bool :=
  (p.extent objects contents).any (p.stop ≤ ·)

theorem fits_iff {objects : Array Nat} {contents : Array (Array γ)} {p : Placement β} :
    p.fits objects contents = true ↔ ∃ size, p.extent objects contents = some size ∧ p.stop ≤ size := by
  cases known : p.extent objects contents <;> simp [fits, known]

section Objects

variable {ω : Type} {objects : Array Nat} {held : Array ω} {view : ω → Array γ} {p : Placement β}

theorem extent_map : p.extent objects (held.map view) =
    (objects[p.index.toNat]?.bind (held[·]?)).map fun o => (view o).size := by
  unfold extent
  cases objects[p.index.toNat]? with
  | none => rfl
  | some id =>
    simp only [Option.bind_some, Array.getElem?_map, Option.map_map]
    rfl

/-- The object that a placement is for, and its place. -/
theorem extent_eq_some {size : Nat} (known : p.extent objects (held.map view) = some size) :
    ∃ id o, objects[p.index.toNat]? = some id ∧ held[id]? = some o ∧ (view o).size = size := by
  rw [extent_map] at known
  obtain ⟨o, found, sized⟩ := Option.map_eq_some_iff.mp known
  obtain ⟨id, place, stored⟩ := Option.bind_eq_some_iff.mp found
  exact ⟨id, o, place, stored, sized⟩

end Objects

end Placement

section Overlay

variable (objects : Array Nat)

/-- The item of the last placement that covers a position. -/
def last? (ps : List (Placement β)) (object position : Nat) : Option β :=
  ps.reverse.findSome? (·.item? objects object position)

/-- What the objects hold when each position has got the last item for it; the others keep what they held. -/
def overlaid (ps : List (Placement β)) (before : Array (Array β)) : Array (Array β) :=
  before.mapIdx fun object held => held.mapIdx fun position old => (last? objects ps object position).getD old

/-- The items in the places of those from an index on. -/
def patch (held : Array β) (start : Nat) (items : List β) : Array β :=
  held.mapIdx fun position old => if start ≤ position then items[position - start]?.getD old else old

@[simp] theorem patch_nil (held : Array β) (start : Nat) : patch held start [] = held := by
  apply Array.ext <;> simp [patch]

theorem patch_cons (held : Array β) (start : Nat) (item : β) (items : List β) :
    patch (held.setIfInBounds start item) (start + 1) items = patch held start (item :: items) := by
  apply Array.ext
  · simp [patch]
  · intro position _ within
    have inside : position < held.size := by simpa [patch] using within
    simp only [patch, Array.getElem_mapIdx, Array.getElem_setIfInBounds inside]
    obtain before | rfl | behind := Nat.lt_trichotomy position start
    · simp [show ¬ start + 1 ≤ position by omega, show ¬ start ≤ position by omega, show start ≠ position by omega]
    · simp
    · obtain ⟨distance, rfl⟩ : ∃ distance, position = start + 1 + distance := ⟨position - (start + 1), by omega⟩
      simp [show start + 1 + distance - start = distance + 1 by omega, show start ≤ start + 1 + distance by omega,
        show start ≠ start + 1 + distance by omega]

theorem last?_cons (p : Placement β) (ps : List (Placement β)) (object position : Nat) :
    last? objects (p :: ps) object position = (last? objects ps object position).or (p.item? objects object position) := by
  simp only [last?, List.reverse_cons, List.findSome?_append, List.findSome?_cons, List.findSome?_nil]
  cases p.item? objects object position <;> rfl

theorem overlaid_nil (before : Array (Array β)) : overlaid objects [] before = before := by
  apply Array.ext
  · simp [overlaid]
  · intro object _ _
    apply Array.ext <;> simp [overlaid, last?]

/-- Placements are made one after the other. -/
theorem overlaid_cons (p : Placement β) (ps : List (Placement β)) (before : Array (Array β)) :
    overlaid objects (p :: ps) before = overlaid objects ps (overlaid objects [p] before) := by
  apply Array.ext
  · simp [overlaid]
  · intro object _ _
    apply Array.ext
    · simp [overlaid]
    · intro position _ _
      simp only [overlaid, Array.getElem_mapIdx, last?_cons]
      cases last? objects ps object position <;> rfl

theorem overlaid_single {p : Placement β} {before : Array (Array β)} {object : Nat} {held : Array β}
    (place : objects[p.index.toNat]? = some object) (stored : before[object]? = some held) :
    overlaid objects [p] before = before.setIfInBounds object (patch held p.start.toNat p.items) := by
  apply Array.ext
  · simp [overlaid]
  · intro other within _
    have inside : other < before.size := by simpa [overlaid] using within
    simp only [overlaid, Array.getElem_mapIdx, Array.getElem_setIfInBounds inside, last?, List.reverse_singleton,
      List.findSome?_singleton, Placement.item?, place, Option.some.injEq]
    by_cases same : object = other
    · subst same
      have here : before[object] = held := Option.some.inj ((Array.getElem?_eq_getElem inside).symm.trans stored)
      simp only [here, true_and, if_true, patch]
      congr 1
      funext position old
      split <;> rfl
    · simp only [same, false_and, if_false, Option.getD_none]
      apply Array.ext <;> simp

/-- One placement, made by putting a changed object into the place of the one before. -/
theorem overlaid_set {ω : Type} {held : Array ω} {view : ω → Array β} {p : Placement β} {id : Nat} {old new : ω}
    (place : objects[p.index.toNat]? = some id) (stored : held[id]? = some old)
    (patched : view new = patch (view old) p.start.toNat p.items) :
    (held.setIfInBounds id new).map view = overlaid objects [p] (held.map view) := by
  have seen : (held.map view)[id]? = some (view old) := by simp only [Array.getElem?_map, stored, Option.map_some]
  rw [overlaid_single objects place seen, Array.map_setIfInBounds, patched]

theorem extent_overlaid (p : Placement γ) (ps : List (Placement β)) (before : Array (Array β)) :
    p.extent objects (overlaid objects ps before) = p.extent objects before := by
  simp only [Placement.extent, overlaid, Array.getElem?_mapIdx]
  cases objects[p.index.toNat]? with
  | none => rfl
  | some object =>
    simp only [Option.bind_some]
    cases before[object]? <;> simp

theorem fits_overlaid (p : Placement γ) (ps : List (Placement β)) (before : Array (Array β)) :
    p.fits objects (overlaid objects ps before) = p.fits objects before := by
  simp only [Placement.fits, extent_overlaid]

end Overlay

section Lookups

variable {space : IndexSpace} {index : UInt32} {item? : Machine → Option β} {m : Machine}

theorem look_found {item : β} (known : item? m = some item) :
    Run.look (fun m => Machine.found space index (item? m)) m = .ok item m := by
  simp only [Run.look, Run.lift, known, Machine.found]

theorem look_missing (missing : item? m = none) :
    Run.look (fun m => Machine.found space index (item? m)) m = .error (.trap (.invalidIndex space index)) m := by
  simp only [Run.look, Run.lift, missing, Machine.found]

end Lookups

/-- The reason for which a run ended early. -/
def failure : EStateM.Result Halt Machine Unit → Option Halt
  | .ok _ _ => none
  | .error halt _ => some halt

theorem failure_eq_none {outcome : EStateM.Result Halt Machine Unit} :
    failure outcome = none ↔ ∃ after, outcome = .ok () after := by
  cases outcome with
  | ok _ after => simp [failure]
  | error halt after => simp [failure]

theorem failure_eq_some {outcome : EStateM.Result Halt Machine Unit} {halt : Halt} :
    failure outcome = some halt ↔ ∃ after, outcome = .error halt after := by
  cases outcome with
  | ok _ after => simp [failure]
  | error other after => simp [failure]

/-- A segment that is to be laid over an object. -/
structure ActiveSegment (β : Type) where
  index : UInt32
  offset : Code
  items : List β

section Offsets

/-- Where segments go, up to the first one whose offset does not come to a number, and why it does not. -/
def evaluated (fuel : Nat) : List (ActiveSegment β) → Machine → List (Placement β) × Option Halt
  | [], _ => ([], none)
  | s :: others, m =>
    match evaluateOffset fuel s.offset m with
    | .ok offset after =>
      let (ps, stuck) := evaluated fuel others after
      (⟨s.index, offset.toUInt32, s.items⟩ :: ps, stuck)
    | .error halt _ => ([], some halt)

/-- Where segments go by what their offsets mean. An offset that leaves more than its value leaves it to the next. -/
def denoted (globals : UInt32 → Option Int32) : List (ActiveSegment β) → List Int32 → Option (List (Placement β))
  | [], _ => some []
  | s :: others, operands =>
    match meaning globals s.offset operands with
    | some (offset :: rest) => (denoted globals others rest).map (⟨s.index, offset.toUInt32, s.items⟩ :: ·)
    | _ => none

theorem evaluated_ok {fuel : Nat} {s : ActiveSegment β} {others : List (ActiveSegment β)} {m after : Machine}
    {offset : Int32} (done : evaluateOffset fuel s.offset m = .ok offset after) :
    evaluated fuel (s :: others) m =
      (⟨s.index, offset.toUInt32, s.items⟩ :: (evaluated fuel others after).1, (evaluated fuel others after).2) := by
  simp only [evaluated, done]

theorem evaluated_error {fuel : Nat} {s : ActiveSegment β} {others : List (ActiveSegment β)} {m after : Machine}
    {halt : Halt} (failed : evaluateOffset fuel s.offset m = .error halt after) :
    evaluated fuel (s :: others) m = ([], some halt) := by
  simp only [evaluated, failed]

theorem evaluated_length (fuel : Nat) (segments : List (ActiveSegment β)) (m : Machine)
    (all : (evaluated fuel segments m).2 = none) : (evaluated fuel segments m).1.length = segments.length := by
  induction segments generalizing m with
  | nil => rfl
  | cons s others ih =>
    cases outcome : evaluateOffset fuel s.offset m with
    | error halt after =>
      rw [evaluated_error outcome] at all
      cases all
    | ok offset after =>
      rw [evaluated_ok outcome] at all ⊢
      exact congrArg (· + 1) (ih after all)

/-- Fuel for the longest offset is enough for all of them. -/
theorem evaluated_fueled {segments : List (ActiveSegment β)} (constant : ∀ s ∈ segments, Constant s.offset) (fuel : Nat)
    (m : Machine) (cut : (evaluated fuel segments m).2 = some .outOfFuel) : ∃ s ∈ segments, fuel < s.offset.length := by
  induction segments generalizing m with
  | nil => cases cut
  | cons s others ih =>
    obtain ⟨here, later⟩ := List.forall_mem_cons.mp constant
    cases outcome : evaluateOffset fuel s.offset m with
    | error halt after =>
      rw [evaluated_error outcome] at cut
      refine ⟨s, List.mem_cons_self, Nat.lt_of_not_le fun enough => ?_⟩
      exact (fueled_law.evaluateOffset here (.inl enough) m).error outcome (Option.some.inj cut)
    | ok offset after =>
      rw [evaluated_ok outcome] at cut
      obtain ⟨long, member, short⟩ := ih later after cut
      exact ⟨long, List.mem_cons_of_mem s member, short⟩

/-- Segments go where their offsets say, as far as these are evaluated. -/
theorem denoted_evaluated {segments : List (ActiveSegment β)} (constant : ∀ s ∈ segments, Constant s.offset)
    (fuel : Nat) (m : Machine) :
    denoted (globalInteger m) (segments.take (evaluated fuel segments m).1.length) m.store.stack.operands =
      some (evaluated fuel segments m).1 := by
  induction segments generalizing m with
  | nil => rfl
  | cons s others ih =>
    obtain ⟨here, later⟩ := List.forall_mem_cons.mp constant
    cases outcome : evaluateOffset fuel s.offset m with
    | error halt after =>
      rw [evaluated_error outcome]
      rfl
    | ok offset after =>
      have calm : Calm m after := calm_of_ok (evaluateOffset_calm here fuel) outcome
      have rest := ih later after
      rw [globalInteger_calm calm] at rest
      rw [evaluated_ok outcome]
      simp only [List.length_cons, List.take_succ_cons, denoted, evaluateOffset_meaning here outcome, rest,
        Option.map_some]

end Offsets

end WasmMachine.Proofs.Placements

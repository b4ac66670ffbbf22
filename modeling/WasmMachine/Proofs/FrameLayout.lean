import WasmMachine.Proofs.ModuleCodec
import WasmMachine.Proofs.TypeFaults

/-! The locals of a frame: how many there are, and which is which. Groups of locals are declared by counts of 32 bits that
nobody has checked, and are added up in 64 bits; as few groups as a module can hold never add up to more than that. So
the limit is checked against the true number, and every index stands for the argument or the group that it should. -/

namespace WasmMachine.Proofs.FrameLayout
open Sequencing ByteCodec EntryCodec ModuleCodec TypeFaults

/-- How many locals the groups declare. -/
def declaredCount (declared : List LocalGroup) : Nat := (declared.map (·.count.toNat)).sum

def localCount (args : List Value) (declared : List LocalGroup) : Nat := args.length + declaredCount declared

section Counting

variable {args : List Value} {declared : List LocalGroup}

theorem declaredCount_le (declared : List LocalGroup) : declaredCount declared ≤ declared.length * (2 ^ 32 - 1) := by
  induction declared with
  | nil => exact Nat.le_refl 0
  | cons group others ih =>
    have less := group.count.toNat_lt
    simp only [declaredCount, List.map_cons, List.sum_cons, List.length_cons] at ih ⊢
    omega

/-- Adding up in 64 bits gives the sum, and no sum on the way wraps around, if the last one does not. -/
theorem toNat_foldl (declared : List LocalGroup) (sum : UInt64) (small : sum.toNat + declaredCount declared < 2 ^ 64) :
    (declared.foldl (fun sum group => sum + group.count.toUInt64) sum).toNat = sum.toNat + declaredCount declared := by
  induction declared generalizing sum with
  | nil => rfl
  | cons group others ih =>
    simp only [declaredCount, List.map_cons, List.sum_cons] at small ih ⊢
    have next : (sum + group.count.toUInt64).toNat = sum.toNat + group.count.toNat := by
      rw [UInt64.toNat_add, UInt32.toNat_toUInt64]
      omega
    rw [List.foldl_cons, ih _ (by omega), next, Nat.add_assoc]

theorem toNat_total (few : args.length < 2 ^ 32) (fewGroups : declared.length < 2 ^ 32) :
    (Frame.total args declared).toNat = localCount args declared := by
  -- Fewer than 2³² arguments, and fewer than 2³² groups of fewer than 2³² locals, are fewer than 2⁶⁴ together.
  have bound := declaredCount_le declared
  have counted := toNat_foldl declared 0 (by rw [UInt64.toNat_zero]; omega)
  rw [UInt64.toNat_zero, Nat.zero_add] at counted
  rw [Frame.total, UInt64.toNat_add, counted, UInt64.toNat_ofNat', localCount]
  omega

end Counting

section Layout

variable {args : List Value} {declared front behind : List LocalGroup} {group : LocalGroup} {frame : Frame}

theorem length_zeros (declared : List LocalGroup) : (Frame.zeros declared).length = declaredCount declared := by
  simp [Frame.zeros, List.length_flatMap, declaredCount]

/-- The locals of a group stand behind those of the groups in front of it. -/
theorem zeros_split (front behind : List LocalGroup) (group : LocalGroup) : Frame.zeros (front ++ group :: behind) =
    Frame.zeros front ++ (List.replicate group.count.toNat (Value.zero group.type) ++ Frame.zeros behind) := by
  simp only [Frame.zeros, List.flatMap_append, List.flatMap_cons]

theorem zeros_of_group {k : Nat} (lower : declaredCount front ≤ k) (upper : k < declaredCount front + group.count.toNat) :
    (Frame.zeros (front ++ group :: behind))[k]? = some (Value.zero group.type) := by
  rw [← length_zeros] at lower upper
  rw [zeros_split, List.getElem?_append_right lower, List.getElem?_append_left (by rw [List.length_replicate]; omega),
    List.getElem?_replicate_of_lt (by omega)]

theorem get_of_some {i : UInt32} {v : Value} (known : frame.locals.toList[i.toNat]? = some v) : frame.get i = .ok v := by
  rw [Array.getElem?_toList] at known
  simp only [Frame.get, known]

theorem get_eq_error {i : UInt32} {t : Trap} :
    frame.get i = .error t ↔ frame.locals.toList.length ≤ i.toNat ∧ t = .invalidIndex .localVariable i := by
  cases known : frame.locals.toList[i.toNat]? with
  | some v =>
    have inside := (List.getElem?_eq_some_iff.mp known).1
    rw [get_of_some known]
    constructor
    · intro impossible
      cases impossible
    · rintro ⟨beyond, _⟩
      omega
  | none =>
    have beyond := List.getElem?_eq_none_iff.mp known
    rw [Array.getElem?_toList] at known
    simp only [Frame.get, known, beyond, true_and, Except.error.injEq]
    exact eq_comm

/-- The locals are the arguments, and then for each group as many zeros of its type as it counts. So each index stands for
an argument, for a group or for nothing. -/
structure LaidOut (args : List Value) (declared : List LocalGroup) (frame : Frame) : Prop where
  locals : frame.locals.toList =
    args ++ declared.flatMap fun group => List.replicate group.count.toNat (Value.zero group.type)
  argument : ∀ (i : UInt32) (inside : i.toNat < args.length), frame.get i = .ok args[i.toNat]
  zero : ∀ front group behind, declared = front ++ group :: behind → ∀ i : UInt32, localCount args front ≤ i.toNat →
    i.toNat < localCount args front + group.count.toNat → frame.get i = .ok (Value.zero group.type)
  missing : ∀ (i : UInt32) t,
    frame.get i = .error t ↔ localCount args declared ≤ i.toNat ∧ t = .invalidIndex .localVariable i

theorem laidOut_of_locals (locals : frame.locals.toList = args ++ Frame.zeros declared) : LaidOut args declared frame where
  locals := locals
  argument i inside := by
    apply get_of_some
    rw [locals, List.getElem?_append_left inside, List.getElem?_eq_getElem inside]
  zero front group behind split i lower upper := by
    unfold localCount at lower upper
    apply get_of_some
    rw [locals, List.getElem?_append_right (by omega), split]
    exact zeros_of_group (by omega) (by omega)
  missing i t := by rw [get_eq_error, locals, List.length_append, length_zeros, localCount]

/-- The number of locals is computed as what it is; a frame is refused exactly when that number is above the limit, and is
laid out otherwise. -/
structure FramesExact (args : List Value) (declared : List LocalGroup) : Prop where
  total : (Frame.total args declared).toNat = localCount args declared
  refused : Frame.maxLocals.toNat < localCount args declared →
    Frame.create args declared = .error (.unsupported (.localCount (Frame.total args declared) Frame.maxLocals))
  made : localCount args declared ≤ Frame.maxLocals.toNat →
    ∃ frame, Frame.create args declared = .ok frame ∧ LaidOut args declared frame

theorem framesExact_of_total (total : (Frame.total args declared).toNat = localCount args declared) :
    FramesExact args declared where
  total := total
  refused many := by
    rw [← total] at many
    exact if_pos (UInt64.lt_iff_toNat_lt.mpr many)
  made few := by
    rw [← total] at few
    have within : ¬ Frame.maxLocals < Frame.total args declared := UInt64.not_lt.mpr (UInt64.le_iff_toNat_le.mpr few)
    exact ⟨⟨(args ++ Frame.zeros declared).toArray⟩, if_neg within, laidOut_of_locals rfl⟩

end Layout

section Bounds

theorem item_length_le_vector {α : Type} {encode : α → List UInt8} {items : List α} {a : α} (member : a ∈ items) :
    (encode a).length ≤ (Counted.encode encode items).length := by
  rw [Counted.encode, List.length_append]
  exact Nat.le_trans (Codec.item_length_le member) (Nat.le_add_left _ _)

theorem length_le_vector {α : Type} {encode : α → List UInt8} (positive : ∀ a, 0 < (encode a).length) (items : List α) :
    items.length ≤ (Counted.encode encode items).length := by
  rw [Counted.encode, List.length_append]
  exact Nat.le_trans (Codec.length_le_flatMap positive items) (Nat.le_add_left _ _)

variable {bytes : List UInt8} {m : Module}

/-- Parameters and groups are written as at least one byte each, and a section has fewer than 2³² bytes. -/
theorem params_lt_of_decode (decoded : Module.decode bytes = .ok m) {items : List FunctionType}
    (member : Section.types items ∈ m.sections) {type : FunctionType} (inside : type ∈ items) :
    type.params.length < 2 ^ 32 := by
  have short : (Counted.encode FunctionType.encode items).length < UInt32.size :=
    ((decode_image decoded).2.1 _ member).2
  have part : type.encode.length ≤ _ := item_length_le_vector inside
  have one : ∀ p : ValueType, 0 < [p.toByte].length := fun _ => Nat.one_pos
  have params := length_le_vector one type.params
  simp only [FunctionType.encode, List.length_cons, List.length_append] at part
  have size : UInt32.size = 2 ^ 32 := rfl
  omega

theorem locals_lt_of_decode (decoded : Module.decode bytes = .ok m) {items : List FunctionBody}
    (member : Section.bodies items ∈ m.sections) {body : FunctionBody} (inside : body ∈ items) :
    body.locals.length < 2 ^ 32 := by
  have short : (Counted.encode FunctionBody.encode items).length < UInt32.size :=
    ((decode_image decoded).2.1 _ member).2
  have part : body.encode.length ≤ _ := item_length_le_vector inside
  have groups := length_le_vector localGroup_positive body.locals
  simp only [FunctionBody.encode, Counted.encodeBytes, List.length_append] at part
  have size : UInt32.size = 2 ^ 32 := rfl
  omega

/-- A call has as many arguments as its type has parameters. -/
theorem length_of_resolveArgs {type : FunctionType} {given args : List Value} {m after : Machine}
    (resolved : Call.resolveArgs type.params given m = .ok args after) : args.length = type.params.length := by
  have settled : Settles (Blames fun _ => True) (fun args _ => args.map Value.type = type.params)
      (Call.resolveArgs type.params given) m := settles_resolveArgs fun _ _ => trivial
  rw [← settled.ok resolved, List.length_map]

end Bounds

/-- Frames are exact for all arguments and groups that a module can give rise to, which are fewer than 2³² of each. -/
theorem frames_laid_out_exactly :
    (∀ args declared, args.length < 2 ^ 32 → declared.length < 2 ^ 32 → FramesExact args declared) ∧
    (∀ bytes m, Module.decode bytes = .ok m →
      (∀ items, Section.types items ∈ m.sections → ∀ type ∈ items, type.params.length < 2 ^ 32) ∧
      ∀ items, Section.bodies items ∈ m.sections → ∀ body ∈ items, body.locals.length < 2 ^ 32) ∧
    ∀ type given m args after, Call.resolveArgs (FunctionType.params type) given m = .ok args after →
      args.length = type.params.length := by
  refine ⟨?_, ?_, ?_⟩
  · intro args declared few fewGroups
    exact framesExact_of_total (toNat_total few fewGroups)
  · intro bytes m decoded
    exact ⟨fun _ member _ inside => params_lt_of_decode decoded member inside,
      fun _ member _ inside => locals_lt_of_decode decoded member inside⟩
  · intro type given m args after resolved
    exact length_of_resolveArgs resolved

/-- A module with a signature of one parameter and a body with two locals. -/
def twoLocals : Module where
  sections := [.types [⟨[.i32], []⟩], .bodies [⟨[⟨2, .i32⟩], .nil⟩]]

def twoLocalsBytes : List UInt8 := [
  0x00, 0x61, 0x73, 0x6d, 0x01, 0x00, 0x00, 0x00,
  0x01, 0x05, 0x01, 0x60, 0x01, 0x7f, 0x00,
  0x0a, 0x06, 0x01, 0x04, 0x01, 0x02, 0x7f, 0x0b]

/-- Two groups that count one local more than 32 bits can, and groups of which some are empty; what a module declares; and a
call that is given one argument too many. -/
theorem groups_laid_out :
    Frame.create [.i32 7] [⟨0xffffffff, .i32⟩, ⟨1, .i64⟩] =
      .error (.unsupported (.localCount 4294967297 50000)) ∧
    (∃ frame, Frame.create [.i32 7] [⟨0, .f32⟩, ⟨2, .i32⟩, ⟨0, .f64⟩, ⟨1, .i64⟩] = .ok frame ∧
      frame.get 0 = .ok (.i32 7) ∧ frame.get 2 = .ok (.i32 0) ∧ frame.get 3 = .ok (.i64 0) ∧
      frame.get 4 = .error (.invalidIndex .localVariable 4)) ∧
    (Module.decode twoLocalsBytes = .ok twoLocals ∧
      ∀ items, Section.bodies items ∈ twoLocals.sections → ∀ body ∈ items, body.locals.length < 2 ^ 32) ∧
    Call.resolveArgs [.i32] [.i32 7, .i64 8] {} = .ok [.i32 7] {} ∧ [Value.i32 7].length = [ValueType.i32].length := by
  obtain ⟨exact, declared, resolves⟩ := frames_laid_out_exactly
  have many := exact [.i32 7] [⟨0xffffffff, .i32⟩, ⟨1, .i64⟩] (by decide) (by decide)
  have few := exact [.i32 7] [⟨0, .f32⟩, ⟨2, .i32⟩, ⟨0, .f64⟩, ⟨1, .i64⟩] (by decide) (by decide)
  have decoded : Module.decode twoLocalsBytes = .ok twoLocals := rfl
  have resolved : Call.resolveArgs [.i32] [.i32 7, .i64 8] {} = .ok [.i32 7] {} := rfl
  refine ⟨many.refused (by decide), ?_, ⟨decoded, (declared _ _ decoded).2⟩, resolved,
    resolves ⟨[.i32], []⟩ _ _ _ _ resolved⟩
  obtain ⟨frame, created, laidOut⟩ := few.made (by decide)
  refine ⟨frame, created, laidOut.argument 0 (by decide), ?_, ?_, (laidOut.missing 4 _).mpr ⟨by decide, rfl⟩⟩
  · exact laidOut.zero [⟨0, .f32⟩] ⟨2, .i32⟩ _ rfl 2 (by decide) (by decide)
  · exact laidOut.zero [⟨0, .f32⟩, ⟨2, .i32⟩, ⟨0, .f64⟩] ⟨1, .i64⟩ _ rfl 3 (by decide) (by decide)

end WasmMachine.Proofs.FrameLayout

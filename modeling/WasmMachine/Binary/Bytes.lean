/-! Bytes that are written in place: an array takes new bytes over those that it holds, and is made
longer before, where they would not all fit. -/

namespace WasmMachine.Bytes

/-- Puts bytes over those from an index on. -/
def overlay (bytes : Array UInt8) : (start : Nat) → List UInt8 → Array UInt8
  | _, [] => bytes
  | start, b :: rest => overlay (bytes.setIfInBounds start b) (start + 1) rest

/-- Makes an array at least as long as asked for; the bytes that are added are zero. -/
def grow (bytes : Array UInt8) (size : Nat) : Array UInt8 :=
  if bytes.size < size then bytes ++ Array.replicate (size - bytes.size) 0 else bytes

theorem overlay_size (bytes : Array UInt8) (start : Nat) (new : List UInt8) :
    (overlay bytes start new).size = bytes.size := by
  induction new generalizing bytes start with
  | nil => rfl
  | cons b rest ih => rw [overlay, ih, Array.size_setIfInBounds]

theorem grow_size (bytes : Array UInt8) (size : Nat) : (grow bytes size).size = max bytes.size size := by
  unfold grow
  split
  · rw [Array.size_append, Array.size_replicate]
    omega
  · omega

theorem overlay_toList (bytes : Array UInt8) (start : Nat) (new : List UInt8)
    (room : start + new.length ≤ bytes.size) :
    (overlay bytes start new).toList =
      bytes.toList.take start ++ new ++ bytes.toList.drop (start + new.length) := by
  induction new generalizing bytes start with
  | nil => simp [overlay]
  | cons b rest ih =>
    rw [List.length_cons] at room
    have here : start < bytes.toList.length := Nat.lt_of_lt_of_le (by omega) room
    have ends : start + (rest.length + 1) = start + 1 + rest.length := by omega
    rw [overlay, ih _ _ (by rw [Array.size_setIfInBounds]; omega), Array.toList_setIfInBounds,
      List.length_cons, ends, List.drop_set_of_lt (by omega), List.take_add_one,
      List.take_set_of_le (Nat.le_refl start), List.getElem?_set_self here]
    simp

theorem grow_toList (bytes : Array UInt8) (size : Nat) :
    (grow bytes size).toList = bytes.toList ++ List.replicate (size - bytes.size) 0 := by
  unfold grow
  split
  · rw [Array.toList_append, Array.toList_replicate]
  next enough =>
    rw [Nat.sub_eq_zero_of_le (Nat.not_lt.mp enough), List.replicate_zero, List.append_nil]

/-- Put over those from an index inside the array on, new bytes all fit once the array has grown. -/
theorem overlay_grow_toList (bytes : Array UInt8) (start : Nat) (new : List UInt8)
    (inside : start ≤ bytes.size) :
    (overlay (grow bytes (start + new.length)) start new).toList =
      bytes.toList.take start ++ new ++ bytes.toList.drop (start + new.length) := by
  have room : start + new.length ≤ (grow bytes (start + new.length)).size := by
    rw [grow_size]
    exact Nat.le_max_right _ _
  rw [overlay_toList _ _ _ room, grow_toList, List.take_append_of_le_length inside,
    List.drop_append]
  simp

end WasmMachine.Bytes

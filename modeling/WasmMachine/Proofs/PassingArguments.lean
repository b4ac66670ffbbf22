import Mathlib.Data.List.Induction
import WasmMachine.Proofs.CallParts
import WasmMachine.Proofs.OperandLists

/-! How arguments reach a call. A call takes the arguments that it is given and pops the missing ones, so integers that
were pushed before it are arguments as if they had been given. Popping them leaves the stack exactly as it was before
they were pushed; from there on both calls are one and the same computation. -/

namespace WasmMachine.Proofs.PassingArguments
open Sequencing CallParts Leb128Codec OperandLists

/-- An integer on top of a stack is popped, and the stack below it is untouched, whatever its bytes are. -/
theorem pop_of_write (v : Int32) (stack : OperandStack) :
    OperandStack.popI32 { stack with bytes := stack.bytes.write (Leb128.encodeS32 v) } = .ok v stack := by
  have above : Cursor.rest (stack.bytes.write (Leb128.encodeS32 v)) = Leb128.encodeS32 v ++ Cursor.rest stack.bytes := by
    simp [Cursor.rest, ByteStack.toList, ByteStack.write]
  have read := readSigned_follows Leb128.maxGroups 1 0 (stack.bytes.write (Leb128.encodeS32 v))
  rw [above] at read
  obtain ⟨after, found, same⟩ := mapState_eq_ok (read.symm.trans (s32_reads v (Cursor.rest stack.bytes)))
  obtain rfl := rest_injective same
  simp only [OperandStack.popI32, Leb128.readS32, found]

theorem pop_of_push {v : Int32} {stack pushed : OperandStack} (push : OperandStack.pushI32 v stack = .ok () pushed) :
    OperandStack.popI32 pushed = .ok v stack := by
  unfold OperandStack.pushI32 at push
  dsimp only at push
  split at push
  · cases push
    exact pop_of_write v stack
  · cases push

/-- The operands that were pushed last are the arguments, in the order in which they were pushed. -/
theorem popArgs_of_push {values : List Int32} {stack pushed : OperandStack}
    (push : values.forM OperandStack.pushI32 stack = .ok () pushed) :
    Call.popArgs (List.replicate values.length .i32) pushed = .ok (values.map Value.i32) stack := by
  induction values using List.reverseRecOn generalizing pushed with
  | nil =>
    cases push
    rfl
  | append_singleton earlier last ih =>
    have push := (congrFun List.forM_append stack).symm.trans push
    obtain ⟨_, between, first, rest⟩ := bind_eq_ok push
    obtain ⟨_, top, second, done⟩ := bind_eq_ok rest
    obtain ⟨_, rfl⟩ := pure_eq_ok done
    have popped : OperandStack.popTyped .i32 top = .ok (.i32 last) between := bind_of_ok (pop_of_push second)
    rw [List.length_append, List.length_singleton, List.replicate_succ, List.map_append]
    exact (bind_of_ok popped).trans (bind_of_ok (ih first))

section Calls

variable {params front : List ValueType} {given : List Value}

/-- A computation on the operand stack that another one undoes leaves no trace in the machine. -/
theorem onStack_undone {α β : Type} {forth : StackM α} {back : StackM β} {a : α} {b : β} {m after : Machine}
    (outcome : Run.onStack forth m = .ok a after)
    (undone : ∀ stack, forth m.store.stack = .ok a stack → back stack = .ok b m.store.stack) :
    Run.onStack back after = .ok b m := by
  cases done : forth m.store.stack with
  | error t stack =>
    simp only [Run.onStack, done] at outcome
    cases outcome
  | ok c stack =>
    simp only [Run.onStack, done] at outcome
    cases outcome
    simp only [Run.onStack, undone stack done]

theorem resolveArgs_of_push {values : List Int32} {m pushed : Machine}
    (typed : params = front ++ List.replicate values.length .i32) (counted : front.length = given.length)
    (push : Run.onStack (values.forM OperandStack.pushI32) m = .ok () pushed) :
    Call.resolveArgs params given pushed = Call.resolveArgs params (given ++ values.map Value.i32) m := by
  have missing : (params.drop given.length).reverse = List.replicate values.length .i32 := by
    rw [typed, ← counted, List.drop_left, List.reverse_replicate]
  have popped : Run.onStack (Call.popArgs (params.drop given.length).reverse) pushed = .ok (values.map Value.i32) m := by
    rw [missing]
    exact onStack_undone push fun _ => popArgs_of_push
  have few : given.length ≤ params.length := by
    rw [typed, List.length_append]
    omega
  have all : (given ++ values.map Value.i32).length = params.length := by
    rw [typed, List.length_append, List.length_append, List.length_map, List.length_replicate, counted]
  have none : params.drop (given ++ values.map Value.i32).length = [] := List.drop_eq_nil_of_le (Nat.le_of_eq all.symm)
  unfold Call.resolveArgs
  rw [List.take_of_length_le few, List.take_of_length_le (Nat.le_of_eq all), none]
  have nothing : Run.onStack (Call.popArgs [].reverse) m = .ok [] m := rfl
  refine (bind_of_ok popped).trans ((bind_of_ok nothing).trans ?_).symm
  rw [List.append_nil]

/-- Of the given arguments no more than there are parameters are looked at. -/
theorem resolveArgs_surplus (covered : params.length ≤ given.length) (extra : List Value) :
    Call.resolveArgs params (given ++ extra) = Call.resolveArgs params given := by
  simp only [Call.resolveArgs, List.take_append_of_le_length covered]

theorem invoke_of_resolved {execute : Program → Run Unit} {f : Function} {type : FunctionType} {given other : List Value}
    {m m' : Machine} (single : type.results.length ≤ 1)
    (same : Call.resolveArgs type.params given m = Call.resolveArgs type.params other m') :
    Call.invoke execute f type given m = Call.invoke execute f type other m' := by
  unfold Call.invoke
  simp only [Nat.not_lt.mpr single, if_false]
  exact bind_of_same same

end Calls

/-- A call with its last arguments on the operand stack is the call that is given all of them, in its outcome and in
the state that it leaves, from every state and whatever the function does. Arguments beyond the parameters change
nothing. -/
theorem arguments_given_or_pushed (fuel : Nat) (f : Function) (type : FunctionType) :
    (∀ (given : List Value) (values : List Int32) (front : List ValueType) (m pushed : Machine),
      type.results.length ≤ 1 → type.params = front ++ List.replicate values.length .i32 →
      front.length = given.length → Run.onStack (values.forM OperandStack.pushI32) m = .ok () pushed →
        f.invoke fuel type given pushed = f.invoke fuel type (given ++ values.map Value.i32) m) ∧
    (∀ (given extra : List Value) (m : Machine), type.params.length ≤ given.length →
      f.invoke fuel type (given ++ extra) m = f.invoke fuel type given m) := by
  refine ⟨?_, ?_⟩
  · intro given values front m pushed single typed counted push
    exact invoke_of_resolved single (resolveArgs_of_push typed counted push)
  · intro given extra m covered
    simp only [Function.invoke, Call.invoke, resolveArgs_surplus covered]

def returned? {α : Type} : EStateM.Result Halt Machine α → Option α
  | .ok a _ => some a
  | .error _ _ => none

theorem eq_ok_of_returned {α : Type} {a : α} {outcome : EStateM.Result Halt Machine α}
    (returned : returned? outcome = some a) : ∃ after, outcome = .ok a after := by
  cases outcome with
  | ok b after =>
    cases returned
    exact ⟨after, rfl⟩
  | error halt after => cases returned

/-- A function to which the order of its arguments matters. -/
def remainder : Function :=
  .defined ⟨[.i32, .i32], [.i32]⟩ [] (.ofCode (.op (.localGet 0) (.op (.localGet 1) (.op (.binary .remS) .nil))))

/-- The byte on this stack is no integer, and there is room for three more. -/
def oddStack : Machine := { store := { stack := { bytes := ⟨#[0xff]⟩, capacity := some 4 } } }

theorem remainder_given_or_pushed :
    (∃ pushed, Run.onStack ([-7, 3].forM OperandStack.pushI32) oddStack = .ok () pushed ∧
      remainder.invoke 4 remainder.type [] pushed = remainder.invoke 4 remainder.type [.i32 (-7), .i32 3] oddStack) ∧
    returned? (remainder.invoke 4 remainder.type [.i32 (-7), .i32 3] oddStack) = some (some (.i32 (-1))) ∧
    remainder.invoke 4 remainder.type [.i32 (-7), .i32 3, .i64 5] oddStack =
      remainder.invoke 4 remainder.type [.i32 (-7), .i32 3] oddStack := by
  obtain ⟨popped, surplus⟩ := arguments_given_or_pushed 4 remainder remainder.type
  have room : returned? (Run.onStack ([-7, 3].forM OperandStack.pushI32) oddStack) = some () := by decide +kernel
  obtain ⟨pushed, push⟩ := eq_ok_of_returned room
  refine ⟨⟨pushed, push, ?_⟩, by decide +kernel, ?_⟩
  · exact popped [] [-7, 3] [] oddStack pushed (Nat.le_refl 1) rfl rfl push
  · exact surplus [.i32 (-7), .i32 3] [.i64 5] oddStack (Nat.le_refl 2)

end WasmMachine.Proofs.PassingArguments

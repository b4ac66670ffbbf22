import WasmMachine.Proofs.IndexSpaces
import WasmMachine.Proofs.PassingArguments
import WasmMachine.Proofs.TreeSimulation

/-! Offsets that are made of constants, globals and sums. Such an expression sees nothing of the heap but the globals
and changes nothing but the operand stack and the budget, so it comes to the same value whatever tables and memories
hold, and the value is the one that its instructions denote on a list of integers. -/

namespace WasmMachine.Proofs.ConstantOffsets
open Sequencing CallParts InstructionEffects ArenaLayout IndexSpaces

variable {α β : Type}

/-- Code of constants, globals and sums alone. -/
inductive Constant : Code → Prop where
  | nil : Constant .nil
  | const {rest} (value : Int32) (constant : Constant rest) : Constant (.op (.const value) rest)
  | globalGet {rest} (index : UInt32) (constant : Constant rest) : Constant (.op (.globalGet index) rest)
  | add {rest} (constant : Constant rest) : Constant (.op (.binary .add) rest)

section Straight

variable {a : Arena} {id : NodeId} {parent next : Option NodeId}

/-- The instruction does this and goes on to the next one. -/
def Acts (o : Op) (act : Run Unit) : Prop := ∀ caller, o.run caller = (do act; return Jump.next)

theorem const_acts (value : Int32) : Acts (.const value) (Run.onStack (OperandStack.pushI32 value)) := fun _ => rfl

theorem globalGet_acts (index : UInt32) : Acts (.globalGet index) (do
    let global ← Run.look (·.global index)
    Run.onStack (OperandStack.push global.value)) := by
  intro caller
  rw [bind_assoc]
  rfl

theorem add_acts : Acts (.binary .add) (Run.onStack (BinaryOp.run .add)) := fun _ => rfl

theorem runFrom_acts {o : Op} {act : Run Unit} (acts : Acts o act)
    (found : a.nodes[id]? = some ⟨.op o, parent, next⟩) (fuel : Nat) :
    Arena.runFrom (fuel + 1) a (some id) = (do
      Code.charge o.mnemonic
      act
      Arena.runFrom fuel a next) := by
  rw [TreeSimulation.runFrom_op found, acts]
  simp only [bind_assoc, pure_bind]
  rfl

theorem runFrom_none (fuel : Nat) (a : Arena) : Arena.runFrom fuel a none = pure () := by
  cases fuel <;> rfl

end Straight

/-- A property of computations that holds of all that constant code is made of, and is closed under sequencing. -/
structure ConstantLaw (property : {α : Type} → Run α → Prop) : Prop where
  pure : ∀ {α : Type} (a : α), property (pure a)
  trap : ∀ {α : Type} (t : Trap), property (Run.trap t : Run α)
  bind : ∀ {α β : Type} {r : Run α} {next : α → Run β}, property r → (∀ a, property (next a)) → property (r >>= next)
  onStack : ∀ {α : Type} (f : StackM α), property (Run.onStack f)
  count : ∀ mnemonic, property (Run.noteExecuted mnemonic)
  charge : property Run.consumeStep
  global : ∀ index, property (Run.look (·.global index))
  inFrame : ∀ {r : Run Unit} (frame : Frame), property r → property (Run.inFrame frame r)

namespace ConstantLaw

variable {property : {α : Type} → Run α → Prop} (law : ConstantLaw property)
include law

theorem charged (mnemonic : String) : property (Code.charge mnemonic) := law.bind law.charge (fun _ => law.count _)

/-- Either there is fuel for so many instructions, or it does not matter when there is none. -/
def Enough (property : {α : Type} → Run α → Prop) (instructions fuel : Nat) : Prop :=
  instructions ≤ fuel ∨ property (throw Halt.outOfFuel : Run Unit)

theorem acts {a : Arena} {id : NodeId} {parent next : Option NodeId} {o : Op} {act : Run Unit} {others : Nat}
    (acts : Acts o act) (found : a.nodes[id]? = some ⟨.op o, parent, next⟩) (here : property act)
    (rest : ∀ fuel, Enough property others fuel → property (Arena.runFrom fuel a next)) (fuel : Nat)
    (enough : Enough property (others + 1) fuel) : property (Arena.runFrom fuel a (some id)) := by
  cases fuel with
  | zero =>
    obtain impossible | cut := enough
    · exact absurd impossible (Nat.not_succ_le_zero others)
    · exact cut
  | succ fuel =>
    rw [runFrom_acts acts found]
    apply law.bind (law.charged o.mnemonic)
    intro _
    exact law.bind here (fun _ => rest fuel (enough.imp_left Nat.le_of_succ_le_succ))

theorem runFrom {code : Code} (constant : Constant code) {a : Arena} {parent : Option NodeId} {id below : NodeId}
    (placed : Placed a parent none id below code) (fuel : Nat) (enough : Enough property code.length fuel) :
    property (Arena.runFrom fuel a (entry code id none)) := by
  induction constant generalizing id fuel with
  | nil =>
    rw [show entry .nil id none = none from rfl, runFrom_none]
    exact law.pure ()
  | const value _ ih => exact law.acts (const_acts value) placed.1 (law.onStack _) (ih placed.2) fuel enough
  | globalGet index _ ih =>
    have here := law.bind (law.global index) (fun global => law.onStack (OperandStack.push global.value))
    exact law.acts (globalGet_acts index) placed.1 here (ih placed.2) fuel enough
  | add _ ih => exact law.acts add_acts placed.1 (law.onStack _) (ih placed.2) fuel enough

theorem evaluateOffset {code : Code} (constant : Constant code) {fuel : Nat}
    (enough : Enough property code.length fuel) : property (Instantiation.evaluateOffset fuel code) := by
  have body : property ((Program.ofCode code).execute fuel) := by
    unfold Program.execute
    rw [entry_program]
    exact law.runFrom constant (placed_program _) fuel enough
  apply law.bind (law.bind (law.inFrame {} body) (fun _ => law.onStack _))
  intro value
  cases value.toI32? with
  | some v => exact law.pure v
  | none => exact law.trap _

end ConstantLaw

/-- The computation does not end for want of fuel. -/
def Fueled (r : Run α) : Prop := ∀ m, Settles (· ≠ Halt.outOfFuel) (fun _ _ => True) r m

theorem fueled_law : ConstantLaw (fun r => Fueled r) where
  pure _ _ := trivial
  trap _ _ := Halt.noConfusion
  bind first rest m := (first m).bind (fun a between _ => rest a between)
  onStack f m := by
    simp only [Settles, Run.onStack]
    cases f m.store.stack with
    | ok a stack => trivial
    | error t stack => exact Halt.noConfusion
  count _ _ := trivial
  charge m := by
    simp only [Settles, Run.consumeStep]
    cases m.store.steps with
    | none => trivial
    | some left =>
      cases left with
      | zero => exact Halt.noConfusion
      | succ left => trivial
  global index m := by
    simp only [Settles, Run.look, Run.lift]
    cases m.global index with
    | ok global => trivial
    | error t => exact Halt.noConfusion
  inFrame frame body m := by
    cases pushed : Run.pushFrame frame m with
    | error halt after =>
      obtain ⟨rfl, _⟩ := pushFrame_eq_error pushed
      rw [Settles, inFrame_of_full pushed]
      exact Halt.noConfusion
    | ok _ entered =>
      have inside := body entered
      rw [Settles, inFrame_of_entered pushed]
      rw [Settles] at inside
      split at inside
      next ran =>
        rw [ran]
        trivial
      next ran =>
        rw [ran]
        exact inside

/-- The same machine, but for its operands, what is left of its budget, its reports and its counters. -/
structure Calm (before after : Machine) : Prop where
  heap : after.heap = before.heap
  store : ∃ stack steps, after.store = { before.store with stack, steps }

theorem Calm.refl (m : Machine) : Calm m m := ⟨rfl, m.store.stack, m.store.steps, rfl⟩

theorem Calm.trans (a b c : Machine) (first : Calm a b) (second : Calm b c) : Calm a c := by
  obtain ⟨heap, stack, steps, store⟩ := second
  obtain ⟨_, _, earlier⟩ := first.store
  exact ⟨heap.trans first.heap, stack, steps, by rw [store, earlier]⟩

theorem Calm.exists_eq {before after : Machine} (calm : Calm before after) : ∃ stack steps journal usage,
    after = ⟨before.heap, { before.store with stack, steps }, journal, usage⟩ := by
  obtain ⟨heap, stack, steps, store⟩ := calm
  exact ⟨stack, steps, after.journal, after.usage, by rw [← heap, ← store]⟩

theorem calm_of_ok {r : Run α} {m after : Machine} {a : α} (calm : Within Calm r) (done : r m = .ok a after) :
    Calm m after := by
  have kept := calm m
  rw [done] at kept
  exact kept

theorem calm_law : ConstantLaw (fun r => Within Calm r) where
  pure _ m := Calm.refl m
  trap _ m := Calm.refl m
  bind := Within.bind Calm.trans
  onStack f m := by
    simp only [Run.onStack]
    cases f m.store.stack with
    | ok a stack => exact ⟨rfl, stack, m.store.steps, rfl⟩
    | error t stack => exact ⟨rfl, stack, m.store.steps, rfl⟩
  count mnemonic m := ⟨rfl, m.store.stack, m.store.steps, rfl⟩
  charge m := by
    simp only [Run.consumeStep]
    cases m.store.steps with
    | none => exact ⟨rfl, m.store.stack, m.store.steps, rfl⟩
    | some left =>
      cases left with
      | zero => exact Calm.refl m
      | succ left => exact ⟨rfl, m.store.stack, some left, rfl⟩
  global index m := by
    simp only [Run.look, Run.lift]
    cases m.global index with
    | ok global => exact Calm.refl m
    | error t => exact Calm.refl m
  inFrame frame body m := by
    cases pushed : Run.pushFrame frame m with
    | error halt after =>
      obtain ⟨_, rfl⟩ := pushFrame_eq_error pushed
      rw [inFrame_of_full pushed]
      exact Calm.refl _
    | ok _ entered =>
      rw [inFrame_of_entered pushed, final_leave]
      obtain ⟨_, rfl⟩ := pushFrame_eq_ok pushed
      obtain ⟨heap, stack, steps, store⟩ := body _
      exact ⟨heap, stack, steps, by simp only [Machine.popFrame, store, List.tail_cons]⟩

theorem evaluateOffset_calm {code : Code} (constant : Constant code) (fuel : Nat) :
    Within Calm (Instantiation.evaluateOffset fuel code) :=
  calm_law.evaluateOffset constant (.inr Calm.refl)

/-- The same machine as constant code sees it. -/
structure Alike (m n : Machine) : Prop where
  store : m.store = n.store
  globals : m.heap.globals = n.heap.globals

theorem Alike.refl (m : Machine) : Alike m m := ⟨rfl, rfl⟩

theorem Alike.symm {m n : Machine} (alike : Alike m n) : Alike n m := ⟨alike.store.symm, alike.globals.symm⟩

/-- The computation comes to the same in machines that are alike. -/
def Indifferent (r : Run α) : Prop := ∀ m n, Alike m n → SameOutcome Alike (r m) (r n)

theorem Indifferent.bind {r : Run α} {next : α → Run β} (first : Indifferent r) (rest : ∀ a, Indifferent (next a)) :
    Indifferent (r >>= next) := by
  intro m n alike
  have same := first m n alike
  cases outcome : r n with
  | ok a after =>
    rw [outcome] at same
    obtain ⟨before, here, states⟩ := same.eq_ok
    rw [bind_of_ok here, bind_of_ok outcome]
    exact rest a before after states
  | error halt after =>
    rw [outcome] at same
    obtain ⟨before, here, states⟩ := same.eq_error
    rw [bind_of_error here, bind_of_error outcome]
    exact .error states

theorem indifferent_law : ConstantLaw (fun r => Indifferent r) where
  pure _ _ _ alike := .ok alike
  trap _ _ _ alike := .error alike
  bind := Indifferent.bind
  onStack f m n alike := by
    simp only [Run.onStack, alike.store]
    cases f n.store.stack with
    | ok a stack => exact .ok ⟨rfl, alike.globals⟩
    | error t stack => exact .error ⟨rfl, alike.globals⟩
  count mnemonic m n alike := .ok ⟨alike.store, alike.globals⟩
  charge m n alike := by
    simp only [Run.consumeStep, alike.store]
    cases n.store.steps with
    | none => exact .ok alike
    | some left =>
      cases left with
      | zero => exact .error alike
      | succ left => exact .ok ⟨rfl, alike.globals⟩
  global index m n alike := by
    have same : m.global index = n.global index := by simp only [Machine.global, alike.store, alike.globals]
    simp only [Run.look, Run.lift, same]
    cases n.global index with
    | ok global => exact .ok alike
    | error t => exact .error alike
  inFrame := by
    intro r frame body
    apply Indifferent.bind
    · intro m n alike
      simp only [Run.pushFrame, alike.store]
      split
      · exact .error alike
      · exact .ok ⟨rfl, alike.globals⟩
    · intro _ m n alike
      have left : ∀ {m n : Machine}, Alike m n → Alike m.popFrame n.popFrame :=
        fun alike => ⟨by simp only [Machine.popFrame, alike.store], alike.globals⟩
      have same := body m n alike
      dsimp only
      generalize r m = outcome at same ⊢
      generalize r n = other at same ⊢
      cases same with
      | ok states => exact .ok (left states)
      | error states => exact .error (left states)

section Alike

variable {code : Code} (constant : Constant code) {fuel : Nat} {m n : Machine} (alike : Alike m n)
include constant alike

theorem evaluateOffset_alike (fuel : Nat) :
    SameOutcome Alike (Instantiation.evaluateOffset fuel code n) (Instantiation.evaluateOffset fuel code m) :=
  indifferent_law.evaluateOffset constant (.inr fun _ _ => .error) n m alike.symm

/-- An offset comes to the same number in machines that are alike. -/
theorem evaluateOffset_placed {offset : Int32} {ready : Machine}
    (placed : Instantiation.evaluateOffset fuel code m = .ok offset ready) :
    ∃ after, Instantiation.evaluateOffset fuel code n = .ok offset after ∧ Alike ready after ∧ Calm n after := by
  have same := evaluateOffset_alike constant alike fuel
  rw [placed] at same
  obtain ⟨after, outcome, states⟩ := same.eq_ok
  exact ⟨after, outcome, states.symm, calm_of_ok (evaluateOffset_calm constant fuel) outcome⟩

theorem evaluateOffset_stuck {halt : Halt} {stopped : Machine}
    (failed : Instantiation.evaluateOffset fuel code m = .error halt stopped) :
    ∃ after, Instantiation.evaluateOffset fuel code n = .error halt after ∧ Calm n after := by
  have same := evaluateOffset_alike constant alike fuel
  rw [failed] at same
  obtain ⟨after, outcome, _⟩ := same.eq_error
  have calm := evaluateOffset_calm constant fuel n
  rw [outcome] at calm
  exact ⟨after, outcome, calm⟩

end Alike

section Meaning

/-- What an instruction of constant code makes of the operands, the top one first. -/
def opMeaning (globals : UInt32 → Option Int32) : Op → List Int32 → Option (List Int32)
  | .const value, operands => some (value :: operands)
  | .globalGet index, operands => (globals index).map (· :: operands)
  | .binary .add, b :: a :: operands => some ((a + b) :: operands)
  | _, _ => none

def meaning (globals : UInt32 → Option Int32) : Code → List Int32 → Option (List Int32)
  | .nil, operands => some operands
  | .op o rest, operands => (opMeaning globals o operands).bind (meaning globals rest)
  | _, _ => none

/-- The value of a global, if it is an integer that can stand on the operand stack. -/
def globalInteger (m : Machine) (index : UInt32) : Option Int32 :=
  m.store.globals[index.toNat]?.bind fun id => m.heap.globals[id]?.bind (·.value.toI32?)

theorem popI32_shorter {stack after : OperandStack} {v : Int32} (popped : OperandStack.popI32 stack = .ok v after) :
    after.size < stack.size := by
  unfold OperandStack.popI32 at popped
  split at popped
  next value bytes read =>
    cases popped
    have list := Leb128Codec.readSigned_follows Leb128.maxGroups 1 0 stack.bytes
    rw [show Leb128.readSigned Leb128.maxGroups 1 0 stack.bytes = .ok v bytes from read] at list
    obtain ⟨groups, above, ended, _⟩ := Leb128Codec.readSigned_image list
    have sizes : stack.bytes.size = (Cursor.rest stack.bytes).length := LawfulCursor.remaining_eq stack.bytes
    have left : bytes.size = (Cursor.rest bytes).length := LawfulCursor.remaining_eq bytes
    have positive := ended.positive
    simp only [OperandStack.size, sizes, left, above, List.length_append]
    omega
  · cases popped

/-- Looking further down than the stack is deep finds no more operands. -/
theorem drain_enough {stack : OperandStack} {fuel other : Nat} (enough : stack.size ≤ fuel)
    (otherEnough : stack.size ≤ other) : stack.drain fuel = stack.drain other := by
  induction fuel generalizing stack other with
  | zero =>
    have empty : stack.size = 0 := Nat.le_zero.mp enough
    cases other with
    | zero => rfl
    | succ other =>
      unfold OperandStack.drain
      split
      next v after popped => exact absurd (popI32_shorter popped) (by omega)
      · rfl
  | succ fuel ih =>
    cases popped : OperandStack.popI32 stack with
    | error t after => cases other <;> simp only [OperandStack.drain, popped]
    | ok v after =>
      have shorter := popI32_shorter popped
      obtain ⟨other, rfl⟩ : ∃ smaller, other = smaller + 1 := ⟨other - 1, by omega⟩
      simp only [OperandStack.drain, popped]
      rw [ih (by omega) (by omega : after.size ≤ other)]

theorem operands_pop {stack after : OperandStack} {v : Int32} (popped : OperandStack.popI32 stack = .ok v after) :
    stack.operands = v :: after.operands := by
  have shorter := popI32_shorter popped
  obtain ⟨below, size⟩ : ∃ below, stack.size = below + 1 := ⟨stack.size - 1, by omega⟩
  unfold OperandStack.operands
  rw [size]
  simp only [OperandStack.drain, popped]
  rw [drain_enough (Nat.le_refl _) (by omega : after.size ≤ below)]

theorem operands_push {stack after : OperandStack} {v : Int32} (pushed : OperandStack.pushI32 v stack = .ok () after) :
    after.operands = v :: stack.operands :=
  operands_pop (PassingArguments.pop_of_push pushed)

theorem onStack_eq_ok {f : StackM α} {m after : Machine} {a : α} (outcome : Run.onStack f m = .ok a after) :
    ∃ stack, f m.store.stack = .ok a stack ∧ after = { m with store := { m.store with stack } } := by
  unfold Run.onStack at outcome
  split at outcome
  next b stack done =>
    cases outcome
    exact ⟨stack, done, rfl⟩
  · cases outcome

theorem charge_stack {mnemonic : String} {m after : Machine} (charged : Code.charge mnemonic m = .ok () after) :
    after.store.stack = m.store.stack := by
  obtain ⟨_, paid, charge, counted⟩ := bind_eq_ok charged
  have same : paid.store.stack = m.store.stack := by
    unfold Run.consumeStep at charge
    dsimp only at charge
    split at charge
    · cases charge
      rfl
    · cases charge
    · cases charge
      rfl
  cases counted
  exact same

theorem globalInteger_calm {m after : Machine} (calm : Calm m after) : globalInteger after = globalInteger m := by
  obtain ⟨heap, stack, steps, store⟩ := calm
  funext index
  simp only [globalInteger, heap, store]

/-- The computation makes of the operands what the instruction means. -/
def Denotes (act : Run Unit) (o : Op) : Prop := ∀ m after, act m = .ok () after →
  opMeaning (globalInteger m) o m.store.stack.operands = some after.store.stack.operands

theorem const_denotes (value : Int32) : Denotes (Run.onStack (OperandStack.pushI32 value)) (.const value) := by
  intro m after done
  obtain ⟨stack, pushed, rfl⟩ := onStack_eq_ok done
  exact congrArg some (operands_push pushed).symm

/-- Only integers can be pushed. -/
theorem push_eq_ok {value : Value} {stack after : OperandStack} (pushed : OperandStack.push value stack = .ok () after) :
    ∃ v, value = .i32 v ∧ OperandStack.pushI32 v stack = .ok () after := by
  cases value with
  | i32 v => exact ⟨v, rfl, pushed⟩
  | i64 v | f32 v | f64 v => cases pushed

theorem globalGet_denotes (index : UInt32) : Denotes (do
    let global ← Run.look (·.global index)
    Run.onStack (OperandStack.push global.value)) (.globalGet index) := by
  intro m after done
  obtain ⟨global, between, looked, pushes⟩ := bind_eq_ok done
  obtain ⟨found, rfl⟩ := look_eq_ok looked
  obtain ⟨id, place, stored⟩ := found_eq_ok found
  obtain ⟨stack, pushed, rfl⟩ := onStack_eq_ok pushes
  have known : globalInteger between index = global.value.toI32? := by
    simp only [globalInteger, place, stored, Option.bind_some]
  obtain ⟨v, value, integer⟩ := push_eq_ok pushed
  change (globalInteger between index).map (· :: between.store.stack.operands) = some stack.operands
  rw [known, value]
  exact congrArg some (operands_push integer).symm

theorem add_denotes : Denotes (Run.onStack (BinaryOp.run .add)) (.binary .add) := by
  intro m after done
  obtain ⟨stack, added, rfl⟩ := onStack_eq_ok done
  obtain ⟨b, first, popB, rest⟩ := bind_eq_ok added
  obtain ⟨a, second, popA, pushed⟩ := bind_eq_ok rest
  rw [operands_pop popB, operands_pop popA]
  exact congrArg some (operands_push pushed).symm

theorem meaning_acts {a : Arena} {id : NodeId} {parent next : Option NodeId} {o : Op} {act : Run Unit} {rest : Code}
    (acts : Acts o act) (found : a.nodes[id]? = some ⟨.op o, parent, next⟩) (denotes : Denotes act o)
    (calm : Within Calm act)
    (behind : ∀ fuel m after, Arena.runFrom fuel a next m = .ok () after →
      meaning (globalInteger m) rest m.store.stack.operands = some after.store.stack.operands)
    (fuel : Nat) (m after : Machine) (done : Arena.runFrom fuel a (some id) m = .ok () after) :
    meaning (globalInteger m) (.op o rest) m.store.stack.operands = some after.store.stack.operands := by
  cases fuel with
  | zero => cases done
  | succ fuel =>
    rw [runFrom_acts acts found] at done
    obtain ⟨_, paid, charged, done⟩ := bind_eq_ok done
    obtain ⟨_, acted, act, done⟩ := bind_eq_ok done
    have paying : globalInteger paid = globalInteger m := globalInteger_calm (calm_of_ok (calm_law.charged _) charged)
    have acting : globalInteger acted = globalInteger paid := globalInteger_calm (calm_of_ok calm act)
    have here := denotes paid acted act
    have later := behind fuel acted after done
    rw [acting, paying] at later
    rw [paying, charge_stack charged] at here
    simp only [meaning, here, Option.bind_some, later]

/-- Constant code that runs to its end has made of the operands what it means. -/
theorem runFrom_meaning {code : Code} (constant : Constant code) {a : Arena} {parent : Option NodeId}
    {id below : NodeId} (placed : Placed a parent none id below code) (fuel : Nat) (m after : Machine)
    (done : Arena.runFrom fuel a (entry code id none) m = .ok () after) :
    meaning (globalInteger m) code m.store.stack.operands = some after.store.stack.operands := by
  induction constant generalizing id fuel m after with
  | nil =>
    rw [show entry .nil id none = none from rfl, runFrom_none] at done
    cases done
    rfl
  | const value _ ih =>
    exact meaning_acts (const_acts value) placed.1 (const_denotes value) (calm_law.onStack _) (ih placed.2)
      fuel m after done
  | globalGet index _ ih =>
    have calm := calm_law.bind (calm_law.global index) (fun global => calm_law.onStack (OperandStack.push global.value))
    exact meaning_acts (globalGet_acts index) placed.1 (globalGet_denotes index) calm (ih placed.2)
      fuel m after done
  | add _ ih =>
    exact meaning_acts add_acts placed.1 add_denotes (calm_law.onStack _) (ih placed.2) fuel m after done

theorem inFrame_eq_ok {frame : Frame} {r : Run α} {m after : Machine} {a : α}
    (done : Run.inFrame frame r m = .ok a after) :
    ∃ entered inner, Run.pushFrame frame m = .ok () entered ∧ r entered = .ok a inner ∧ after = inner.popFrame := by
  cases pushed : Run.pushFrame frame m with
  | error halt full =>
    rw [inFrame_of_full pushed] at done
    cases done
  | ok _ entered =>
    rw [inFrame_of_entered pushed] at done
    cases ended : r entered with
    | error halt inner =>
      rw [ended] at done
      cases done
    | ok b inner =>
      rw [ended] at done
      cases done
      exact ⟨entered, inner, rfl, ended, rfl⟩

/-- An offset is the top of the operands that its expression denotes, and the others are left. -/
theorem evaluateOffset_meaning {code : Code} (constant : Constant code) {fuel : Nat} {m after : Machine} {offset : Int32}
    (done : Instantiation.evaluateOffset fuel code m = .ok offset after) :
    meaning (globalInteger m) code m.store.stack.operands = some (offset :: after.store.stack.operands) := by
  obtain ⟨value, between, evaluated, read⟩ := bind_eq_ok done
  obtain ⟨_, ran, body, pops⟩ := bind_eq_ok evaluated
  obtain ⟨entered, inner, pushed, executed, rfl⟩ := inFrame_eq_ok body
  obtain ⟨_, rfl⟩ := pushFrame_eq_ok pushed
  unfold Program.execute at executed
  rw [entry_program] at executed
  have made := runFrom_meaning constant (placed_program (.ofCode code)) fuel _ inner executed
  obtain ⟨stack, popped, rfl⟩ := onStack_eq_ok pops
  obtain ⟨v, top, pop, known⟩ := bind_eq_ok popped
  cases known
  cases read
  rw [← operands_pop pop]
  exact made

end Meaning

end WasmMachine.Proofs.ConstantOffsets

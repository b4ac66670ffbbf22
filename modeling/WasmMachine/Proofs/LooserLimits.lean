import WasmMachine.Proofs.InstructionEffects

/-! Limits cut runs short and do nothing else. The bound on active calls is asked where a frame is entered, and the
capacity of the operand stack where an operand is pushed; an instruction that passes both under some limits does the
same under looser ones. A limit that is hit ends the whole run, since nothing catches a trap. -/

namespace WasmMachine.Proofs.LooserLimits
open Sequencing CallParts ExecutionFuel InstructionParts InstructionEffects

variable {α β : Type}

/-- The machine under other limits. -/
def relax (config : Config) (capacity : Option Nat) (m : Machine) : Machine :=
  { m with store := { m.store with config, stack := { m.store.stack with capacity } } }

/-- As many calls may be active as in the machine, and as many bytes may stand on the operand stack. No bound at
all is looser than any bound. -/
structure Looser (config : Config) (capacity : Option Nat) (m : Machine) : Prop where
  depth : m.store.config.maxCallDepth ≤ config.maxCallDepth
  room : ∀ bound, capacity = some bound → ∃ own, m.store.stack.capacity = some own ∧ own ≤ bound

/-- The traps by which the two limits end a run. -/
def OfLimit (halt : Halt) : Prop := halt = .trap .callStackOverflow ∨ halt = .trap .stackOverflow

instance (halt : Halt) : Decidable (OfLimit halt) := inferInstanceAs (Decidable (_ ∨ _))

/-- A limit has ended the run. -/
def Cut : EStateM.Result Halt Machine α → Prop
  | .ok _ _ => False
  | .error halt _ => OfLimit halt

instance (outcome : EStateM.Result Halt Machine α) : Decidable (Cut outcome) :=
  match outcome with
  | .ok _ _ => isFalse id
  | .error halt _ => inferInstanceAs (Decidable (OfLimit halt))

/-- Under looser limits the computation does the same, unless a limit ends it. -/
def Uncut (r : Run α) : Prop :=
  ∀ config capacity m, Looser config capacity m → Looser config capacity (final (r m)) ∧
    (¬ Cut (r m) → r (relax config capacity m) = mapState (relax config capacity) (r m))

theorem Uncut.bind {r : Run α} {next : α → Run β} (first : Uncut r) (rest : ∀ a, Uncut (next a)) :
    Uncut (r >>= next) := by
  intro config capacity m looser
  obtain ⟨still, same⟩ := first config capacity m looser
  cases outcome : r m with
  | ok a after =>
    rw [outcome] at still same
    rw [bind_of_ok outcome]
    refine ⟨(rest a config capacity after still).1, fun uncut => ?_⟩
    rw [bind_of_ok (same id)]
    exact (rest a config capacity after still).2 uncut
  | error halt after =>
    rw [outcome] at still same
    rw [bind_of_error outcome]
    refine ⟨still, fun uncut => ?_⟩
    exact bind_of_error (same uncut)

/-- A computation that neither depends on limits nor changes them. -/
theorem Uncut.free {r : Run α} (kept : ∀ config capacity m, Looser config capacity m → Looser config capacity (final (r m)))
    (same : ∀ config capacity m, r (relax config capacity m) = mapState (relax config capacity) (r m)) : Uncut r :=
  fun config capacity m looser => ⟨kept config capacity m looser, fun _ => same config capacity m⟩

theorem Uncut.look (f : Machine → Except Trap α) (seen : ∀ m, f (visible m) = f m) : Uncut (Run.look f) := by
  intro config capacity m looser
  have same : f (relax config capacity m) = f m := (seen (relax config capacity m)).symm.trans (seen m)
  simp only [Run.look, same]
  cases f m with
  | ok a => exact ⟨looser, fun _ => rfl⟩
  | error t => exact ⟨looser, fun _ => rfl⟩

theorem Uncut.pop : Uncut (Run.onStack OperandStack.popI32) := by
  intro config capacity m looser
  simp only [Run.onStack, OperandStack.popI32, relax]
  cases Leb128.readS32 m.store.stack.bytes with
  | ok value bytes => exact ⟨⟨looser.depth, looser.room⟩, fun _ => rfl⟩
  | error e bytes => exact ⟨⟨looser.depth, looser.room⟩, fun _ => rfl⟩

theorem Looser.hasRoom {config : Config} {capacity : Option Nat} {m : Machine} (looser : Looser config capacity m)
    {more : Nat} (fits : m.store.stack.hasRoom more = true) :
    (relax config capacity m).store.stack.hasRoom more = true := by
  cases capacity with
  | none => rfl
  | some bound =>
    obtain ⟨own, equal, le⟩ := looser.room bound rfl
    simp only [OperandStack.hasRoom, equal, decide_eq_true_eq] at fits
    exact decide_eq_true (Nat.le_trans fits le)

theorem Uncut.push (value : Int32) : Uncut (Run.onStack (OperandStack.pushI32 value)) := by
  intro config capacity m looser
  by_cases fits : m.store.stack.hasRoom (Leb128.encodeS32 value).length = true
  · have alsoFits := looser.hasRoom fits
    have outcome : Run.onStack (OperandStack.pushI32 value) m = .ok () { m with
        store := { m.store with
          stack := { m.store.stack with bytes := m.store.stack.bytes.write (Leb128.encodeS32 value) } } } := by
      simp only [Run.onStack, OperandStack.pushI32, fits, if_true]
    rw [outcome]
    refine ⟨⟨looser.depth, looser.room⟩, fun _ => ?_⟩
    simp only [Run.onStack, OperandStack.pushI32, alsoFits, if_true]
    rfl
  · have outcome : Run.onStack (OperandStack.pushI32 value) m = .error (.trap .stackOverflow) m := by
      simp only [Run.onStack, OperandStack.pushI32, fits, Bool.false_eq_true, if_false]
    rw [outcome]
    exact ⟨looser, fun uncut => False.elim (uncut (.inr rfl))⟩

theorem uncut_law : InstructionLaw Uncut :=
  PartsLaw.writing
    { pure := fun _ => Uncut.free (fun _ _ _ looser => looser) (fun _ _ _ => rfl)
      trap := fun _ => Uncut.free (fun _ _ _ looser => looser) (fun _ _ _ => rfl)
      bind := Uncut.bind
      look := Uncut.look
      push := Uncut.push
      pop := Uncut.pop
      note := fun _ => Uncut.free (fun _ _ _ looser => ⟨looser.depth, looser.room⟩) (fun _ _ _ => rfl)
      hostCall := fun _ => Uncut.free (fun _ _ _ looser => ⟨looser.depth, looser.room⟩) (fun _ _ _ => rfl) }
    (fun _ => Uncut.free (fun _ _ _ looser => ⟨looser.depth, looser.room⟩) (fun _ _ _ => rfl))
    (fun _ => Uncut.free (fun _ _ _ looser => ⟨looser.depth, looser.room⟩) (fun _ _ _ => rfl))

theorem Uncut.charge : Uncut Run.consumeStep := by
  intro config capacity m looser
  simp only [Run.consumeStep, relax]
  split
  · exact ⟨⟨looser.depth, looser.room⟩, fun _ => rfl⟩
  · exact ⟨looser, fun _ => rfl⟩
  · exact ⟨⟨looser.depth, looser.room⟩, fun _ => rfl⟩

theorem Uncut.inFrame {r : Run α} (frame : Frame) (body : Uncut r) : Uncut (Run.inFrame frame r) := by
  intro config capacity m looser
  cases pushed : Run.pushFrame frame m with
  | error halt after =>
    obtain ⟨rfl, same⟩ := pushFrame_eq_error pushed
    subst after
    rw [inFrame_of_full pushed]
    exact ⟨looser, fun uncut => False.elim (uncut (.inl rfl))⟩
  | ok _ entered =>
    obtain ⟨room, same⟩ := pushFrame_eq_ok pushed
    have inside : Looser config capacity entered := by
      rw [same]
      exact ⟨looser.depth, looser.room⟩
    have alsoPushed : Run.pushFrame frame (relax config capacity m) = .ok () (relax config capacity entered) := by
      rw [same]
      exact if_neg (Nat.not_le.mpr (Nat.lt_of_lt_of_le room looser.depth))
    obtain ⟨still, unchanged⟩ := body config capacity entered inside
    rw [inFrame_of_entered pushed, final_leave]
    refine ⟨⟨still.depth, still.room⟩, fun uncut => ?_⟩
    rw [inFrame_of_entered alsoPushed]
    cases outcome : r entered with
    | ok a after =>
      rw [outcome] at unchanged
      rw [unchanged id]
      rfl
    | error halt after =>
      rw [outcome] at unchanged uncut
      rw [unchanged uncut]
      rfl

theorem runFrom_uncut (fuel : Nat) (a : Arena) (id : Option NodeId) : Uncut (Arena.runFrom fuel a id) :=
  uncut_law.runFrom uncut_law.toPartsLaw (fun uncut => uncut) Uncut.inFrame Uncut.charge
    (fun _ => Uncut.free (fun _ _ _ looser => ⟨looser.depth, looser.room⟩) (fun _ _ _ => rfl))
    (Uncut.free (fun _ _ _ looser => looser) (fun _ _ _ => rfl)) fuel a id

theorem invoke_uncut (fuel : Nat) (f : Function) (type : FunctionType) (given : List Value) :
    Uncut (f.invoke fuel type given) :=
  uncut_law.invoke (fun frame p => Uncut.inFrame frame (runFrom_uncut fuel p.arena p.arena.entry)) f type given

/-- A call that ends without hitting a limit ends alike under all looser limits: with the same result or trap, and in
the same state but for the limits themselves. -/
theorem looser_limits_keep_outcome (fuel : Nat) (m : Machine) (f : Function) (type : FunctionType) (given : List Value)
    (finished : Finished (f.invoke fuel type given m)) (uncut : ¬ Cut (f.invoke fuel type given m)) (config : Config)
    (capacity : Option Nat) (looser : Looser config capacity m) :
    ∀ larger, fuel ≤ larger → f.invoke larger type given (relax config capacity m) =
      mapState (relax config capacity) (f.invoke fuel type given m) := by
  intro larger le
  have same := (invoke_uncut fuel f type given config capacity m looser).2 uncut
  have relaxed : Finished (f.invoke fuel type given (relax config capacity m)) := by
    rw [same, finished_mapState]
    exact finished
  rw [← same]
  exact (invoke_mono le f type given).same relaxed

def asksWhetherZero : Function := .defined ⟨[], [.i32]⟩ [] (.ofCode (.op (.const 7) (.op (.call 1) .nil)))

def isZero : Function := .defined ⟨[.i32], [.i32]⟩ [] (.ofCode (.op (.localGet 0) (.op .eqz .nil)))

/-- Two calls at once and one byte of operands are just enough for `asksWhetherZero`. -/
def tight : Machine :=
  { heap := { functions := #[some asksWhetherZero, some isZero] }
    store := { functions := #[0, 1], stack := { capacity := some 1 }, config := { maxCallDepth := 2 } } }

theorem tight_limits_looser :
    Cut (asksWhetherZero.invoke 9 ⟨[], [.i32]⟩ [] (relax { maxCallDepth := 1 } (some 1) tight)) ∧
      Cut (asksWhetherZero.invoke 9 ⟨[], [.i32]⟩ [] (relax { maxCallDepth := 2 } (some 0) tight)) ∧
      (∀ larger, 9 ≤ larger → asksWhetherZero.invoke larger ⟨[], [.i32]⟩ [] (relax { maxCallDepth := 3 } none tight) =
        mapState (relax { maxCallDepth := 3 } none) (asksWhetherZero.invoke 9 ⟨[], [.i32]⟩ [] tight)) := by
  refine ⟨by decide +kernel, by decide +kernel, ?_⟩
  exact looser_limits_keep_outcome 9 tight asksWhetherZero ⟨[], [.i32]⟩ [] (by decide +kernel) (by decide +kernel) _ _
    ⟨by decide, fun _ impossible => nomatch impossible⟩

end WasmMachine.Proofs.LooserLimits

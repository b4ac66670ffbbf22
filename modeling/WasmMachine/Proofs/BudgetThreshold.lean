import WasmMachine.Proofs.ArenaRange
import WasmMachine.Proofs.TreeSimulation

/-! A budget cuts a run at one exact node. A run without a budget is compared with the runs of the same computation
from the same state under every budget: a budget that covers the cost of the run changes nothing but what is left
of it, and a smaller one is used up, whatever the depth of calls at which that happens. A node is paid for before it is
looked up, and counted when it is run; the two numbers agree because the nodes of a closed arena are all there. -/

namespace WasmMachine.Proofs.BudgetThreshold
open Sequencing CallParts ExecutionFuel InstructionParts InstructionEffects InstructionBudget ArenaRange

variable {α β : Type}

def withBudget (budget : Option Nat) (m : Machine) : Machine := { m with store := { m.store with steps := budget } }

/-- The budget ran out after `n` nodes had been executed. -/
def Exhausted (m : Machine) (n : Nat) (outcome : EStateM.Result Halt Machine α) : Prop :=
  ∃ after, outcome = .error (.trap .budgetExhausted) after ∧ after.store.steps = some 0 ∧
    after.usage.executed = m.usage.executed + n

/-- Without a budget the computation executes `cost` nodes, and under a budget it stops where the budget ends. -/
structure Costs (r : Run α) (m : Machine) (cost : Nat) : Prop where
  unlimited : (final (r m)).store.steps = none
  executed : (final (r m)).usage.executed = m.usage.executed + cost
  enough : ∀ n, cost ≤ n → r (withBudget (some n) m) = mapState (withBudget (some (n - cost))) (r m)
  short : ∀ n, n < cost → Exhausted m n (r (withBudget (some n) m))

def Metered (r : Run α) : Prop := ∀ m, m.store.steps = none → ∃ cost, Costs r m cost

theorem Metered.free {r : Run α} (steps : ∀ m, (final (r m)).store.steps = m.store.steps)
    (executed : ∀ m, (final (r m)).usage.executed = m.usage.executed)
    (same : ∀ m n, r (withBudget (some n) m) = mapState (withBudget (some n)) (r m)) : Metered r := by
  intro m unlimited
  refine ⟨0, (steps m).trans unlimited, executed m, fun n _ => same m n, ?_⟩
  intro n impossible
  exact False.elim (Nat.not_lt_zero _ impossible)

theorem Costs.bind {r : Run α} {next : α → Run β} {m after : Machine} {a : α} {first rest : Nat}
    (outcome : r m = .ok a after) (head : Costs r m first) (tail : Costs (next a) after rest) :
    Costs (r >>= next) m (first + rest) := by
  obtain ⟨_, paid, headEnough, headShort⟩ := head
  simp only [outcome, final, mapState] at paid headEnough
  refine ⟨?_, ?_, ?_, ?_⟩
  · rw [bind_of_ok outcome]
    exact tail.unlimited
  · rw [bind_of_ok outcome, tail.executed, paid, Nat.add_assoc]
  · intro n enough
    rw [bind_of_ok (headEnough n (by omega)), bind_of_ok outcome, tail.enough (n - first) (by omega), Nat.sub_sub]
  · intro n short
    by_cases reached : first ≤ n
    · -- The first part is paid for, so the budget ends within the second.
      rw [bind_of_ok (headEnough n reached)]
      obtain ⟨last, exhausted, steps, executed⟩ := tail.short (n - first) (by omega)
      exact ⟨last, exhausted, steps, by omega⟩
    · obtain ⟨last, exhausted, steps, executed⟩ := headShort n (by omega)
      exact ⟨last, bind_of_error exhausted, steps, executed⟩

theorem Costs.failed {r : Run α} {next : α → Run β} {m after : Machine} {halt : Halt} {cost : Nat}
    (outcome : r m = .error halt after) (head : Costs r m cost) : Costs (r >>= next) m cost := by
  obtain ⟨unlimited, executed, headEnough, headShort⟩ := head
  simp only [outcome, final, mapState] at unlimited executed headEnough
  refine ⟨?_, ?_, ?_, ?_⟩
  · rw [bind_of_error outcome]
    exact unlimited
  · rw [bind_of_error outcome]
    exact executed
  · intro n enough
    rw [bind_of_error (headEnough n enough), bind_of_error outcome]
    rfl
  · intro n short
    obtain ⟨last, exhausted, steps, executed⟩ := headShort n short
    exact ⟨last, bind_of_error exhausted, steps, executed⟩

/-- Only the results that there can be have to be gone on with. -/
theorem Metered.andThen {r : Run α} {next : α → Run β} (first : Metered r)
    (rest : ∀ a, (∃ m after, r m = .ok a after) → Metered (next a)) : Metered (r >>= next) := by
  intro m unlimited
  obtain ⟨cost, head⟩ := first m unlimited
  cases outcome : r m with
  | ok a after =>
    have still := head.unlimited
    rw [outcome] at still
    obtain ⟨more, tail⟩ := rest a ⟨m, after, outcome⟩ after still
    exact ⟨cost + more, head.bind outcome tail⟩
  | error halt after => exact ⟨cost, head.failed outcome⟩

theorem Metered.bind {r : Run α} {next : α → Run β} (first : Metered r) (rest : ∀ a, Metered (next a)) :
    Metered (r >>= next) :=
  first.andThen (fun a _ => rest a)

theorem Metered.onStack (f : StackM α) : Metered (Run.onStack f) := by
  have cases : ∀ m : Machine, (final (Run.onStack f m)).store.steps = m.store.steps ∧
      (final (Run.onStack f m)).usage.executed = m.usage.executed ∧
      ∀ n, Run.onStack f (withBudget (some n) m) = mapState (withBudget (some n)) (Run.onStack f m) := by
    intro m
    simp only [Run.onStack, withBudget]
    cases f m.store.stack <;> exact ⟨rfl, rfl, fun n => rfl⟩
  exact Metered.free (fun m => (cases m).1) (fun m => (cases m).2.1) (fun m => (cases m).2.2)

/-- Nothing that is looked up depends on the budget. -/
theorem Metered.look (f : Machine → Except Trap α) (seen : ∀ m, f (visible m) = f m) : Metered (Run.look f) := by
  have cases : ∀ m : Machine, (final (Run.look f m)).store.steps = m.store.steps ∧
      (final (Run.look f m)).usage.executed = m.usage.executed ∧
      ∀ n, Run.look f (withBudget (some n) m) = mapState (withBudget (some n)) (Run.look f m) := by
    intro m
    have same : ∀ n, f (withBudget (some n) m) = f m := fun n => (seen (withBudget (some n) m)).symm.trans (seen m)
    simp only [Run.look, same]
    cases f m <;> exact ⟨rfl, rfl, fun n => rfl⟩
  exact Metered.free (fun m => (cases m).1) (fun m => (cases m).2.1) (fun m => (cases m).2.2)

theorem metered_law : InstructionLaw Metered :=
  PartsLaw.writing
    { pure := fun _ => Metered.free (fun _ => rfl) (fun _ => rfl) (fun _ _ => rfl)
      trap := fun _ => Metered.free (fun _ => rfl) (fun _ => rfl) (fun _ _ => rfl)
      bind := Metered.bind
      look := Metered.look
      push := fun _ => Metered.onStack _
      pop := Metered.onStack _
      note := fun _ => Metered.free (fun _ => rfl) (fun _ => rfl) (fun _ _ => rfl)
      hostCall := fun _ => Metered.free (fun _ => rfl) (fun _ => rfl) (fun _ _ => rfl) }
    (fun _ => Metered.free (fun _ => rfl) (fun _ => rfl) (fun _ _ => rfl))
    (fun _ => Metered.free (fun _ => rfl) (fun _ => rfl) (fun _ _ => rfl))

/-- A node costs one, because it is paid for once and counted once. -/
theorem Metered.charge (mnemonic : String) : Metered (Code.charge mnemonic) := by
  intro m unlimited
  have free : Run.consumeStep m = .ok () m := by simp only [Run.consumeStep, unlimited]
  have counted : Code.charge mnemonic m = Run.noteExecuted mnemonic m := bind_of_ok free
  refine ⟨1, ?_, ?_, ?_, ?_⟩
  · rw [counted]
    exact unlimited
  · rw [counted]
    rfl
  · intro n enough
    obtain ⟨left, rfl⟩ : ∃ left, n = left + 1 := ⟨n - 1, by omega⟩
    rw [counted]
    rfl
  · intro n short
    obtain rfl : n = 0 := by omega
    exact ⟨withBudget (some 0) m, rfl, rfl, rfl⟩

theorem Metered.inFrame {r : Run α} (frame : Frame) (body : Metered r) : Metered (Run.inFrame frame r) := by
  intro m unlimited
  cases pushed : Run.pushFrame frame m with
  | error halt after =>
    obtain ⟨rfl, same⟩ := pushFrame_eq_error pushed
    subst after
    have full : ∀ n, Run.pushFrame frame (withBudget (some n) m) =
        .error (.trap .callStackOverflow) (withBudget (some n) m) := by
      intro n
      unfold Run.pushFrame at pushed ⊢
      split at pushed
      next deep => exact if_pos deep
      · cases pushed
    refine ⟨0, ?_, ?_, ?_, ?_⟩
    · rw [inFrame_of_full pushed]
      exact unlimited
    · rw [inFrame_of_full pushed]
      rfl
    · intro n _
      rw [inFrame_of_full (full n), inFrame_of_full pushed]
      rfl
    · intro n impossible
      exact False.elim (Nat.not_lt_zero _ impossible)
  | ok _ entered =>
    obtain ⟨room, same⟩ := pushFrame_eq_ok pushed
    have inside : entered.store.steps = none := by
      rw [same]
      exact unlimited
    have budgeted : ∀ n, Run.pushFrame frame (withBudget (some n) m) = .ok () (withBudget (some n) entered) := by
      intro n
      rw [same]
      exact if_neg (Nat.not_le.mpr room)
    obtain ⟨cost, still, executed, enough, short⟩ := body entered inside
    have entry : entered.usage.executed = m.usage.executed := by rw [same]
    refine ⟨cost, ?_, ?_, ?_, ?_⟩
    · rw [inFrame_of_entered pushed, final_leave]
      exact still
    · rw [inFrame_of_entered pushed, final_leave]
      exact executed.trans (congrArg (· + cost) entry)
    · intro n covered
      rw [inFrame_of_entered (budgeted n), inFrame_of_entered pushed, enough n covered]
      cases r entered <;> rfl
    · intro n less
      obtain ⟨last, exhausted, steps, reached⟩ := short n less
      rw [inFrame_of_entered (budgeted n), exhausted]
      exact ⟨last.popFrame, rfl, steps, reached.trans (congrArg (· + n) entry)⟩

/-- In a closed arena every node that is paid for is there, and is counted. -/
theorem runFrom_metered (fuel : Nat) {a : Arena} (closed : Closed a) {id : Option NodeId}
    (inside : ∀ i ∈ id, i < a.nodes.size) : Metered (Arena.runFrom fuel a id) := by
  induction fuel generalizing a id with
  | zero =>
    cases id with
    | none => exact metered_law.pure ()
    | some id => exact Metered.free (fun _ => rfl) (fun _ => rfl) (fun _ _ => rfl)
  | succ fuel ih =>
    cases id with
    | none => exact metered_law.pure ()
    | some id =>
      have found := Array.getElem?_eq_getElem (inside id rfl)
      have calls := metered_law.invoke (fun frame p =>
        Metered.inFrame frame (ih (closed_program p) (closed_program p).entry))
      rw [TreeSimulation.runFrom_found found]
      apply Metered.bind (Metered.charge _)
      intro _
      apply Metered.andThen (metered_law.act calls a id _)
      rintro next ⟨m, stepped, act⟩
      exact ih closed (act_inside closed found act)

theorem invoke_metered (fuel : Nat) (f : Function) (type : FunctionType) (given : List Value) :
    Metered (f.invoke fuel type given) := by
  refine metered_law.invoke ?_ f type given
  intro frame p
  exact Metered.inFrame frame (runFrom_metered fuel (closed_program p) (closed_program p).entry)

private theorem withBudget_self {m : Machine} {budget : Option Nat} (steps : m.store.steps = budget) :
    withBudget budget m = m := by
  subst budget
  rfl

/-- A budget is exact, and ends every call. Under a budget of `n` all fuel beyond `n` gives one finished outcome, at
most `n` nodes have been executed, and what is left is the budget less these. A call that finishes without a budget
after `cost` nodes has the same outcome under every budget that covers the cost, in the same state but for what is
left of the budget; every smaller budget is exhausted. -/
theorem budget_is_exact (m : Machine) (f : Function) (type : FunctionType) (given : List Value) :
    (∀ n, m.store.steps = some n → ∃ outcome executed, Finished outcome ∧
      (∀ fuel, n < fuel → f.invoke fuel type given m = outcome) ∧ executed ≤ n ∧
      (final outcome).usage.executed = m.usage.executed + executed ∧
      (final outcome).store.steps = some (n - executed)) ∧
    (∀ free cost, m.store.steps = none → Finished (f.invoke free type given m) →
      (final (f.invoke free type given m)).usage.executed = m.usage.executed + cost →
      ∀ n fuel, n < fuel →
        (cost ≤ n → f.invoke fuel type given (withBudget (some n) m) =
          mapState (withBudget (some (n - cost))) (f.invoke free type given m)) ∧
        (n < cost → ∃ after,
          f.invoke fuel type given (withBudget (some n) m) = .error (.trap .budgetExhausted) after ∧
            after.store.steps = some 0)) := by
  have ends : ∀ (m : Machine) n fuel, m.store.steps = some n → n < fuel → Finished (f.invoke fuel type given m) :=
    fun m n fuel steps enough => (invoke_ends fuel f type given m ⟨n, steps, enough⟩).1
  refine ⟨?_, ?_⟩
  · intro n steps
    have finished := ends m n (n + 1) steps (Nat.lt_succ_self n)
    have same : ∀ fuel, n < fuel → f.invoke fuel type given m = f.invoke (n + 1) type given m :=
      fun fuel enough => invoke_unique (ends m n fuel steps enough) finished
    obtain ⟨cost, unlimited, executed, enough, short⟩ := invoke_metered (n + 1) f type given (withBudget none m) rfl
    have restored : withBudget (some n) (withBudget none m) = m := withBudget_self steps
    by_cases covered : cost ≤ n
    · have outcome := enough n covered
      rw [restored] at outcome
      refine ⟨_, cost, finished, same, covered, ?_, ?_⟩
      · rw [outcome, final_mapState]
        exact executed
      · rw [outcome, final_mapState]
        rfl
    · obtain ⟨after, exhausted, left, reached⟩ := short n (by omega)
      rw [restored] at exhausted
      refine ⟨_, n, finished, same, Nat.le_refl n, ?_, ?_⟩
      · rw [exhausted]
        exact reached
      · rw [exhausted, Nat.sub_self]
        exact left
  · intro free cost unlimited finished executed n fuel enough
    obtain ⟨found, costs⟩ := invoke_metered free f type given m unlimited
    obtain rfl : found = cost := by
      have := costs.executed
      omega
    have budgeted := ends (withBudget (some n) m) n fuel rfl enough
    refine ⟨?_, ?_⟩
    · intro covered
      have outcome := costs.enough n covered
      rw [← outcome]
      exact invoke_unique budgeted (by rw [outcome, finished_mapState]; exact finished)
    · intro short
      obtain ⟨after, exhausted, left, _⟩ := costs.short n short
      refine ⟨after, ?_, left⟩
      rw [← exhausted]
      exact invoke_unique budgeted (by rw [exhausted]; trivial)

/-- The second call stands in a block. -/
def callsTwice : Function :=
  .defined ⟨[], []⟩ [] (.ofCode (.op (.call 1) (.block .empty (.op (.call 1) .nil) .nil)))

/-- A loop whose body of four instructions runs twice: it goes back once, while its local is zero. -/
def goesBackOnce : Function :=
  .defined ⟨[], []⟩ [⟨1, .i32⟩]
    (.ofCode (.loop .empty (.op (.localGet 0) (.op .eqz (.op (.localTee 0) (.op (.brIf 0) .nil)))) .nil))

def twoCalls : Machine :=
  { heap := { functions := #[some callsTwice, some goesBackOnce] }
    store := { functions := #[0, 1] } }

/-- Two calls of nine nodes each, the nodes that call and the block cost 21 nodes. A budget of 20 ends before the last
node of the second call. -/
theorem twoCalls_budget :
    (final (callsTwice.invoke 22 ⟨[], []⟩ [] twoCalls)).usage.executed = 21 ∧
      callsTwice.invoke 31 ⟨[], []⟩ [] (withBudget (some 30) twoCalls) =
        mapState (withBudget (some 9)) (callsTwice.invoke 22 ⟨[], []⟩ [] twoCalls) ∧
      (∃ after, callsTwice.invoke 21 ⟨[], []⟩ [] (withBudget (some 20) twoCalls) =
        .error (.trap .budgetExhausted) after ∧ after.store.steps = some 0) ∧
      ∃ outcome executed, Finished outcome ∧
        (∀ fuel, 20 < fuel → callsTwice.invoke fuel ⟨[], []⟩ [] (withBudget (some 20) twoCalls) = outcome) ∧
        executed ≤ 20 ∧ (final outcome).usage.executed = executed ∧
        (final outcome).store.steps = some (20 - executed) := by
  obtain ⟨_, threshold⟩ := budget_is_exact twoCalls callsTwice ⟨[], []⟩ []
  obtain ⟨limited, _⟩ := budget_is_exact (withBudget (some 20) twoCalls) callsTwice ⟨[], []⟩ []
  obtain ⟨outcome, executed, finished, same, bound, counted, left⟩ := limited 20 rfl
  have whole := threshold 22 21 rfl (by decide +kernel) (by decide +kernel)
  refine ⟨by decide +kernel, ?_, ?_, outcome, executed, finished, same, bound, ?_, left⟩
  · exact (whole 30 31 (by decide)).1 (by decide)
  · exact (whole 20 21 (by decide)).2 (by decide)
  · exact counted.trans (Nat.zero_add executed)

end WasmMachine.Proofs.BudgetThreshold

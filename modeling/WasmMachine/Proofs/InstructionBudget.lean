import WasmMachine.Proofs.InstructionEffects

/-! A budget ends every run. Each node is paid for before it runs, and a called body is paid for from the
same budget, so fuel beyond the budget is never used up. -/

namespace WasmMachine.Proofs.InstructionBudget
open Sequencing CallParts ExecutionFuel InstructionEffects Relation

variable {α : Type}

/-- Fewer than `bound` instructions may still be executed. -/
def Limited (bound : Nat) (m : Machine) : Prop := ∃ left, m.store.steps = some left ∧ left < bound

/-- Under the limit the computation finishes, and the limit still holds afterwards. -/
def Ends (bound : Nat) (r : Run α) : Prop := ∀ m, Limited bound m → Finished (r m) ∧ Limited bound (final (r m))

/-- Only executing a node is charged. -/
theorem effect_steps {before after : Machine} (effect : Effect before after) :
    after.store.steps = before.store.steps := by
  cases effect with
  | quiet effect => cases effect <;> rfl
  | setLocal | setGlobal | setMemory => rfl

theorem chain_steps {before after : Machine} (chain : ReflTransGen Effect before after) :
    after.store.steps = before.store.steps := by
  induction chain with
  | refl => rfl
  | tail _ last ih => exact (effect_steps last).trans ih

private theorem Ends.plain {bound : Nat} {r : Run α} (plain : Plain r) : Ends bound r := by
  rintro m ⟨left, steps, less⟩
  exact ⟨(plain m).1, left, (chain_steps (plain m).2).trans steps, less⟩

theorem ends_law (bound : Nat) : Law (fun r => Ends bound r) where
  plain := Ends.plain
  quiet quiet := Ends.plain quiet.plain
  bind := by
    intro α β r next first rest m limited
    obtain ⟨finished, after⟩ := first m limited
    cases outcome : r m with
    | ok a between =>
      rw [outcome] at after
      rw [bind_of_ok outcome]
      exact rest a between after
    | error halt between =>
      rw [outcome] at finished after
      rw [bind_of_error outcome]
      exact ⟨by cases halt <;> exact finished, after⟩

theorem Ends.inFrame {bound : Nat} {r : Run α} (frame : Frame) (body : Ends bound r) :
    Ends bound (Run.inFrame frame r) := by
  intro m limited
  cases pushed : Run.pushFrame frame m with
  | error halt after =>
    obtain ⟨rfl, rfl⟩ := pushFrame_eq_error pushed
    rw [inFrame_of_full pushed]
    exact ⟨trivial, limited⟩
  | ok _ entered =>
    have inside : Limited bound entered := by
      obtain ⟨_, rfl⟩ := pushFrame_eq_ok pushed
      exact limited
    obtain ⟨finished, after⟩ := body entered inside
    rw [inFrame_of_entered pushed, finished_leave, final_leave]
    exact ⟨finished, after⟩

theorem Limited.mono {bound larger : Nat} (le : bound ≤ larger) {m : Machine} (limited : Limited bound m) :
    Limited larger m := by
  obtain ⟨left, steps, less⟩ := limited
  exact ⟨left, steps, by omega⟩

/-- A run finishes when its fuel exceeds its budget: every node takes one unit of each. -/
theorem runFrom_ends (fuel : Nat) (a : Arena) (id : Option NodeId) : Ends fuel (Arena.runFrom fuel a id) := by
  induction fuel generalizing a id with
  | zero =>
    rintro m ⟨left, _, impossible⟩
    exact False.elim (Nat.not_lt_zero _ impossible)
  | succ fuel ih =>
    cases id with
    | none => exact (ends_law _).quiet (Quiet.pure ())
    | some id =>
      rintro m ⟨left, steps, less⟩
      cases left with
      | zero =>
        have exhausted : Run.consumeStep m = .error (.trap .budgetExhausted) m := by
          simp only [Run.consumeStep, steps]
        simp only [Arena.runFrom, bind_of_error exhausted]
        exact ⟨trivial, 0, steps, less⟩
      | succ left =>
        have paid : Run.consumeStep m = .ok () { m with store := { m.store with steps := some left } } := by
          simp only [Run.consumeStep, steps]
        have limited : Limited fuel { m with store := { m.store with steps := some left } } := ⟨left, rfl, by omega⟩
        simp only [Arena.runFrom, bind_of_ok paid]
        cases a.nodes[id]? with
        | none => exact ⟨trivial, limited.mono (Nat.le_succ _)⟩
        | some node =>
          have calls := (ends_law fuel).parts.invoke (fun frame p => Ends.inFrame frame (ih p.arena p.arena.entry))
          have step := (ends_law fuel).instructions.step (ends_law fuel).count calls a id node
          have body := (ends_law fuel).bind step (fun next => ih a next)
          obtain ⟨finished, after⟩ := body _ limited
          exact ⟨finished, after.mono (Nat.le_succ _)⟩

theorem invoke_ends (fuel : Nat) (f : Function) (type : FunctionType) (given : List Value) :
    Ends fuel (f.invoke fuel type given) :=
  (ends_law fuel).parts.invoke (fun frame p => Ends.inFrame frame (runFrom_ends fuel p.arena p.arena.entry)) f type given

end WasmMachine.Proofs.InstructionBudget

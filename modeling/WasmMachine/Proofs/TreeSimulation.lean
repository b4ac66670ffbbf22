import WasmMachine.Proofs.ArenaLayout
import WasmMachine.Proofs.ExecutionFuel
import WasmMachine.Proofs.InstructionBudget

/-! Compiled code and the tree that it was compiled from run alike. Both simulations carry what comes
after a sequence as a continuation: the tree hands its exit to the continuation, and the arena goes on
at the node that the exit leads to. -/

namespace WasmMachine.Proofs.TreeSimulation
open ExecutionFuel InstructionEffects ArenaLayout

/-- The node that runs after a sequence with the given owner has ended. -/
def target (a : Arena) (parent after : Option NodeId) : Exit → Except Trap (Option NodeId)
  | .normal => .ok after
  | .branch levels label =>
    match a.enclosing parent levels with
    | none => .error (.unresolvedBranch label)
    | some node =>
      match node.op with
      | .loop first => .ok first
      | _ => .ok node.next
  | .leave => .ok none

/-- Goes on in the arena behind a sequence that has ended. -/
def resume (fuel : Nat) (a : Arena) (parent after : Option NodeId) (exit : Exit) : Run Unit := do
  Arena.runFrom fuel a (← Run.lift (target a parent after exit))

section Nodes

variable {a : Arena} {id : NodeId} {parent next : Option NodeId}

/-- A node that is there is charged, counted and run. -/
theorem runFrom_found {node : Node} (found : a.nodes[id]? = some node) (fuel : Nat) :
    Arena.runFrom (fuel + 1) a (some id) = (do
      Code.charge node.op.mnemonic
      let next ← a.act (Call.invoke (Program.execute fuel)) id node
      Arena.runFrom fuel a next) := by
  simp only [Arena.runFrom, found, Arena.step, Code.charge, bind_assoc]
  rfl

theorem runFrom_op {o : Op} (found : a.nodes[id]? = some ⟨.op o, parent, next⟩) (fuel : Nat) :
    Arena.runFrom (fuel + 1) a (some id) = (do
      Code.charge o.mnemonic
      let jump ← o.run (Call.invoke (Program.execute fuel))
      Arena.runFrom fuel a (← Run.lift (a.follow id next jump))) := by
  simp only [runFrom_found found, Arena.act, bind_assoc]
  rfl

theorem runFrom_block {body : Code} {start : NodeId}
    (found : a.nodes[id]? = some ⟨.block (Arena.first body start), parent, next⟩) (fuel : Nat) :
    Arena.runFrom (fuel + 1) a (some id) = (do
      Code.charge "block"
      Arena.runFrom fuel a (entry body start next)) := by
  simp only [runFrom_found found, Arena.act, pure_bind, first_or]
  rfl

theorem runFrom_loop {body : Code} {start : NodeId}
    (found : a.nodes[id]? = some ⟨.loop (Arena.first body start), parent, next⟩) (fuel : Nat) :
    Arena.runFrom (fuel + 1) a (some id) = (do
      Code.charge "loop"
      Arena.runFrom fuel a (entry body start next)) := by
  simp only [runFrom_found found, Arena.act, pure_bind, first_or]
  rfl

theorem runFrom_cond {thenFirst elseFirst : Option NodeId}
    (found : a.nodes[id]? = some ⟨.cond thenFirst elseFirst, parent, next⟩) (fuel : Nat) :
    Arena.runFrom (fuel + 1) a (some id) = (do
      Code.charge "if"
      if ← Run.onStack OperandStack.popCondition then Arena.runFrom fuel a (thenFirst <|> next)
      else Arena.runFrom fuel a (elseFirst <|> next)) := by
  simp only [runFrom_found found, Arena.act, bind_assoc]
  congr 1
  funext _
  congr 1
  funext condition
  cases condition <;> rfl

/-- A branch that is taken at a node is an exit of the sequence in which the node stands. -/
theorem follow_branch {op : NodeOp} (found : a.nodes[id]? = some ⟨op, parent, next⟩) (after : Option NodeId)
    (label : UInt32) :
    a.follow id next (.branch label) = target a parent after (.branch label.toNat label) := by
  simp only [Arena.follow, Arena.branchTarget, found, Option.bind_some]
  rfl

theorem target_outward {op : NodeOp} (found : a.nodes[id]? = some ⟨op, parent, next⟩) (inner after : Option NodeId)
    (levels : Nat) (label : UInt32) :
    target a (some id) inner (.branch (levels + 1) label) = target a parent after (.branch levels label) := by
  simp only [target, Arena.enclosing, found, Option.bind_some]

end Nodes

theorem target_caught {a : Arena} {id : NodeId} {op : NodeOp} {parent next : Option NodeId}
    (found : a.nodes[id]? = some ⟨op, parent, next⟩) (plain : ∀ first, op ≠ .loop first) (inner : Option NodeId)
    (label : UInt32) : target a (some id) inner (.branch 0 label) = .ok next := by
  simp only [target, Arena.enclosing, found]

theorem target_again {a : Arena} {id start : NodeId} {body : Code} {parent next : Option NodeId}
    (found : a.nodes[id]? = some ⟨.loop (Arena.first body start), parent, next⟩) (some : body ≠ .nil)
    (inner : Option NodeId) (label : UInt32) :
    target a (.some id) inner (.branch 0 label) = .ok (entry body start next) := by
  simp only [target, Arena.enclosing, found, first_of_ne_nil some, entry_of_ne_nil some]

private theorem resume_finish (fuel : Nat) (a : Arena) (exit : Exit) :
    resume fuel a none none exit = Code.finish exit := by
  have ended : Arena.runFrom fuel a none = pure () := by cases fuel <;> rfl
  cases exit with
  | normal => exact ended
  | leave => exact ended
  | branch levels label => cases levels <;> rfl

/-- From the start of every sequence, the tree gives the finished outcomes of the arena. The arena goes on
behind the sequence with the fuel that it has left, which is less than before unless there was nothing
to run. -/
def Follows (fuel limit : Nat) : Prop :=
  ∀ (a : Arena) (parent after : Option NodeId) (id below : NodeId) (code : Code) (continuation : Exit → Run Unit),
    Placed a parent after id below code →
    (∀ left, left < fuel ∨ left = fuel ∧ code = .nil → ∀ exit,
      Reaches (resume left a parent after exit) (fun _ => continuation exit)) →
    Reaches (Arena.runFrom fuel a (entry code id after)) (fun _ => Code.runTree limit code >>= continuation)

theorem Follows.program {fuel limit : Nat} (follows : Follows fuel limit) (p : Program) :
    Reaches (p.execute fuel) (fun _ => p.executeTree limit) := by
  unfold Program.execute
  rw [entry_program]
  apply follows _ _ _ _ _ _ _ (placed_program p)
  intro left _ exit
  rw [resume_finish]
  exact Reaches.refl _

section Cases

variable {fuel limit : Nat} {a : Arena} {parent after : Option NodeId} {id below : NodeId}
  {continuation : Exit → Run Unit} (sequences : ∀ left, left ≤ fuel → Follows left limit)
  (outward : ∀ left, left ≤ fuel → ∀ exit, Reaches (resume left a parent after exit) (fun _ => continuation exit))
include sequences outward

private theorem follows_rest {rest : Code} (placed : Placed a parent after (id + 1) below rest) (left : Nat)
    (bound : left ≤ fuel) :
    Reaches (Arena.runFrom left a (entry rest (id + 1) after)) (fun _ => Code.runTree limit rest >>= continuation) :=
  sequences left bound _ _ _ _ _ _ _ placed (fun smaller less => outward smaller (by omega))

private theorem follows_op {o : Op} {rest : Code} (placed : Placed a parent after id below (.op o rest)) :
    Reaches (Arena.runFrom (fuel + 1) a (some id))
      (fun _ => Code.runTree (limit + 1) (.op o rest) >>= continuation) := by
  obtain ⟨found, placedRest⟩ := placed
  simp only [runFrom_op found, Code.runTree, bind_assoc]
  apply Reaches.bind (Reaches.refl _)
  intro _
  apply Reaches.bind (Reaches.op (Reaches.invoke (sequences fuel (Nat.le_refl _)).program) o)
  intro jump
  cases jump with
  | next => exact follows_rest sequences outward placedRest fuel (Nat.le_refl _)
  | branch label =>
    rw [follow_branch found after]
    exact outward fuel (Nat.le_refl _) (.branch label.toNat label)
  | leave => exact outward fuel (Nat.le_refl _) .leave

/-- Behind a body that is not run again, the arena goes on as the tree does. The exit is either caught, and
then the rest of the sequence runs, or it goes on outward; a branch to a loop is not caught. -/
private theorem follows_afterBody {op : NodeOp} {rest : Code}
    (found : a.nodes[id]? = some ⟨op, parent, entry rest (id + 1) after⟩)
    (placedRest : Placed a parent after (id + 1) below rest) (left : Nat) (bound : left ≤ fuel) (exit : Exit)
    (plain : (∃ label, exit = .branch 0 label) → ∀ first, op ≠ .loop first) :
    Reaches (resume left a (some id) (entry rest (id + 1) after) exit)
      (fun _ => Code.afterBody (Code.runTree limit rest) exit >>= continuation) := by
  cases exit with
  | normal => exact follows_rest sequences outward placedRest left bound
  | leave => exact outward left bound .leave
  | branch levels label =>
    cases levels with
    | zero =>
      unfold resume
      rw [target_caught found (plain ⟨label, rfl⟩)]
      exact follows_rest sequences outward placedRest left bound
    | succ levels =>
      unfold resume
      rw [target_outward found _ after]
      exact outward left bound (.branch levels label)

private theorem follows_body {op : NodeOp} {start : NodeId} {body rest : Code} {restBelow : NodeId}
    (found : a.nodes[id]? = some ⟨op, parent, entry rest (id + 1) after⟩) (plain : ∀ first, op ≠ .loop first)
    (placed : Placed a (some id) (entry rest (id + 1) after) start below body)
    (placedRest : Placed a parent after (id + 1) restBelow rest) :
    Reaches (Arena.runFrom fuel a (entry body start (entry rest (id + 1) after)))
      (fun _ => Code.runTree limit body >>= fun exit => Code.afterBody (Code.runTree limit rest) exit >>= continuation) := by
  apply sequences fuel (Nat.le_refl _) _ _ _ _ _ _ _ placed
  intro left bound exit
  exact follows_afterBody sequences outward found placedRest left (by omega) exit (fun _ => plain)

/-- A loop runs its body again each time the body branches to it. Every round costs the arena fuel, so the
induction on the rounds has enough of them. -/
private theorem follows_iterate {start : NodeId} {body rest : Code} {restBelow : NodeId}
    (found : a.nodes[id]? = some ⟨.loop (Arena.first body start), parent, entry rest (id + 1) after⟩)
    (placed : Placed a (some id) (entry rest (id + 1) after) start below body)
    (placedRest : Placed a parent after (id + 1) restBelow rest) (rounds left : Nat)
    (enough : left < rounds) (bound : left ≤ fuel) :
    Reaches (Arena.runFrom left a (entry body start (entry rest (id + 1) after)))
      (fun _ => Code.iterate (Code.runTree limit body) rounds >>= fun exit =>
        Code.afterBody (Code.runTree limit rest) exit >>= continuation) := by
  induction rounds generalizing left with
  | zero => omega
  | succ rounds ih =>
    simp only [Code.iterate, bind_assoc]
    by_cases empty : body = .nil
    · subst body
      simp only [Code.runTree, pure_bind]
      exact follows_rest sequences outward placedRest left bound
    · apply sequences left bound _ _ _ _ _ _ _ placed
      intro smaller paid exit
      have less : smaller < left := paid.resolve_right (fun unpaid => empty unpaid.2)
      have behind := follows_afterBody sequences outward found placedRest smaller (by omega)
      cases exit with
      | normal => exact behind .normal (by simp)
      | leave => exact behind .leave (by simp)
      | branch levels label =>
        cases levels with
        | zero =>
          unfold resume
          rw [target_again found empty]
          exact ih smaller (by omega) (by omega)
        | succ levels => exact behind (.branch (levels + 1) label) (by simp)

private theorem follows_nonempty (enough : fuel < limit) {code : Code} (placed : Placed a parent after id below code)
    (some : code ≠ .nil) :
    Reaches (Arena.runFrom (fuel + 1) a (.some id)) (fun _ => Code.runTree (limit + 1) code >>= continuation) := by
  cases code with
  | nil => exact False.elim (some rfl)
  | op o rest => exact follows_op sequences outward placed
  | block t body rest =>
    obtain ⟨found, placedBody, placedRest⟩ := placed
    simp only [runFrom_block found, Code.runTree, bind_assoc]
    apply Reaches.bind (Reaches.refl _)
    intro _
    exact follows_body sequences outward found (by simp) placedBody placedRest
  | loop t body rest =>
    obtain ⟨found, placedBody, placedRest⟩ := placed
    simp only [runFrom_loop found, Code.runTree, bind_assoc]
    apply Reaches.bind (Reaches.refl _)
    intro _
    exact follows_iterate sequences outward found placedBody placedRest limit fuel enough (Nat.le_refl _)
  | ifThen t body rest =>
    obtain ⟨found, placedBody, placedRest⟩ := placed
    simp only [runFrom_cond found, Code.runTree, bind_assoc]
    apply Reaches.bind (Reaches.refl _)
    intro _
    apply Reaches.bind (Reaches.refl _)
    intro condition
    cases condition with
    | false => exact follows_rest sequences outward placedRest fuel (Nat.le_refl _)
    | true =>
      simp only [if_true, first_or, bind_assoc]
      exact follows_body sequences outward found (by simp) placedBody placedRest
  | ifElse t body orElse rest =>
    obtain ⟨found, placedBody, placedElse, placedRest⟩ := placed
    simp only [runFrom_cond found, Code.runTree, bind_assoc]
    apply Reaches.bind (Reaches.refl _)
    intro _
    apply Reaches.bind (Reaches.refl _)
    intro condition
    cases condition with
    | false =>
      simp only [Bool.false_eq_true, if_false, first_or, bind_assoc]
      exact follows_body sequences outward found (by simp) placedElse placedRest
    | true =>
      simp only [if_true, first_or, bind_assoc]
      exact follows_body sequences outward found (by simp) placedBody placedRest

end Cases

/-- The tree gives every finished outcome of the arena. It is given more fuel than the arena, and has at
least as much left wherever it comes: the arena pays for every node on its way, the tree only for its
depth. -/
theorem follows (fuel limit : Nat) (enough : fuel < limit) : Follows fuel limit := by
  induction fuel using Nat.strongRecOn generalizing limit with
  | ind fuel ih =>
    intro a parent after id below code continuation placed resumes
    by_cases empty : code = .nil
    · subst code
      simp only [Code.runTree, pure_bind]
      exact resumes fuel (Or.inr ⟨rfl, rfl⟩) .normal
    · rw [entry_of_ne_nil empty]
      cases fuel with
      | zero => exact Reaches.outOfFuel _
      | succ fuel =>
        obtain ⟨limit, rfl⟩ : ∃ smaller, limit = smaller + 1 := ⟨limit - 1, by omega⟩
        exact follows_nonempty (fun left bound => ih left (by omega) limit (by omega))
          (fun left bound => resumes left (Or.inl (by omega))) (by omega) placed empty

/-- From the start of every sequence, the arena comes to the finished outcomes of the tree. -/
def Reached (limit : Nat) : Prop :=
  ∀ (a : Arena) (parent after : Option NodeId) (id below : NodeId) (code : Code) (continuation : Exit → Run Unit),
    Placed a parent after id below code →
    (∀ exit, Reaches (continuation exit) (fun fuel => resume fuel a parent after exit)) →
    Reaches (Code.runTree limit code >>= continuation) (fun fuel => Arena.runFrom fuel a (entry code id after))

theorem Reached.program {limit : Nat} (reached : Reached limit) (p : Program) :
    Reaches (p.executeTree limit) (fun fuel => p.execute fuel) := by
  unfold Program.execute
  rw [entry_program]
  apply reached _ _ _ _ _ _ _ (placed_program p)
  intro exit
  simp only [resume_finish]
  exact Reaches.refl _

section Cases

variable {limit : Nat} {a : Arena} {parent after : Option NodeId} {id below : NodeId} {continuation : Exit → Run Unit}
  (sequences : Reached limit)
  (outward : ∀ exit, Reaches (continuation exit) (fun fuel => resume fuel a parent after exit))
include sequences outward

private theorem reached_op {o : Op} {rest : Code} (placed : Placed a parent after id below (.op o rest)) :
    Reaches (Code.runTree (limit + 1) (.op o rest) >>= continuation)
      (fun fuel => Arena.runFrom (fuel + 1) a (some id)) := by
  obtain ⟨found, placedRest⟩ := placed
  simp only [runFrom_op found, Code.runTree, bind_assoc]
  apply Reaches.bind (Reaches.refl _)
  intro _
  apply Reaches.bind (Reaches.op (Reaches.invoke sequences.program) o)
  intro jump
  cases jump with
  | next => exact sequences _ _ _ _ _ _ _ placedRest outward
  | branch label =>
    rw [follow_branch found after]
    exact outward (.branch label.toNat label)
  | leave => exact outward .leave

/-- The exit of a body that is not run again. A branch to the instruction itself is only allowed where it
is caught. -/
private theorem reached_afterBody {op : NodeOp} {rest : Code} {restBelow : NodeId}
    (found : a.nodes[id]? = some ⟨op, parent, entry rest (id + 1) after⟩)
    (placedRest : Placed a parent after (id + 1) restBelow rest) (exit : Exit)
    (plain : (∃ label, exit = .branch 0 label) → ∀ first, op ≠ .loop first) :
    Reaches (Code.afterBody (Code.runTree limit rest) exit >>= continuation)
      (fun fuel => resume fuel a (some id) (entry rest (id + 1) after) exit) := by
  cases exit with
  | normal => exact sequences _ _ _ _ _ _ _ placedRest outward
  | leave => exact outward .leave
  | branch levels label =>
    cases levels with
    | zero =>
      unfold resume
      rw [target_caught found (plain ⟨label, rfl⟩)]
      exact sequences _ _ _ _ _ _ _ placedRest outward
    | succ levels =>
      unfold resume
      rw [target_outward found _ after]
      exact outward (.branch levels label)

private theorem reached_body {op : NodeOp} {start : NodeId} {body rest : Code} {restBelow : NodeId}
    (found : a.nodes[id]? = some ⟨op, parent, entry rest (id + 1) after⟩) (plain : ∀ first, op ≠ .loop first)
    (placed : Placed a (some id) (entry rest (id + 1) after) start below body)
    (placedRest : Placed a parent after (id + 1) restBelow rest) :
    Reaches (Code.runTree limit body >>= fun exit => Code.afterBody (Code.runTree limit rest) exit >>= continuation)
      (fun fuel => Arena.runFrom fuel a (entry body start (entry rest (id + 1) after))) :=
  sequences _ _ _ _ _ _ _ placed
    (fun exit => reached_afterBody sequences outward found placedRest exit (fun _ => plain))

private theorem reached_iterate {start : NodeId} {body rest : Code} {restBelow : NodeId}
    (found : a.nodes[id]? = some ⟨.loop (Arena.first body start), parent, entry rest (id + 1) after⟩)
    (placed : Placed a (some id) (entry rest (id + 1) after) start below body)
    (placedRest : Placed a parent after (id + 1) restBelow rest) (rounds : Nat) :
    Reaches (Code.iterate (Code.runTree limit body) rounds >>= fun exit =>
        Code.afterBody (Code.runTree limit rest) exit >>= continuation)
      (fun fuel => Arena.runFrom fuel a (entry body start (entry rest (id + 1) after))) := by
  induction rounds with
  | zero => exact Reaches.outOfFuel _
  | succ rounds ih =>
    simp only [Code.iterate, bind_assoc]
    by_cases empty : body = .nil
    · subst body
      simp only [Code.runTree, pure_bind]
      exact sequences _ _ _ _ _ _ _ placedRest outward
    · apply sequences _ _ _ _ _ _ _ placed
      intro exit
      have behind := reached_afterBody sequences outward found placedRest
      cases exit with
      | normal => exact behind .normal (by simp)
      | leave => exact behind .leave (by simp)
      | branch levels label =>
        cases levels with
        | zero =>
          unfold resume
          rw [target_again found empty]
          exact ih
        | succ levels => exact behind (.branch (levels + 1) label) (by simp)

private theorem reached_nonempty {code : Code} (placed : Placed a parent after id below code) (some : code ≠ .nil) :
    Reaches (Code.runTree (limit + 1) code >>= continuation) (fun fuel => Arena.runFrom (fuel + 1) a (.some id)) := by
  cases code with
  | nil => exact False.elim (some rfl)
  | op o rest => exact reached_op sequences outward placed
  | block t body rest =>
    obtain ⟨found, placedBody, placedRest⟩ := placed
    simp only [runFrom_block found, Code.runTree, bind_assoc]
    apply Reaches.bind (Reaches.refl _)
    intro _
    exact reached_body sequences outward found (by simp) placedBody placedRest
  | loop t body rest =>
    obtain ⟨found, placedBody, placedRest⟩ := placed
    simp only [runFrom_loop found, Code.runTree, bind_assoc]
    apply Reaches.bind (Reaches.refl _)
    intro _
    exact reached_iterate sequences outward found placedBody placedRest limit
  | ifThen t body rest =>
    obtain ⟨found, placedBody, placedRest⟩ := placed
    simp only [runFrom_cond found, Code.runTree, bind_assoc]
    apply Reaches.bind (Reaches.refl _)
    intro _
    apply Reaches.bind (Reaches.refl _)
    intro condition
    cases condition with
    | false => exact sequences _ _ _ _ _ _ _ placedRest outward
    | true =>
      simp only [if_true, first_or, bind_assoc]
      exact reached_body sequences outward found (by simp) placedBody placedRest
  | ifElse t body orElse rest =>
    obtain ⟨found, placedBody, placedElse, placedRest⟩ := placed
    simp only [runFrom_cond found, Code.runTree, bind_assoc]
    apply Reaches.bind (Reaches.refl _)
    intro _
    apply Reaches.bind (Reaches.refl _)
    intro condition
    cases condition with
    | false =>
      simp only [Bool.false_eq_true, if_false, first_or, bind_assoc]
      exact reached_body sequences outward found (by simp) placedElse placedRest
    | true =>
      simp only [if_true, first_or, bind_assoc]
      exact reached_body sequences outward found (by simp) placedBody placedRest

end Cases

/-- The arena comes to every finished outcome of the tree. How much fuel that takes depends on the whole
run, so it is only said that there is enough. -/
theorem reached (limit : Nat) : Reached limit := by
  induction limit with
  | zero =>
    intro a parent after id below code continuation placed outward
    cases code with
    | nil => exact outward .normal
    | _ => exact Reaches.outOfFuel _
  | succ limit ih =>
    intro a parent after id below code continuation placed outward
    by_cases empty : code = .nil
    · subst code
      exact outward .normal
    · rw [entry_of_ne_nil empty]
      exact Reaches.succ (reached_nonempty ih outward placed empty)

/-- Compiling keeps the meaning of code. The outcomes are compared whole: the result or the trap, and the
machine with its heap, its store, its reports and the number of instructions executed. A run of the arena
that finishes gives what the tree gives with any more fuel; a run of the tree that finishes gives what the
arena gives from some fuel on; and under a budget both finish, so they agree on any fuel beyond it. -/
theorem execute_agrees_with_tree (code : Code) (m : Machine) :
    (∀ fuel limit, fuel < limit → Finished ((Program.ofCode code).execute fuel m) →
      (Program.ofCode code).executeTree limit m = (Program.ofCode code).execute fuel m) ∧
    (∀ limit, Finished ((Program.ofCode code).executeTree limit m) →
      ∃ least, ∀ fuel, least ≤ fuel →
        (Program.ofCode code).execute fuel m = (Program.ofCode code).executeTree limit m) ∧
    (∀ budget fuel, m.store.steps = some budget → budget + 1 < fuel →
      Finished ((Program.ofCode code).execute fuel m) ∧
        (Program.ofCode code).execute fuel m = (Program.ofCode code).executeTree fuel m) := by
  have forward : ∀ fuel limit, fuel < limit → Finished ((Program.ofCode code).execute fuel m) →
      (Program.ofCode code).executeTree limit m = (Program.ofCode code).execute fuel m :=
    fun fuel limit enough finished => ((follows fuel limit enough).program _).same finished
  refine ⟨forward, fun limit finished => (reached limit).program _ m finished, ?_⟩
  intro budget fuel steps enough
  obtain ⟨fuel, rfl⟩ : ∃ smaller, fuel = smaller + 1 := ⟨fuel - 1, by omega⟩
  obtain ⟨finished, _⟩ := InstructionBudget.runFrom_ends fuel (Program.ofCode code).arena
    (Program.ofCode code).arena.entry m ⟨budget, steps, by omega⟩
  have more : (Program.ofCode code).execute (fuel + 1) m = (Program.ofCode code).execute fuel m :=
    (runFrom_succ fuel _ _).same finished
  rw [more]
  exact ⟨finished, (forward fuel (fuel + 1) (Nat.lt_succ_self _) finished).symm⟩

/-- A loop whose body runs twice: it branches to the loop while it finds a number other than zero. -/
def countingLoop : Code := .op (.const 0) (.op (.const 1) (.loop .empty (.op (.brIf 0) .nil) .nil))

theorem countingLoop_agrees :
    (final ((Program.ofCode countingLoop).execute 10 { store := { steps := some 9 } })).usage.executed = 5 ∧
      (Program.ofCode countingLoop).executeTree 11 { store := { steps := some 9 } } =
        (Program.ofCode countingLoop).execute 10 { store := { steps := some 9 } } ∧
      (∃ least, ∀ fuel, least ≤ fuel →
        (Program.ofCode countingLoop).execute fuel { store := { steps := some 9 } } =
          (Program.ofCode countingLoop).executeTree 11 { store := { steps := some 9 } }) ∧
      Finished ((Program.ofCode countingLoop).execute 11 { store := { steps := some 9 } }) ∧
      (Program.ofCode countingLoop).execute 11 { store := { steps := some 9 } } =
        (Program.ofCode countingLoop).executeTree 11 { store := { steps := some 9 } } := by
  obtain ⟨forward, backward, budgeted⟩ := execute_agrees_with_tree countingLoop { store := { steps := some 9 } }
  exact ⟨by decide +kernel, forward 10 11 (by decide) (by decide +kernel), backward 11 (by decide +kernel),
    budgeted 9 11 rfl (by decide)⟩

end WasmMachine.Proofs.TreeSimulation

import WasmMachine.Proofs.CallParts
import WasmMachine.Proofs.Sequencing

/-! Fuel only decides whether a run ends. A finished outcome is one that was not cut short for want of
fuel; the computations of the machine carry finished outcomes over from one way of running bodies to
another, because an instruction reaches nested bodies only through the caller that it is given. -/

namespace WasmMachine.Proofs.ExecutionFuel
open Sequencing CallParts

variable {α β : Type}

/-- The outcome is a result or a trap, and not the lack of fuel. -/
def Finished : EStateM.Result Halt Machine α → Prop
  | .error .outOfFuel _ => False
  | _ => True

instance (outcome : EStateM.Result Halt Machine α) : Decidable (Finished outcome) :=
  match outcome with
  | .ok _ _ => isTrue trivial
  | .error (.trap _) _ => isTrue trivial
  | .error .outOfFuel _ => isFalse id

theorem finished_leave {outcome : EStateM.Result Halt Machine α} : Finished (leave outcome) ↔ Finished outcome := by
  cases outcome with
  | ok a m => exact Iff.rfl
  | error halt m => cases halt <;> exact Iff.rfl

theorem finished_mapState {f : Machine → Machine} {outcome : EStateM.Result Halt Machine α} :
    Finished (mapState f outcome) ↔ Finished outcome := by
  cases outcome with
  | ok a m => exact Iff.rfl
  | error halt m => cases halt <;> exact Iff.rfl

/-- What the computation gives, if it finishes, is given by every member of the family from some fuel
on. The least fuel may depend on the state in which the computation starts. -/
def Reaches (r : Run α) (family : Nat → Run α) : Prop :=
  ∀ m, Finished (r m) → ∃ least, ∀ fuel, least ≤ fuel → family fuel m = r m

/-- A computation that is reached without any choice of fuel gives the finished outcomes itself. -/
theorem Reaches.same {r s : Run α} (reaches : Reaches r (fun _ => s)) {m : Machine} (finished : Finished (r m)) :
    s m = r m := by
  obtain ⟨least, same⟩ := reaches m finished
  exact same least (Nat.le_refl _)

theorem Reaches.refl (r : Run α) : Reaches r (fun _ => r) := fun _ _ => ⟨0, fun _ _ => rfl⟩

theorem Reaches.outOfFuel (family : Nat → Run α) : Reaches (throw .outOfFuel) family :=
  fun _ impossible => False.elim impossible

theorem Reaches.trans {r s t : Run α} (first : Reaches r (fun _ => s)) (second : Reaches s (fun _ => t)) :
    Reaches r (fun _ => t) := by
  intro m finished
  have same := first.same finished
  rw [← same] at finished ⊢
  exact ⟨0, fun _ _ => second.same finished⟩

theorem Reaches.succ {r : Run α} {family : Nat → Run α}
    (reaches : Reaches r (fun fuel => family (fuel + 1))) : Reaches r family := by
  intro m finished
  obtain ⟨least, same⟩ := reaches m finished
  refine ⟨least + 1, fun fuel enough => ?_⟩
  obtain ⟨fuel, rfl⟩ : ∃ smaller, fuel = smaller + 1 := ⟨fuel - 1, by omega⟩
  exact same fuel (by omega)

theorem Reaches.bind {r : Run α} {family : Nat → Run α} {next : α → Run β} {nextFamily : Nat → α → Run β}
    (first : Reaches r family) (rest : ∀ a, Reaches (next a) (fun fuel => nextFamily fuel a)) :
    Reaches (r >>= next) (fun fuel => family fuel >>= nextFamily fuel) := by
  intro m finished
  cases outcome : r m with
  | ok a after =>
    rw [bind_of_ok outcome] at finished ⊢
    obtain ⟨leastFirst, sameFirst⟩ := first m (by rw [outcome]; trivial)
    obtain ⟨leastRest, sameRest⟩ := rest a after finished
    refine ⟨max leastFirst leastRest, fun fuel enough => ?_⟩
    exact (bind_of_ok ((sameFirst fuel (by omega)).trans outcome)).trans (sameRest fuel (by omega))
  | error halt after =>
    rw [bind_of_error outcome] at finished ⊢
    obtain ⟨least, same⟩ := first m (by rw [outcome]; cases halt <;> exact finished)
    exact ⟨least, fun fuel enough => bind_of_error ((same fuel enough).trans outcome)⟩

theorem Reaches.inFrame {r : Run α} {family : Nat → Run α} (frame : Frame) (body : Reaches r family) :
    Reaches (Run.inFrame frame r) (fun fuel => Run.inFrame frame (family fuel)) := by
  intro m finished
  cases pushed : Run.pushFrame frame m with
  | error halt after =>
    exact ⟨0, fun fuel _ => (inFrame_of_full pushed (family fuel)).trans (inFrame_of_full pushed r).symm⟩
  | ok _ entered =>
    rw [inFrame_of_entered pushed, finished_leave] at finished
    obtain ⟨least, same⟩ := body entered finished
    refine ⟨least, fun fuel enough => ?_⟩
    calc Run.inFrame frame (family fuel) m
      _ = leave (family fuel entered) := inFrame_of_entered pushed (family fuel)
      _ = leave (r entered) := congrArg leave (same fuel enough)
      _ = Run.inFrame frame r m := (inFrame_of_entered pushed r).symm

/-- Calls reach bodies only through the given way to run them. -/
theorem Reaches.invoke {execute : Program → Run Unit} {family : Nat → Program → Run Unit}
    (bodies : ∀ p, Reaches (execute p) (fun fuel => family fuel p)) (f : Function) (type : FunctionType)
    (given : List Value) :
    Reaches (Call.invoke execute f type given) (fun fuel => Call.invoke (family fuel) f type given) := by
  cases f with
  | host own function =>
    simp only [invoke_host]
    exact Reaches.refl _
  | defined own locals body =>
    simp only [invoke_defined]
    apply Reaches.bind (Reaches.refl _)
    intro frame
    exact Reaches.bind (Reaches.inFrame frame (bodies body)) (fun _ => Reaches.refl _)

theorem Reaches.fromCode {caller : Caller} {family : Nat → Caller}
    (calls : ∀ f type given, Reaches (caller f type given) (fun fuel => family fuel f type given))
    (f : Function) (type : FunctionType) :
    Reaches (Call.fromCode caller f type) (fun fuel => Call.fromCode (family fuel) f type) :=
  Reaches.bind (calls f type []) (fun _ => Reaches.refl _)

/-- Only the two call instructions depend on the caller. -/
theorem Reaches.op {caller : Caller} {family : Nat → Caller}
    (calls : ∀ f type given, Reaches (caller f type given) (fun fuel => family fuel f type given)) (o : Op) :
    Reaches (o.run caller) (fun fuel => o.run (family fuel)) := by
  cases o with
  | call index =>
    apply Reaches.bind (Reaches.refl _)
    intro f
    exact Reaches.bind (Reaches.fromCode calls f f.type) (fun _ => Reaches.refl _)
  | callIndirect type table =>
    apply Reaches.bind _ (fun _ => Reaches.refl _)
    apply Reaches.bind (Reaches.refl _)
    intro type
    apply Reaches.bind (Reaches.refl _)
    intro table
    apply Reaches.bind (Reaches.refl _)
    intro index
    apply Reaches.bind (Reaches.refl _)
    intro f
    exact Reaches.fromCode calls f type
  | _ => exact Reaches.refl _

/-- One more unit of fuel keeps every finished run as it is. -/
theorem runFrom_succ (fuel : Nat) (a : Arena) (id : Option NodeId) :
    Reaches (Arena.runFrom fuel a id) (fun _ => Arena.runFrom (fuel + 1) a id) := by
  induction fuel generalizing a id with
  | zero =>
    cases id with
    | none => exact Reaches.refl _
    | some id => exact Reaches.outOfFuel _
  | succ fuel ih =>
    cases id with
    | none => exact Reaches.refl _
    | some id =>
      simp only [Arena.runFrom]
      apply Reaches.bind (Reaches.refl _)
      intro _
      cases a.nodes[id]? with
      | none => exact Reaches.refl _
      | some node =>
        apply Reaches.bind _ (fun next => ih a next)
        apply Reaches.bind (Reaches.refl _)
        intro _
        unfold Arena.act
        cases node.op with
        | op o =>
          apply Reaches.bind _ (fun _ => Reaches.refl _)
          exact Reaches.op (Reaches.invoke (fun p => ih p.arena p.arena.entry)) o
        | block first => exact Reaches.refl _
        | loop first => exact Reaches.refl _
        | cond thenFirst elseFirst => exact Reaches.refl _

theorem runFrom_mono {fuel larger : Nat} (le : fuel ≤ larger) (a : Arena) (id : Option NodeId) :
    Reaches (Arena.runFrom fuel a id) (fun _ => Arena.runFrom larger a id) := by
  induction le with
  | refl => exact Reaches.refl _
  | step _ ih => exact ih.trans (runFrom_succ _ a id)

theorem invoke_mono {fuel larger : Nat} (le : fuel ≤ larger) (f : Function) (type : FunctionType) (given : List Value) :
    Reaches (f.invoke fuel type given) (fun _ => f.invoke larger type given) :=
  Reaches.invoke (fun p => runFrom_mono le p.arena p.arena.entry) f type given

/-- How much fuel a call was given makes no difference once it finishes. -/
theorem invoke_unique {fuel other : Nat} {f : Function} {type : FunctionType} {given : List Value} {m : Machine}
    (finished : Finished (f.invoke fuel type given m)) (otherFinished : Finished (f.invoke other type given m)) :
    f.invoke fuel type given m = f.invoke other type given m :=
  ((invoke_mono (Nat.le_max_left fuel other) f type given).same finished).symm.trans
    ((invoke_mono (Nat.le_max_right fuel other) f type given).same otherFinished)

end WasmMachine.Proofs.ExecutionFuel

import WasmMachine.Machine.Run

/-! Computations one after the other. Runs, computations on the operand stack and readers are all of one
kind, and keep the state that they came to when they fail; so how two of them follow each other is said
once, for any state and any kind of failure. -/

namespace WasmMachine.Proofs.Sequencing

variable {ε σ α β : Type} {first : EStateM ε σ α} {next : α → EStateM ε σ β} {before after : σ}

theorem bind_of_ok {a : α} (outcome : first before = .ok a after) : (first >>= next) before = next a after := by
  change EStateM.bind first next before = _
  simp only [EStateM.bind, outcome]

theorem bind_of_error {e : ε} (outcome : first before = .error e after) :
    (first >>= next) before = .error e after := by
  change EStateM.bind first next before = _
  simp only [EStateM.bind, outcome]

/-- What follows two computations that end alike ends alike. -/
theorem bind_of_same {other : EStateM ε σ α} {elsewhere : σ} (same : first before = other elsewhere) :
    (first >>= next) before = (other >>= next) elsewhere := by
  change EStateM.bind first next before = EStateM.bind other next elsewhere
  simp only [EStateM.bind, same]

/-- Two computations in a row succeed only through a success of the first. -/
theorem bind_eq_ok {b : β} (outcome : (first >>= next) before = .ok b after) :
    ∃ a between, first before = .ok a between ∧ next a between = .ok b after := by
  cases head : first before with
  | ok a between => exact ⟨a, between, rfl, (bind_of_ok head).symm.trans outcome⟩
  | error e between => cases (bind_of_error head).symm.trans outcome

theorem pure_eq_ok {a b : α} (outcome : (pure a : EStateM ε σ α) before = .ok b after) : a = b ∧ before = after := by
  cases outcome
  exact ⟨rfl, rfl⟩

/-- The same outcome, in another state. -/
def mapState {τ : Type} (f : σ → τ) : EStateM.Result ε σ α → EStateM.Result ε τ α
  | .ok a s => .ok a (f s)
  | .error e s => .error e (f s)

theorem mapState_eq_ok {τ : Type} {f : σ → τ} {outcome : EStateM.Result ε σ α} {a : α} {t : τ}
    (mapped : mapState f outcome = .ok a t) : ∃ s, outcome = .ok a s ∧ f s = t := by
  cases outcome with
  | ok b s =>
    cases mapped
    exact ⟨s, rfl, rfl⟩
  | error e s => cases mapped

theorem mapState_eq_error {τ : Type} {f : σ → τ} {outcome : EStateM.Result ε σ α} {e : ε} {t : τ}
    (mapped : mapState f outcome = .error e t) : ∃ s, outcome = .error e s ∧ f s = t := by
  cases outcome with
  | ok b s => cases mapped
  | error e s =>
    cases mapped
    exact ⟨s, rfl, rfl⟩

/-- Along a view of its states, a computation does what the other one does to the views. -/
def Follows {τ : Type} (view : τ → σ) (r : EStateM ε σ α) (g : EStateM ε τ α) : Prop :=
  ∀ s, r (view s) = mapState view (g s)

theorem Follows.bind {τ : Type} {view : τ → σ} {g : EStateM ε τ α} {others : α → EStateM ε τ β}
    (head : Follows view first g) (tail : ∀ a, Follows view (next a) (others a)) :
    Follows view (first >>= next) (g >>= others) := by
  intro s
  have outcome := head s
  cases inner : g s with
  | ok a between =>
    rw [inner] at outcome
    rw [bind_of_ok outcome, bind_of_ok inner]
    exact tail a between
  | error e between =>
    rw [inner] at outcome
    rw [bind_of_error outcome, bind_of_error inner]
    rfl

theorem Follows.pure {τ : Type} {view : τ → σ} (a : α) :
    Follows view (Pure.pure a : EStateM ε σ α) (Pure.pure a : EStateM ε τ α) := fun _ => rfl

theorem Follows.throw {τ : Type} {view : τ → σ} (e : ε) :
    Follows view (MonadExcept.throw e : EStateM ε σ α) (MonadExcept.throw e : EStateM ε τ α) := fun _ => rfl

/-- The same result or the same failure, in states that are related. -/
inductive SameOutcome {τ : Type} (related : σ → τ → Prop) : EStateM.Result ε σ α → EStateM.Result ε τ α → Prop where
  | ok {a : α} {s : σ} {t : τ} (states : related s t) : SameOutcome related (.ok a s) (.ok a t)
  | error {e : ε} {s : σ} {t : τ} (states : related s t) : SameOutcome related (.error e s) (.error e t)

theorem SameOutcome.eq_ok {τ : Type} {related : σ → τ → Prop} {outcome : EStateM.Result ε σ α} {a : α} {t : τ}
    (same : SameOutcome related outcome (.ok a t)) : ∃ s, outcome = .ok a s ∧ related s t := by
  cases same with
  | ok states => exact ⟨_, rfl, states⟩

theorem SameOutcome.eq_error {τ : Type} {related : σ → τ → Prop} {outcome : EStateM.Result ε σ α} {e : ε} {t : τ}
    (same : SameOutcome related outcome (.error e t)) : ∃ s, outcome = .error e s ∧ related s t := by
  cases same with
  | error states => exact ⟨_, rfl, states⟩

theorem Follows.sameOutcome {τ : Type} {view : τ → σ} {r : EStateM ε σ α} {g : EStateM ε τ α} {related : σ → τ → Prop}
    (follows : Follows view r g) (shown : ∀ t, related (view t) t) (t : τ) : SameOutcome related (r (view t)) (g t) := by
  rw [follows t]
  cases g t with
  | ok a after => exact .ok (shown after)
  | error e after => exact .error (shown after)

/-- From this state on, the computation ends with such a result in such a state, or fails for such a reason. -/
def Settles (reason : ε → Prop) (post : α → σ → Prop) (r : EStateM ε σ α) (s : σ) : Prop :=
  match r s with
  | .ok a after => post a after
  | .error e _ => reason e

section Settles

variable {reason : ε → Prop} {middle : α → σ → Prop} {post : β → σ → Prop}

theorem Settles.ok (settles : Settles reason middle first before) {a : α} (outcome : first before = .ok a after) :
    middle a after := by
  rw [Settles, outcome] at settles
  exact settles

theorem Settles.error (settles : Settles reason middle first before) {e : ε} (outcome : first before = .error e after) :
    reason e := by
  rw [Settles, outcome] at settles
  exact settles

theorem Settles.bind (settles : Settles reason middle first before)
    (rest : ∀ a between, middle a between → Settles reason post (next a) between) :
    Settles reason post (first >>= next) before := by
  cases outcome : first before with
  | ok a between =>
    rw [Settles, bind_of_ok outcome]
    exact rest a between (settles.ok outcome)
  | error e between =>
    rw [Settles, bind_of_error outcome]
    exact settles.error outcome

theorem Settles.weaken {result : α → σ → Prop} (settles : Settles reason middle first before)
    (results : ∀ a between, middle a between → result a between) : Settles reason result first before := by
  cases outcome : first before with
  | ok a between =>
    rw [Settles, outcome]
    exact results a between (settles.ok outcome)
  | error e between =>
    rw [Settles, outcome]
    exact settles.error outcome

theorem Settles.explain {other : ε → Prop} (settles : Settles reason middle first before)
    (reasons : ∀ e, reason e → other e) : Settles other middle first before := by
  cases outcome : first before with
  | ok a between =>
    rw [Settles, outcome]
    exact settles.ok outcome
  | error e between =>
    rw [Settles, outcome]
    exact reasons e (settles.error outcome)

theorem Settles.of_eq {r : EStateM ε σ α} {other : σ} (same : r other = first before)
    (settles : Settles reason middle first before) : Settles reason middle r other := by
  rw [Settles, same]
  exact settles

/-- The result is known to come from the computation itself. -/
theorem Settles.known (settles : Settles reason middle first before) :
    Settles reason (fun a between => first before = .ok a between ∧ middle a between) first before := by
  cases outcome : first before with
  | ok a between =>
    rw [Settles, outcome]
    exact ⟨rfl, settles.ok outcome⟩
  | error e between =>
    rw [Settles, outcome]
    exact settles.error outcome

end Settles

end WasmMachine.Proofs.Sequencing

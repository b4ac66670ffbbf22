import WasmMachine.Instance.HostFunctions
import WasmMachine.Proofs.InstantiationPhases

/-! Types at run time. Code is not validated before it runs, and an indirect call may use a function under a type that
is not its own. Still, in whatever way instances are made and their exports called, globals hold values of their
declared types, the locals of a call have the types of its parameters and declared locals, and results have the type
of the call; so only the arguments of an export and the answers of host functions can be of a wrong type. -/

namespace WasmMachine.Proofs.TypeSoundness
open Sequencing InstructionEffects StateTypes TypeFaults RunPlaces Instantiation InstantiationPhases

/-- Of these phases, all before this one were performed, and came to this state. -/
inductive Reached (fuel : Nat) : List Phase → Machine → Phase → Machine → Prop where
  | here {p rest m} : Reached fuel (p :: rest) m p m
  | later {p rest m between q n} (done : p.run fuel m = .ok () between) (reached : Reached fuel rest between q n) :
      Reached fuel (p :: rest) m q n

/-- The states of an instantiation: before and after each phase, and those of the code that the phase runs. -/
inductive InstantiationShows (fuel : Nat) (offers : Imports) (module : Module) (m : Machine) :
    List (List ValueType) → Machine → Prop where
  | before {p ready} (reached : Reached fuel (phases offers module) m p ready) :
      InstantiationShows fuel offers module m [] ready
  | inside {p between x ready calls seen} (reached : Reached fuel (phases offers module) m p between)
      (begins : p.Begins between x ready) (shows : x.Shows fuel ready calls seen) :
      InstantiationShows fuel offers module m calls seen
  | after {p between} (reached : Reached fuel (phases offers module) m p between) :
      InstantiationShows fuel offers module m [] (final (p.run fuel between))

/-- In the course of the instantiation a host function is called whose answer is this trap. -/
def InstantiationHostFault (fuel : Nat) (offers : Imports) (module : Module) (m : Machine) (t : Trap) : Prop :=
  ∃ p between x ready, Reached fuel (phases offers module) m p between ∧ p.Begins between x ready ∧
    x.HostFault fuel ready t

/-- The export calls this function, after it is reported. -/
structure ExportCalls (exports : Exports) (name : String) (m : Machine) (f : Function) (ready : Machine) : Prop where
  found : ∃ id, exports.get? name = some id ∧ m.heap.function? id = some f
  reported : Run.note (.exportInvoked name f.type) m = .ok () ready

inductive InvocationShows (fuel : Nat) (exports : Exports) (name : String) (args : List Value) (m : Machine) :
    List (List ValueType) → Machine → Prop where
  | before : InvocationShows fuel exports name args m [] m
  | inside {f ready calls seen} (called : ExportCalls exports name m f ready)
      (shows : (Activity.call f f.type args).Shows fuel ready calls seen) :
      InvocationShows fuel exports name args m calls seen
  | after : InvocationShows fuel exports name args m [] (final (exports.invoke fuel name args m))

/-- An instantiation is well typed all along, and only a host function can put an end to it by a fault of types. -/
structure SoundInstantiation (fuel : Nat) (offers : Imports) (module : Module) (m : Machine) : Prop where
  states : ∀ calls seen, InstantiationShows fuel offers module m calls seen → WellTyped calls seen
  faults : ∀ t after, module.instantiate fuel offers m = .error (.trap t) after → TypeFault t →
    InstantiationHostFault fuel offers module m t

/-- A call of an export is well typed all along and gives what its type declares. A fault of types comes from its
arguments or from a host function. -/
structure SoundInvocation (fuel : Nat) (exports : Exports) (name : String) (args : List Value) (m : Machine) : Prop where
  states : ∀ calls seen, InvocationShows fuel exports name args m calls seen → WellTyped calls seen
  result : ∀ result after, exports.invoke fuel name args m = .ok result after →
    ∃ f ready, ExportCalls exports name m f ready ∧ result.map Value.type = f.type.result
  faults : ∀ t after, exports.invoke fuel name args m = .error (.trap t) after → TypeFault t →
    ∃ f ready, ExportCalls exports name m f ready ∧
      (GivenMismatch f.type args t ∨ (Activity.call f f.type args).HostFault fuel ready t)

section Instantiation

variable {fuel : Nat} {offers : Imports} {module : Module} {m : Machine}

theorem reached_undisturbed {list : List Phase} {p : Phase} {between : Machine}
    (reached : Reached fuel list m p between) : Undisturbed m between := by
  induction reached with
  | here => exact Undisturbed.refl _
  | @later p rest m between q n done reached ih =>
    have kept := phase_undisturbed fuel p m
    rw [done] at kept
    exact Undisturbed.trans _ _ _ kept ih

theorem perform_undisturbed (fuel : Nat) (list : List Phase) : Within Undisturbed (perform fuel list) := by
  induction list with
  | nil => exact Undisturbed.refl
  | cons p rest ih => exact Within.bind Undisturbed.trans (phase_undisturbed fuel p) (fun _ => ih)

theorem instantiate_undisturbed (fuel : Nat) (offers : Imports) (module : Module) :
    Within Undisturbed (module.instantiate fuel offers) := by
  intro m
  have kept := perform_undisturbed fuel (phases offers module) m
  rw [perform_phases] at kept
  cases outcome : module.instantiate fuel offers m with
  | ok exports after =>
    rw [bind_of_ok outcome] at kept
    exact kept
  | error halt after =>
    rw [bind_of_error outcome] at kept
    exact kept

theorem begins_wellTyped {p : Phase} {x : Activity} {ready : Machine} (typed : WellTyped [] m)
    (begins : p.Begins m x ready) : WellTyped [] ready := by
  cases begins with
  | @global decl ready added =>
    have kept := addGlobal_undisturbed decl.type m
    rw [added] at kept
    exact kept.wellTyped typed
  | @start index f ready noted found =>
    have kept := (Inert.note (.startInvoked index)).undisturbed m
    rw [noted] at kept
    exact kept.wellTyped typed
  | element mode items => exact typed
  | data mode => exact typed
  | explicitData mode => exact typed

theorem settles_perform (list : List Phase) (m : Machine) :
    Settles (Blames fun t => ∃ p between x ready, Reached fuel list m p between ∧ p.Begins between x ready ∧
      x.HostFault fuel ready t) (fun _ _ => True) (perform fuel list) m := by
  induction list generalizing m with
  | nil => trivial
  | cons p rest ih =>
    have first : ∀ t, (∃ x ready, p.Begins m x ready ∧ x.HostFault fuel ready t) → ∃ q between x ready,
        Reached fuel (p :: rest) m q between ∧ q.Begins between x ready ∧ x.HostFault fuel ready t :=
      fun t ⟨x, ready, blamed⟩ => ⟨p, m, x, ready, .here, blamed⟩
    apply ((settles_phase fuel p m).explain (Blames.imp first)).known.bind
    rintro _ between ⟨done, _⟩
    exact (ih between).explain (Blames.imp (fun t ⟨q, n, x, ready, reached, blamed⟩ =>
      ⟨q, n, x, ready, .later done reached, blamed⟩))

theorem sound_instantiation (typed : WellTyped [] m) : SoundInstantiation fuel offers module m := by
  refine ⟨?_, ?_⟩
  · intro calls seen shows
    cases shows with
    | before reached => exact (reached_undisturbed reached).wellTyped typed
    | inside reached begins shows =>
      exact shows_wellTyped (begins_wellTyped ((reached_undisturbed reached).wellTyped typed) begins) shows
    | after reached =>
      exact (phase_undisturbed fuel _ _).wellTyped ((reached_undisturbed reached).wellTyped typed)
  · intro t after failed fault
    have performed : perform fuel (phases offers module) m = .error (.trap t) after := by
      rw [perform_phases]
      exact bind_of_error failed
    exact (settles_perform _ m).error performed fault

end Instantiation

section Invocation

variable {fuel : Nat} {exports : Exports} {name : String} {args : List Value} {m : Machine}

theorem invocation_undisturbed : Within Undisturbed (exports.invoke fuel name args) := by
  unfold Exports.invoke
  split
  · exact (Inert.trap id).undisturbed
  · apply Within.bind Undisturbed.trans (inert_found (by decide)).undisturbed
    intro f
    exact Within.bind Undisturbed.trans (Inert.note _).undisturbed (fun _ => invoke_undisturbed fuel f f.type args)

theorem settles_invocation :
    Settles (Blames fun t => ∃ f ready, ExportCalls exports name m f ready ∧
        (GivenMismatch f.type args t ∨ (Activity.call f f.type args).HostFault fuel ready t))
      (fun result _ => ∃ f ready, ExportCalls exports name m f ready ∧ result.map Value.type = f.type.result)
      (exports.invoke fuel name args) m := by
  unfold Exports.invoke
  split
  · exact fun fault => False.elim fault
  next id exported =>
    apply (settles_found (by decide)).bind
    rintro f _ ⟨found, rfl⟩
    apply (settles_note (.exportInvoked name f.type)).known.bind
    rintro _ ready ⟨noted, _⟩
    have called : ExportCalls exports name _ f ready := ⟨⟨id, exported, found_some found⟩, noted⟩
    apply ((settles_invoke fuel f f.type args ready).explain
      (Blames.imp (fun t blamed => ⟨f, ready, called, blamed⟩))).weaken
    exact fun result _ typed => ⟨f, ready, called, typed⟩

theorem sound_invocation (typed : WellTyped [] m) : SoundInvocation fuel exports name args m := by
  refine ⟨?_, ?_, ?_⟩
  · intro calls seen shows
    cases shows with
    | before => exact typed
    | @inside f ready calls seen called shows =>
      have kept := (Inert.note (.exportInvoked name f.type)).undisturbed m
      rw [called.reported] at kept
      exact shows_wellTyped (kept.wellTyped typed) shows
    | after => exact (invocation_undisturbed m).wellTyped typed
  · intro result after outcome
    exact settles_invocation.ok outcome
  · intro t after failed fault
    exact settles_invocation.error failed fault

end Invocation

/-- What a host can do with a session. Globals are offered with a value of their type, and written by the host only as
code writes them. -/
inductive Reachable : Session → Prop where
  | start (journal : Journal) : Reachable { journal }
  | offer {s} (source name : String) (o : Offer) (reachable : Reachable s) : Reachable (s.offer source name o)
  | offerTable {s after source name type} (offered : s.offerTable source name type = .ok after)
      (reachable : Reachable s) : Reachable after
  | offerMemory {s after source name limits} (offered : s.offerMemory source name limits = .ok after)
      (reachable : Reachable s) : Reachable after
  | offerGlobal {s after source name type value} (offered : s.offerGlobal source name type value = .ok after)
      (reachable : Reachable s) : Reachable after
  | setGlobal {s id g index value changed} (found : s.heap.globals[id]? = some g)
      (set : g.set index value = .ok changed) (reachable : Reachable s) :
      Reachable { s with heap := s.heap.setGlobal id changed }
  | instantiate {s} (fuel : Nat) (id : String) (module : Module) (config : Config) (reachable : Reachable s) :
      Reachable (s.instantiate fuel id module config).2
  | invoke {s i} (fuel : Nat) (id name : String) (args : List Value) (live : s.instance? id = some i)
      (reachable : Reachable s) : Reachable (s.run id i (i.exports.invoke fuel name args)).2
  | drop {s} (id : String) (reachable : Reachable s) : Reachable (s.drop id)

/-- Between the calls of the host, no call is active in any instance. -/
structure SessionTyped (s : Session) : Prop where
  globals : GlobalsTyped s.heap
  idle : ∀ entry ∈ s.instances, entry.2.store.frames = []

namespace SessionTyped

variable {s : Session}

theorem machine {store : Store} (typed : SessionTyped s) (idle : store.frames = []) : WellTyped [] (s.machine store) := by
  refine ⟨typed.globals, ?_⟩
  rw [show (s.machine store).store.frames = [] from idle]
  rfl

theorem live {id : String} {i : Instance} (typed : SessionTyped s) (live : s.instance? id = some i) :
    i.store.frames = [] := by
  obtain ⟨before, after, split, _⟩ := List.lookup_eq_some_iff.mp live
  exact typed.idle (id, i) (split ▸ List.mem_append_right before List.mem_cons_self)

theorem drop (typed : SessionTyped s) (id : String) : SessionTyped (s.drop id) := by
  unfold Session.drop
  split
  · exact typed
  · exact ⟨typed.globals, fun entry held => typed.idle entry (List.mem_filter.mp held |>.1)⟩

theorem instantiate (typed : SessionTyped s) (fuel : Nat) (id : String) (module : Module) (config : Config) :
    SessionTyped (s.instantiate fuel id module config).2 := by
  have kept := (instantiate_undisturbed fuel s.offers module (s.machine (Store.create config)))
  have after := kept.wellTyped (typed.machine rfl)
  unfold Session.instantiate
  cases outcome : module.instantiate fuel s.offers (s.machine (Store.create config)) with
  | error halt m =>
    rw [outcome] at after
    exact ⟨after.globals, typed.idle⟩
  | ok exports m =>
    rw [outcome] at after
    have updated : SessionTyped { s with heap := m.heap, journal := m.journal } := ⟨after.globals, typed.idle⟩
    have dropped := updated.drop id
    refine ⟨dropped.globals, ?_⟩
    rintro entry (_ | ⟨_, held⟩)
    · exact List.map_eq_nil_iff.mp after.frames
    · exact dropped.idle entry held

theorem run {α : Type} {r : Run α} (typed : SessionTyped s) (undisturbed : Within Undisturbed r) {id : String}
    {i : Instance} (live : s.instance? id = some i) : SessionTyped (s.run id i r).2 := by
  have after := (undisturbed (s.machine i.store)).wellTyped (typed.machine (typed.live live))
  have idle : ∀ (m : Machine), WellTyped [] m → SessionTyped { s with
      heap := m.heap
      journal := m.journal
      instances := s.instances.map fun entry =>
        if entry.1 == id then (id, { i with store := m.store }) else entry } := by
    intro m wellTyped
    refine ⟨wellTyped.globals, ?_⟩
    intro entry held
    obtain ⟨old, before, rfl⟩ := List.mem_map.mp held
    split
    · exact List.map_eq_nil_iff.mp wellTyped.frames
    · exact typed.idle old before
  unfold Session.run
  cases outcome : r (s.machine i.store) with
  | ok a m =>
    rw [outcome] at after
    exact idle m after
  | error halt m =>
    rw [outcome] at after
    exact idle m after

end SessionTyped

theorem offered_eq_ok {α : Type} {made : Except Trap α} {session : α → Session} {after : Session}
    (offered : (do let a ← made; return session a : Except Trap Session) = .ok after) :
    ∃ a, made = .ok a ∧ session a = after := by
  cases made with
  | error t => cases offered
  | ok a => exact ⟨a, rfl, Except.ok.inj offered⟩

theorem reachable_typed {s : Session} (reachable : Reachable s) : SessionTyped s := by
  induction reachable with
  | start journal => exact ⟨fun g held => absurd held (Array.not_mem_empty g), fun _ held => nomatch held⟩
  | offer source name o reachable ih => exact ⟨ih.globals, ih.idle⟩
  | offerTable offered reachable ih =>
    obtain ⟨table, _, rfl⟩ := offered_eq_ok offered
    exact ⟨ih.globals, ih.idle⟩
  | offerMemory offered reachable ih =>
    obtain ⟨memory, _, rfl⟩ := offered_eq_ok offered
    exact ⟨ih.globals, ih.idle⟩
  | offerGlobal offered reachable ih =>
    obtain ⟨g, made, rfl⟩ := offered_eq_ok offered
    exact ⟨globalsTyped_add ih.globals (global_create made), ih.idle⟩
  | setGlobal found set reachable ih => exact ⟨globalsTyped_set ih.globals (global_set set).2 _, ih.idle⟩
  | instantiate fuel id module config reachable ih => exact ih.instantiate fuel id module config
  | invoke fuel id name args live reachable ih => exact ih.run invocation_undisturbed live
  | drop id reachable ih => exact ih.drop id

/-- Types hold at run time: between the calls of the host, in every state of a further instantiation and of a further
call of an export, in the results of these and of all calls that code makes. A fault of types is the host's, by the
arguments that it gives or by the answers of its functions, and never that of another instruction. -/
structure TypesSound (s : Session) : Prop where
  session : SessionTyped s
  instantiation : ∀ fuel module config, SoundInstantiation fuel s.offers module (s.machine (Store.create config))
  invocation : ∀ id i, s.instance? id = some i → ∀ fuel name args,
    SoundInvocation fuel i.exports name args (s.machine i.store)
  result : ∀ fuel f type given m result after, Function.invoke fuel f type given m = .ok result after →
    result.map Value.type = type.result
  instruction : ∀ (o : Op) (m : Machine), m.store.frames ≠ [] → (∃ f type ready, RunMoments.Calls o m f type ready) ∨
    ∀ caller t after, o.run caller m = .error (.trap t) after → ¬ TypeFault t

/-- Whatever the host has done with a session before. -/
theorem runtime_types_sound {s : Session} (reachable : Reachable s) : TypesSound s := by
  have typed := reachable_typed reachable
  refine ⟨typed, ?_, ?_, ?_, ?_⟩
  · intro fuel module config
    exact sound_instantiation (typed.machine rfl)
  · intro id i live fuel name args
    exact sound_invocation (typed.machine (typed.live live))
  · intro fuel f type given m result after outcome
    exact (settles_invoke fuel f type given m).ok outcome
  · intro o m inside
    refine (op_calls_or_settles (fun _ => False) inside o).imp_right ?_
    intro settles caller t after failed
    exact (settles caller).error failed

/-- The export writes a global, and asks a host function for an integer. -/
def asking : Module where
  sections := [
    .types [⟨[.i32], [.i32]⟩, ⟨[], [.i32]⟩],
    .imports [⟨"env", "guess", .function 1⟩],
    .functions [0],
    .globals [⟨⟨.i32, true⟩, .op (.const 7) .nil⟩],
    .exports [⟨"ask", .function, 1⟩],
    .bodies [⟨[⟨2, .f64⟩], .op (.localGet 0) (.op (.globalSet 0) (.op (.call 0) .nil))⟩]]

/-- The host offers a function that answers with a long integer. -/
def asked : Session :=
  (Session.instantiate (Session.offer {} "env" "guess" (.function (.constant "env.guess" (some (.i64 5))))) 9 "a"
    asking {}).2

def halt? {α : Type} : EStateM.Result Halt Machine α → Option Halt
  | .ok _ _ => none
  | .error halt _ => some halt

/-- The call ends in a mismatch, which is the answer of the host and not of the argument. -/
theorem asked_types_sound : Reachable asked ∧ ∃ i, asked.instance? "a" = some i ∧
    (∃ after, i.exports.invoke 9 "ask" [.i32 3] (asked.machine i.store) =
      .error (.trap (.typeMismatch .i32 (some .i64))) after) ∧
    SoundInvocation 9 i.exports "ask" [.i32 3] (asked.machine i.store) := by
  have reachable : Reachable asked := .instantiate _ _ _ _ (.offer _ _ _ (.start {}))
  have observed : (asked.instance? "a").map (fun i =>
      halt? (i.exports.invoke 9 "ask" [.i32 3] (asked.machine i.store))) =
        some (some (.trap (.typeMismatch .i32 (some .i64)))) := by decide +kernel
  obtain ⟨i, live, halted⟩ := Option.map_eq_some_iff.mp observed
  refine ⟨reachable, i, live, ?_, (runtime_types_sound reachable).invocation "a" i live 9 "ask" [.i32 3]⟩
  cases outcome : i.exports.invoke 9 "ask" [.i32 3] (asked.machine i.store) with
  | ok result after =>
    rw [outcome] at halted
    cases halted
  | error halt after =>
    rw [outcome] at halted
    obtain rfl := Option.some.inj halted
    exact ⟨after, rfl⟩

end WasmMachine.Proofs.TypeSoundness

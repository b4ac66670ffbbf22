import WasmMachine.Proofs.AddressOrder
import WasmMachine.Proofs.RunPlaces

/-! Runs stay inside their arenas. All numbers that an arena holds are numbers of its nodes, and a run only goes where
one of them leads; so whatever node is asked for on the way, at any depth of calls, is there. -/

namespace WasmMachine.Proofs.ArenaRange
open Sequencing CodeAddresses AddressOrder RunPlaces

def firsts : NodeOp → List NodeId
  | .op _ => []
  | .block first | .loop first => first.toList
  | .cond thenFirst elseFirst => thenFirst.toList ++ elseFirst.toList

/-- All nodes that a node leads to. -/
def links (node : Node) : List NodeId := node.parent.toList ++ node.next.toList ++ firsts node.op

structure Closed (a : Arena) : Prop where
  entry : ∀ id ∈ a.entry, id < a.nodes.size
  links : ∀ (id : NodeId) node, a.nodes[id]? = some node → ∀ other ∈ links node, other < a.nodes.size

section Compiled

variable {code : Code}

theorem firsts_image {number : Address → NodeId} {x : Address} {i : Instruction} {other : NodeId}
    (member : other ∈ firsts (image code number x i).op) : ∃ y, Occurs code y ∧ number y = other := by
  have opened : ∀ {path}, other ∈ (opening? code path).map number → ∃ y, Occurs code y ∧ number y = other := by
    intro path member
    obtain ⟨y, opening, same⟩ := Option.map_eq_some_iff.mp member
    exact ⟨y, occurs_of_opening opening, same⟩
  cases i with
  | op o => cases member
  | block t body | loop t body => exact opened (Option.mem_toList.mp member)
  | ifThen t body | ifElse t body orElse =>
    rcases List.mem_append.mp member with first | second
    · exact opened (Option.mem_toList.mp first)
    · exact opened (Option.mem_toList.mp second)

/-- What the node of an instruction leads to are nodes of instructions. -/
theorem links_image {number : Address → NodeId} {x : Address} {i : Instruction} {other : NodeId} (occurs : Occurs code x)
    (member : other ∈ links (image code number x i)) : ∃ y, Occurs code y ∧ number y = other := by
  rcases List.mem_append.mp member with outside | inside
  · rcases List.mem_append.mp outside with above | behind
    · obtain ⟨y, owner, same⟩ := Option.map_eq_some_iff.mp (Option.mem_toList.mp above)
      exact ⟨y, occurs_of_owner occurs owner, same⟩
    · obtain ⟨y, next, same⟩ := Option.map_eq_some_iff.mp (Option.mem_toList.mp behind)
      exact ⟨y, occurs_of_successor next, same⟩
  · exact firsts_image inside

theorem exists_address {id : NodeId} (inside : id < (Arena.compile code).nodes.size) :
    ∃ x, Occurs code x ∧ number code x = id := by
  rw [compile_size] at inside
  have whole : sequence? code [] = some code := rfl
  exact exists_number whole (Nat.zero_le id) (by simpa [start] using inside)

theorem closed_compile (code : Code) : Closed (Arena.compile code) := by
  have inside : ∀ y, Occurs code y → number code y < (Arena.compile code).nodes.size := by
    intro y occurs
    rw [compile_size]
    exact number_lt_count occurs
  refine ⟨?_, ?_⟩
  · intro id member
    have first : (if 0 < code.length then some 0 else none) = some id := (first_eq code 0).symm.trans member
    obtain ⟨nonempty, zero⟩ := Option.ite_none_right_eq_some.mp first
    cases zero
    rw [compile_size]
    exact Nat.lt_of_lt_of_le nonempty (length_le_count code)
  · intro id node found other member
    obtain ⟨x, occurs, rfl⟩ := exists_address (Array.getElem?_eq_some_iff.mp found).1
    obtain ⟨i, here⟩ := Option.isSome_iff_exists.mp occurs
    obtain rfl := Option.some.inj ((node_at here).symm.trans found)
    obtain ⟨y, occursToo, rfl⟩ := links_image occurs member
    exact inside y occursToo

theorem closed_program (p : Program) : Closed p.arena := by
  rw [p.compiled]
  exact closed_compile p.code

end Compiled

section Branches

variable {a : Arena}

/-- The nodes that are looked at in the search for the instruction that a label refers to. -/
def consulted (a : Arena) : Option NodeId → (label : Nat) → List NodeId
  | none, _ => []
  | some id, 0 => [id]
  | some id, label + 1 => id :: consulted a (a.nodes[id]?.bind Node.parent) label

theorem parent_inside (closed : Closed a) {id parent : NodeId} (above : a.nodes[id]?.bind Node.parent = some parent) :
    parent < a.nodes.size := by
  obtain ⟨node, found, same⟩ := Option.bind_eq_some_iff.mp above
  exact closed.links id node found parent (by simp [links, same])

theorem consulted_inside (closed : Closed a) {source : Option NodeId} (inside : ∀ id ∈ source, id < a.nodes.size)
    (label : Nat) : ∀ id ∈ consulted a source label, id < a.nodes.size := by
  induction label generalizing source with
  | zero =>
    cases source with
    | none => simp [consulted]
    | some id => simpa [consulted] using inside
  | succ label ih =>
    cases source with
    | none => simp [consulted]
    | some id =>
      have above : ∀ parent ∈ a.nodes[id]?.bind Node.parent, parent < a.nodes.size := fun _ => parent_inside closed
      simpa [consulted] using And.intro (inside id rfl) (ih above)

theorem enclosing_found {source : Option NodeId} {label : Nat} {node : Node}
    (found : a.enclosing source label = some node) :
    ∃ id : NodeId, a.nodes[id]? = some node := by
  induction label generalizing source with
  | zero =>
    cases source with
    | none => cases found
    | some id => exact ⟨id, found⟩
  | succ label ih =>
    cases source with
    | none => cases found
    | some id => exact ih found

theorem branchTarget_inside (closed : Closed a) {id : NodeId} {label : UInt32} {next : Option NodeId}
    (target : a.branchTarget id label = .ok next) : ∀ other ∈ next, other < a.nodes.size := by
  rw [Arena.branchTarget] at target
  cases found : a.enclosing (a.nodes[id]?.bind Node.parent) label.toNat with
  | none =>
    rw [found] at target
    cases target
  | some node =>
    rw [found] at target
    obtain ⟨place, here⟩ := enclosing_found found
    obtain ⟨op, parent, after⟩ := node
    intro other member
    apply closed.links place _ here
    cases op <;> cases target <;> simp_all [links, firsts]

end Branches

section Runs

/-- What a node gives as the next one is a node of the arena, whatever calls come to. -/
theorem act_inside {a : Arena} (closed : Closed a) {caller : Caller} {id : NodeId} {node : Node} {m stepped : Machine}
    {next : Option NodeId} (found : a.nodes[id]? = some node) (act : a.act caller id node m = .ok next stepped) :
    ∀ other ∈ next, other < a.nodes.size := by
  unfold Arena.act at act
  have linked := closed.links id node found
  obtain ⟨op, parent, after⟩ := node
  -- an arm is entered, or passed over when it is empty
  have entered : ∀ {first : Option NodeId}, (∀ other ∈ first, other ∈ firsts op) →
      ∀ other ∈ (first <|> after), other < a.nodes.size := by
    intro first arm other member
    cases first with
    | none => exact linked other (by simp [links, show after = some other from member])
    | some _ => exact linked other (List.mem_append_right _ (arm other member))
  cases op with
  | op o =>
    obtain ⟨jump, between, _, target⟩ := bind_eq_ok act
    cases followed : a.follow id after jump with
    | error t =>
      simp only [Run.lift, followed] at target
      cases target
    | ok goal =>
      simp only [Run.lift, followed] at target
      cases target
      intro other member
      cases jump with
      | next =>
        cases followed
        exact linked other (by simp [links, Option.mem_def.mp member])
      | branch label => exact branchTarget_inside closed followed other member
      | leave =>
        cases followed
        cases member
  | block first | loop first =>
    obtain ⟨rfl, _⟩ := pure_eq_ok act
    exact entered (fun other member => Option.mem_toList.mpr member)
  | cond thenFirst elseFirst =>
    obtain ⟨taken, between, _, chosen⟩ := bind_eq_ok act
    cases taken with
    | true =>
      obtain ⟨rfl, _⟩ := pure_eq_ok chosen
      exact entered (fun other member => List.mem_append_left _ (Option.mem_toList.mpr member))
    | false =>
      obtain ⟨rfl, _⟩ := pure_eq_ok chosen
      exact entered (fun other member => List.mem_append_right _ (Option.mem_toList.mpr member))

theorem step_inside {a : Arena} (closed : Closed a) {caller : Caller} {id : NodeId} {node : Node} {m stepped : Machine}
    {next : Option NodeId} (found : a.nodes[id]? = some node) (step : a.step caller id node m = .ok next stepped) :
    ∀ other ∈ next, other < a.nodes.size := by
  obtain ⟨_, counted, _, act⟩ := bind_eq_ok step
  exact act_inside closed found act

/-- The node that is run next is one of the arena, and so are those that a branch from it looks at. -/
def Inside (p : Place) : Prop :=
  ∀ id ∈ p.node, id < p.arena.nodes.size ∧
    ∀ label, ∀ other ∈ consulted p.arena (p.arena.nodes[id]?.bind Node.parent) label, other < p.arena.nodes.size

theorem enters_inside {fuel : Nat} {m : Machine} {x : Activity} {types : List ValueType} {p : Place}
    (enters : x.Enters fuel m types p) : Closed p.arena ∧ ∀ id ∈ p.node, id < p.arena.nodes.size := by
  cases enters with
  | call starts => exact ⟨closed_program _, (closed_program _).entry⟩
  | evaluation pushed => exact ⟨closed_program _, (closed_program _).entry⟩

theorem steps_inside {p q : Place} (closed : Closed p.arena) (steps : p.Steps q) :
    Closed q.arena ∧ ∀ id ∈ q.node, id < q.arena.nodes.size := by
  obtain ⟨found, _, step⟩ := steps
  exact ⟨closed, step_inside closed found step⟩

/-- A run that starts in a closed arena is at every time in a closed arena, that of its own body or of a called one. -/
theorem visits_inside {p q : Place} {calls : List (List ValueType)} (visits : Visits p calls q)
    (start : Closed p.arena ∧ ∀ id ∈ p.node, id < p.arena.nodes.size) : Inside q := by
  induction visits with
  | here => exact fun id member =>
      ⟨start.2 id member, consulted_inside start.1 (fun parent => parent_inside start.1)⟩
  | later steps _ ih => exact ih (steps_inside start.1 steps)
  | inside called enters _ ih => exact ih (enters_inside enters)

end Runs

end WasmMachine.Proofs.ArenaRange

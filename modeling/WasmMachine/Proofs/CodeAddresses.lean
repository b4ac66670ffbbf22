import Mathlib.Algebra.GroupWithZero.Nat
import WasmMachine.Proofs.ArenaLayout

/-! Instructions by the way that leads to them. An address names the owners of the sequence in which an instruction
stands and its position there; it belongs to the tree and knows nothing of nodes. Numbers are given to addresses by
counting what stands in front of them, and the node of that number is found to be the one of the instruction. -/

namespace WasmMachine.Proofs.CodeAddresses
open ArenaLayout

/-- One of the sequences that an instruction owns. -/
inductive Arm where
  | body
  | orElse
  deriving DecidableEq, Repr

def arm? : Instruction → Arm → Option Code
  | .block _ body, .body | .loop _ body, .body | .ifThen _ body, .body | .ifElse _ body _, .body => some body
  | .ifElse _ _ orElse, .orElse => some orElse
  | _, _ => none

/-- The way to a sequence. For each of its owners, the innermost one first, it tells the position of the owner in the
owner's own sequence and which arm of the owner leads on. -/
abbrev Path := List (Nat × Arm)

/-- Where an instruction stands in code. -/
structure Address where
  path : Path
  position : Nat
  deriving DecidableEq, Repr

def sequence? (code : Code) : Path → Option Code
  | [] => some code
  | (n, arm) :: outer => do
    let sequence ← sequence? code outer
    let owner ← sequence.toList[n]?
    arm? owner arm

def instruction? (code : Code) (x : Address) : Option Instruction := do
  let sequence ← sequence? code x.path
  sequence.toList[x.position]?

def Occurs (code : Code) (x : Address) : Prop := (instruction? code x).isSome

instance (code : Code) (x : Address) : Decidable (Occurs code x) := inferInstanceAs (Decidable (_ = true))

/-- The structured instructions around a sequence, the innermost one first. -/
def owners : Path → List Address
  | [] => []
  | (n, _) :: outer => ⟨outer, n⟩ :: owners outer

/-- The first instruction of a sequence, if it is there and not empty. -/
def opening? (code : Code) (path : Path) : Option Address :=
  if Occurs code ⟨path, 0⟩ then some ⟨path, 0⟩ else none

/-- The instruction that runs behind the one at a position: the next one of the sequence, or else the one that runs
behind the owner. -/
def successor? (code : Code) : Path → (position : Nat) → Option Address
  | [], n => if Occurs code ⟨[], n + 1⟩ then some ⟨[], n + 1⟩ else none
  | (k, arm) :: outer, n =>
    if Occurs code ⟨(k, arm) :: outer, n + 1⟩ then some ⟨(k, arm) :: outer, n + 1⟩ else successor? code outer k

/-- How many instructions are nested in an instruction. -/
def innerCount : Instruction → Nat
  | .op _ => 0
  | .block _ body | .loop _ body | .ifThen _ body => body.count
  | .ifElse _ body orElse => body.count + orElse.count

/-- How many of them stand in front of an arm. -/
def armOffset : Instruction → Arm → Nat
  | .ifElse _ body _, .orElse => body.count
  | _, _ => 0

/-- How many instructions nested in a sequence stand in front of an arm of its instruction at a position. -/
def nestedBefore (sequence : Code) (n : Nat) (arm : Arm) : Nat :=
  ((sequence.toList.take n).map innerCount).sum + (sequence.toList[n]?.map (armOffset · arm)).getD 0

/-- The number of the first instruction of a sequence. What is nested in a sequence stands behind it, in order. -/
def start (code : Code) : Path → Nat
  | [] => 0
  | (n, arm) :: outer =>
    match sequence? code outer with
    | none => 0
    | some sequence => start code outer + sequence.length + nestedBefore sequence n arm

def number (code : Code) (x : Address) : Nat := start code x.path + x.position

section Sequences

/-- A sequence is empty, or an instruction in front of a sequence. -/
theorem cons_induction {motive : Code → Prop} (nil : motive .nil)
    (cons : ∀ i rest, motive rest → motive (.cons i rest)) (code : Code) : motive code := by
  induction code with
  | nil => exact nil
  | op o rest ih => exact cons (.op o) rest ih
  | block t body rest _ ih => exact cons (.block t body) rest ih
  | loop t body rest _ ih => exact cons (.loop t body) rest ih
  | ifThen t body rest _ ih => exact cons (.ifThen t body) rest ih
  | ifElse t body orElse rest _ _ ih => exact cons (.ifElse t body orElse) rest ih

theorem eq_nil_or_cons (code : Code) : code = .nil ∨ ∃ i rest, code = .cons i rest := by
  induction code using cons_induction with
  | nil => exact .inl rfl
  | cons i rest _ => exact .inr ⟨i, rest, rfl⟩

@[simp] theorem toList_cons (i : Instruction) (rest : Code) : (Code.cons i rest).toList = i :: rest.toList := by
  cases i <;> rfl

@[simp] theorem length_cons (i : Instruction) (rest : Code) : (Code.cons i rest).length = rest.length + 1 := by
  cases i <;> rfl

@[simp] theorem count_cons (i : Instruction) (rest : Code) : (Code.cons i rest).count = innerCount i + rest.count + 1 := by
  cases i <;> simp [Code.cons, Code.count, innerCount]

theorem length_toList (code : Code) : code.toList.length = code.length := by
  induction code using cons_induction with
  | nil => rfl
  | cons i rest ih => rw [toList_cons, length_cons, List.length_cons, ih]

theorem entry_eq (code : Code) (start : NodeId) (after : Option NodeId) :
    entry code start after = if 0 < code.length then some start else after := by
  cases code <;> simp [entry, Code.isEmpty, Code.length]

theorem first_eq (code : Code) (start : NodeId) :
    Arena.first code start = if 0 < code.length then some start else none := by
  cases code <;> simp [Arena.first, Code.isEmpty, Code.length]

@[simp] theorem nestedBefore_zero (i : Instruction) (rest : Code) (arm : Arm) :
    nestedBefore (.cons i rest) 0 arm = armOffset i arm := by
  simp [nestedBefore]

@[simp] theorem nestedBefore_succ (i : Instruction) (rest : Code) (n : Nat) (arm : Arm) :
    nestedBefore (.cons i rest) (n + 1) arm = innerCount i + nestedBefore rest n arm := by
  simp [nestedBefore, Nat.add_assoc]

end Sequences

section Nodes

/-- What the node of an instruction does, when its arms start with these nodes. -/
def nodeOp (firsts : Arm → Option NodeId) : Instruction → NodeOp
  | .op o => .op o
  | .block _ _ => .block (firsts .body)
  | .loop _ _ => .loop (firsts .body)
  | .ifThen _ _ | .ifElse _ _ _ => .cond (firsts .body) (firsts .orElse)

/-- The first node of an arm that is laid out from `start` on. -/
def firstOf (i : Instruction) (arm : Arm) (start : NodeId) : Option NodeId :=
  (arm? i arm).bind (Arena.first · start)

variable {a : Arena} {parent after : Option NodeId} {id below : NodeId}

theorem placed_cons {i : Instruction} {rest : Code} (placed : Placed a parent after id below (.cons i rest)) :
    a.nodes[id]? = some ⟨nodeOp (fun arm => firstOf i arm (below + armOffset i arm)) i, parent,
        entry rest (id + 1) after⟩ ∧
      (∀ arm body, arm? i arm = some body → Placed a (some id) (entry rest (id + 1) after) (below + armOffset i arm)
        (below + armOffset i arm + body.length) body) ∧
      Placed a parent after (id + 1) (below + innerCount i) rest := by
  cases i with
  | op o =>
    refine ⟨placed.1, fun arm found here => ?_, placed.2⟩
    cases arm <;> cases here
  | block t body | loop t body | ifThen t body =>
    refine ⟨placed.1, fun arm found here => ?_, placed.2.2⟩
    cases arm with
    | body =>
      cases here
      exact placed.2.1
    | orElse => cases here
  | ifElse t body orElse =>
    refine ⟨placed.1, fun arm found here => ?_, ?_⟩
    · cases arm with
      | body =>
        cases here
        exact placed.2.1
      | orElse =>
        cases here
        exact placed.2.2.1
    · rw [innerCount, ← Nat.add_assoc]
      exact placed.2.2.2

/-- What stands behind an instruction of a sequence that is laid out from `id` on. -/
def behind (sequence : Code) (id : NodeId) (after : Option NodeId) (n : Nat) : Option NodeId :=
  if n + 1 < sequence.length then some (id + n + 1) else after

theorem placed_at_position {sequence : Code} {n : Nat} {i : Instruction}
    (placed : Placed a parent after id below sequence) (found : sequence.toList[n]? = some i) :
    a.nodes[id + n]? = some ⟨nodeOp (fun arm => firstOf i arm (below + nestedBefore sequence n arm)) i, parent,
        behind sequence id after n⟩ ∧
      ∀ arm body, arm? i arm = some body → Placed a (some (id + n)) (behind sequence id after n)
        (below + nestedBefore sequence n arm) (below + nestedBefore sequence n arm + body.length) body := by
  induction n generalizing sequence id below with
  | zero =>
    rcases eq_nil_or_cons sequence with rfl | ⟨first, rest, rfl⟩
    · cases found
    · obtain rfl : first = i := by simpa using found
      obtain ⟨node, arms, _⟩ := placed_cons placed
      have next : behind (.cons first rest) id after 0 = entry rest (id + 1) after := by
        rw [behind, entry_eq, length_cons]
        simp
      simp only [next, nestedBefore_zero]
      exact ⟨node, arms⟩
  | succ n ih =>
    rcases eq_nil_or_cons sequence with rfl | ⟨first, rest, rfl⟩
    · cases found
    · obtain ⟨_, _, later⟩ := placed_cons placed
      have next : behind (.cons first rest) id after (n + 1) = behind rest (id + 1) after n := by
        rw [behind, behind, length_cons, ← Nat.add_assoc id n 1, Nat.add_right_comm id 1 n]
        simp only [Nat.add_lt_add_iff_right]
      obtain ⟨node, arms⟩ := ih later (by simpa using found)
      rw [next, ← Nat.add_assoc id n 1, Nat.add_right_comm id n 1]
      simp only [nestedBefore_succ, ← Nat.add_assoc]
      exact ⟨node, arms⟩

variable {code : Code} {path : Path} {sequence : Code}

theorem sequence?_cons {n : Nat} {arm : Arm} {outer : Path} (found : sequence? code ((n, arm) :: outer) = some sequence) :
    ∃ around owner, sequence? code outer = some around ∧ around.toList[n]? = some owner ∧ arm? owner arm = some sequence := by
  obtain ⟨around, here, rest⟩ := Option.bind_eq_some_iff.mp found
  obtain ⟨owner, there, inside⟩ := Option.bind_eq_some_iff.mp rest
  exact ⟨around, owner, here, there, inside⟩

theorem instruction?_of_sequence (found : sequence? code path = some sequence) (n : Nat) :
    instruction? code ⟨path, n⟩ = sequence.toList[n]? := by
  rw [instruction?, found]
  rfl

theorem occurs_of_sequence (found : sequence? code path = some sequence) (n : Nat) :
    Occurs code ⟨path, n⟩ ↔ n < sequence.length := by
  rw [Occurs, instruction?_of_sequence found, ← length_toList]
  simp

/-- Where control goes behind a whole sequence. -/
def afterwards? (code : Code) : Path → Option Address
  | [] => none
  | (n, _) :: outer => successor? code outer n

theorem successor?_eq (code : Code) (path : Path) (n : Nat) : successor? code path n =
    if Occurs code ⟨path, n + 1⟩ then some ⟨path, n + 1⟩ else afterwards? code path := by
  cases path <;> rfl

theorem successor?_of_sequence (found : sequence? code path = some sequence) (n : Nat) :
    (successor? code path n).map (number code) =
      behind sequence (start code path) ((afterwards? code path).map (number code)) n := by
  rw [successor?_eq, behind]
  simp only [occurs_of_sequence found]
  split <;> rfl

/-- Every sequence of the code stands in the arena at its own place, with its owner in front of it. -/
theorem placed_at_path (found : sequence? code path = some sequence) :
    Placed (Arena.compile code) ((owners path).head?.map (number code)) ((afterwards? code path).map (number code))
      (start code path) (start code path + sequence.length) sequence := by
  induction path generalizing sequence with
  | nil =>
    cases found
    rw [start, Nat.zero_add]
    exact placed_compile code
  | cons turn outer ih =>
    obtain ⟨n, arm⟩ := turn
    obtain ⟨around, owner, here, there, inside⟩ := sequence?_cons found
    have placed := (placed_at_position (ih here) there).2 arm sequence inside
    rw [← successor?_of_sequence here] at placed
    simp only [start, here]
    exact placed

theorem start_arm (found : sequence? code path = some sequence) (n : Nat) (arm : Arm) :
    start code ((n, arm) :: path) = start code path + sequence.length + nestedBefore sequence n arm := by
  simp only [start, found]

theorem sequence?_arm (found : sequence? code path = some sequence) {n : Nat} {i : Instruction}
    (here : sequence.toList[n]? = some i) (arm : Arm) : sequence? code ((n, arm) :: path) = arm? i arm := by
  simp only [sequence?, found, here, bind, Option.bind_some]

/-- The first instruction of an arm has the number at which the arm starts. -/
theorem opening?_arm (found : sequence? code path = some sequence) {n : Nat} {i : Instruction}
    (here : sequence.toList[n]? = some i) (arm : Arm) :
    (opening? code ((n, arm) :: path)).map (number code) = firstOf i arm (start code ((n, arm) :: path)) := by
  have same := sequence?_arm found here arm
  rw [opening?, firstOf, ← same]
  cases inside : sequence? code ((n, arm) :: path) with
  | none =>
    have absent : ¬ Occurs code ⟨(n, arm) :: path, 0⟩ := by simp [Occurs, instruction?, inside]
    rw [if_neg absent]
    rfl
  | some body =>
    rw [Option.bind_some, first_eq]
    simp only [occurs_of_sequence inside]
    split <;> rfl

/-- The node of an instruction, from the instructions around it and their numbers. -/
def image (code : Code) (number : Address → NodeId) (x : Address) (i : Instruction) : Node where
  op := nodeOp (fun arm => (opening? code ((x.position, arm) :: x.path)).map number) i
  parent := (owners x.path).head?.map number
  next := (successor? code x.path x.position).map number

theorem node_at {x : Address} {i : Instruction} (found : instruction? code x = some i) :
    (Arena.compile code).nodes[number code x]? = some (image code (number code) x i) := by
  obtain ⟨sequence, inside, here⟩ := Option.bind_eq_some_iff.mp found
  have node := (placed_at_position (placed_at_path inside) here).1
  simp only [← start_arm inside, ← opening?_arm inside here, ← successor?_of_sequence inside] at node
  exact node

theorem layout_length (parent after : Option NodeId) (start : NodeId) (code : Code) :
    (Arena.layout parent after start code).length = code.count := by
  rw [Arena.layout, List.length_append, heads_length, Nat.add_comm]
  exact nested_length after start (start + code.length) code

theorem compile_size (code : Code) : (Arena.compile code).nodes.size = code.count :=
  layout_length none none 0 code

end Nodes

section Occurrence

variable {code : Code}

theorem sequence_of_occurs {x : Address} (occurs : Occurs code x) :
    ∃ sequence, sequence? code x.path = some sequence ∧ x.position < sequence.length := by
  obtain ⟨i, found⟩ := Option.isSome_iff_exists.mp occurs
  obtain ⟨sequence, inside, _⟩ := Option.bind_eq_some_iff.mp found
  exact ⟨sequence, inside, (occurs_of_sequence inside x.position).mp occurs⟩

theorem arm_of_sequence {n : Nat} {arm : Arm} {outer : Path} {body : Code}
    (inside : sequence? code ((n, arm) :: outer) = some body) :
    ∃ owner, instruction? code ⟨outer, n⟩ = some owner ∧ arm? owner arm = some body := by
  obtain ⟨around, owner, here, there, owned⟩ := sequence?_cons inside
  exact ⟨owner, (instruction?_of_sequence here n).trans there, owned⟩

theorem occurs_of_owner {x y : Address} (occurs : Occurs code x) (owner : (owners x.path).head? = some y) :
    Occurs code y := by
  obtain ⟨path, position⟩ := x
  cases path with
  | nil => cases owner
  | cons turn outer =>
    obtain ⟨n, arm⟩ := turn
    obtain rfl := Option.some.inj owner
    obtain ⟨body, inside, _⟩ := sequence_of_occurs occurs
    obtain ⟨i, there, _⟩ := arm_of_sequence inside
    exact Option.isSome_of_eq_some there

theorem occurs_of_opening {path : Path} {y : Address} (opening : opening? code path = some y) : Occurs code y := by
  rw [opening?, Option.ite_none_right_eq_some] at opening
  obtain ⟨occurs, same⟩ := opening
  exact Option.some.inj same ▸ occurs

theorem occurs_of_successor {path : Path} {n : Nat} {y : Address} (next : successor? code path n = some y) :
    Occurs code y := by
  induction path generalizing n with
  | nil =>
    rw [successor?, Option.ite_none_right_eq_some] at next
    obtain ⟨occurs, same⟩ := next
    exact Option.some.inj same ▸ occurs
  | cons turn outer ih =>
    obtain ⟨k, arm⟩ := turn
    rw [successor?] at next
    split at next
    next occurs => exact Option.some.inj next ▸ occurs
    next => exact ih next

end Occurrence

end WasmMachine.Proofs.CodeAddresses

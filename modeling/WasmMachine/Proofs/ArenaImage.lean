import WasmMachine.Proofs.ArenaRange
import WasmMachine.Proofs.Worklist

/-! The arena as an image of the code: the same instructions, each once, in the order of a depth-first walk, with the
numbers of those around it. Nothing is lost but the types of blocks, and whether an `else` is missing or empty. -/

namespace WasmMachine.Proofs.ArenaImage
open ArenaLayout CodeAddresses AddressOrder ArenaRange RunPlaces

section Recovery

/-- Code without what an arena does not keep. -/
def plain : Code → Code
  | .nil => .nil
  | .op o rest => .op o (plain rest)
  | .block _ body rest => .block .empty (plain body) (plain rest)
  | .loop _ body rest => .loop .empty (plain body) (plain rest)
  | .ifThen _ body rest => .ifElse .empty (plain body) .nil (plain rest)
  | .ifElse _ body orElse rest => .ifElse .empty (plain body) (plain orElse) (plain rest)

@[simp] theorem isEmpty_plain (code : Code) : (plain code).isEmpty = code.isEmpty := by
  cases code <;> rfl

@[simp] theorem length_plain (code : Code) : (plain code).length = code.length := by
  induction code <;> simp_all [plain, Code.length]

@[simp] theorem count_plain (code : Code) : (plain code).count = code.count := by
  induction code <;> simp_all [plain, Code.count]

@[simp] theorem following_plain (rest : Code) (id : NodeId) (after : Option NodeId) :
    Arena.following (plain rest) id after = Arena.following rest id after := by
  simp [Arena.following]

@[simp] theorem first_plain (code : Code) (start : NodeId) : Arena.first (plain code) start = Arena.first code start := by
  simp [Arena.first]

@[simp] theorem first_nil (start : NodeId) : Arena.first .nil start = none := rfl

theorem heads_plain (parent after : Option NodeId) (id below : NodeId) (code : Code) :
    Arena.heads parent after id below (plain code) = Arena.heads parent after id below code := by
  induction code generalizing id below <;> simp_all [plain, Arena.heads, Code.count]

theorem nested_plain (after : Option NodeId) (id below : NodeId) (code : Code) :
    Arena.nested after id below (plain code) = Arena.nested after id below code := by
  induction code generalizing after id below <;>
    simp_all [plain, Arena.nested, Arena.heads, heads_plain, Code.count]

theorem compile_plain (code : Code) : Arena.compile (plain code) = Arena.compile code := by
  simp only [Arena.compile, Arena.layout, heads_plain, nested_plain, length_plain, first_plain]

/-- Reads code back from the nodes, one sequence after the other. A sequence goes on as long as its nodes lead to the
ones behind them. -/
def recover (a : Arena) : (fuel : Nat) → Option NodeId → Code
  | 0, _ | _, none => .nil
  | fuel + 1, some id =>
    match a.nodes[id]? with
    | none => .nil
    | some node =>
      let rest := recover a fuel (if node.next = some (id + 1) then some (id + 1) else none)
      match node.op with
      | .op o => .op o rest
      | .block first => .block .empty (recover a fuel first) rest
      | .loop first => .loop .empty (recover a fuel first) rest
      | .cond thenFirst elseFirst => .ifElse .empty (recover a fuel thenFirst) (recover a fuel elseFirst) rest

@[simp] theorem recover_none (a : Arena) (fuel : Nat) : recover a fuel none = .nil := by
  cases fuel <;> rfl

/-- What runs behind a sequence has been numbered before it. -/
def NumberedBefore (after : Option Nat) (id : Nat) : Prop := ∀ k ∈ after, k < id

theorem NumberedBefore.mono {after : Option Nat} {id later : Nat} (earlier : NumberedBefore after id) (order : id ≤ later) :
    NumberedBefore after later :=
  fun k member => Nat.lt_of_lt_of_le (earlier k member) order

/-- So it is not taken for a part of the sequence. -/
theorem next_rest {rest : Code} {id : Nat} {after : Option Nat} (earlier : NumberedBefore after id) :
    (if entry rest (id + 1) after = some (id + 1) then some (id + 1) else none) = Arena.first rest (id + 1) := by
  rw [entry_eq, first_eq]
  by_cases nonempty : 0 < rest.length
  · simp [nonempty]
  · have apart : after ≠ some (id + 1) := by
      intro next
      have less := earlier (id + 1) next
      omega
    simp [nonempty, apart]

theorem earlier_entry {rest : Code} {id below : Nat} {after : Option Nat} (earlier : NumberedBefore after id)
    (room : id + (rest.length + 1) ≤ below) : NumberedBefore (entry rest (id + 1) after) below := by
  intro k member
  rw [entry_eq] at member
  split at member
  next nonempty =>
    obtain rfl : id + 1 = k := Option.some.inj member
    omega
  next => exact earlier.mono (by omega) k member

theorem recover_placed {a : Arena} {code : Code} {parent after : Option Nat} {id below fuel : Nat}
    (placed : Placed a parent after id below code) (room : id + code.length ≤ below) (earlier : NumberedBefore after id)
    (enough : code.count ≤ fuel) : recover a fuel (Arena.first code id) = plain code := by
  induction code generalizing parent after id below fuel with
  | nil => cases fuel <;> rfl
  | op o rest ih =>
    simp only [Code.length, Code.count] at room enough
    cases fuel with
    | zero => omega
    | succ fuel =>
      have behind : recover a fuel (Arena.first rest (id + 1)) = plain rest :=
        ih placed.2 (by omega) (earlier.mono (Nat.le_succ id)) (by omega)
      change recover a (fuel + 1) (some id) = _
      simp only [recover, placed.1, next_rest earlier, behind, plain]
  | block t body rest ihBody ihRest | loop t body rest ihBody ihRest | ifThen t body rest ihBody ihRest =>
    simp only [Code.length, Code.count] at room enough
    cases fuel with
    | zero => omega
    | succ fuel =>
      have inside : recover a fuel (Arena.first body below) = plain body :=
        ihBody placed.2.1 (Nat.le_refl _) (earlier_entry earlier room) (by omega)
      have behind : recover a fuel (Arena.first rest (id + 1)) = plain rest :=
        ihRest placed.2.2 (by omega) (earlier.mono (Nat.le_succ id)) (by omega)
      change recover a (fuel + 1) (some id) = _
      simp only [recover, recover_none, placed.1, next_rest earlier, inside, behind, plain]
  | ifElse t body orElse rest ihBody ihElse ihRest =>
    simp only [Code.length, Code.count] at room enough
    cases fuel with
    | zero => omega
    | succ fuel =>
      have inside : recover a fuel (Arena.first body below) = plain body :=
        ihBody placed.2.1 (Nat.le_refl _) (earlier_entry earlier room) (by omega)
      have other : recover a fuel (Arena.first orElse (below + body.count)) = plain orElse :=
        ihElse placed.2.2.1 (Nat.le_refl _) (earlier_entry earlier (by omega)) (by omega)
      have behind : recover a fuel (Arena.first rest (id + 1)) = plain rest :=
        ihRest placed.2.2.2 (by omega) (earlier.mono (Nat.le_succ id)) (by omega)
      change recover a (fuel + 1) (some id) = _
      simp only [recover, placed.1, next_rest earlier, inside, other, behind, plain]

theorem recover_compile (code : Code) :
    recover (Arena.compile code) code.count (Arena.compile code).entry = plain code :=
  recover_placed (placed_compile code) (by omega) (fun _ member => nomatch member) (Nat.le_refl _)

theorem compile_eq_iff (code other : Code) : Arena.compile other = Arena.compile code ↔ plain other = plain code := by
  constructor
  · intro same
    have sizes : other.count = code.count := by rw [← compile_size, same, compile_size]
    rw [← recover_compile, same, sizes, recover_compile]
  · intro same
    rw [← compile_plain, same, compile_plain]

end Recovery

section Image

/-- The nodes are the instructions of the code. Each instruction has its own number and each number its instruction; a
sequence has numbers in a row, and sequences follow each other depth first. The node of an instruction is made from
the instruction and the numbers of those around it. -/
structure ExactImage (code : Code) (a : Arena) (number : Address → Nat) : Prop where
  size : a.nodes.size = code.count
  inside : ∀ x, Occurs code x → number x < a.nodes.size
  exactly : ∀ id < a.nodes.size, ∃! x, Occurs code x ∧ number x = id
  inRow : ∀ path n, Occurs code ⟨path, n⟩ → number ⟨path, n⟩ = number ⟨path, 0⟩ + n
  depthFirst : ∀ x y, Occurs code x → Occurs code y → (number x < number y ↔ Before x y)
  node : ∀ x i, instruction? code x = some i → a.nodes[number x]? = some (image code number x i)
  owner : ∀ x y, Occurs code x → (owners x.path).head? = some y → Occurs code y ∧ number y < number x
  opening : ∀ path, opening? code path = none ↔ sequence? code path = none ∨ sequence? code path = some .nil
  entry : a.entry = if code = .nil then none else some 0

variable {code : Code}

theorem owner_lt {x y : Address} (occurs : Occurs code x) (owner : (owners x.path).head? = some y) :
    number code y < number code x := by
  obtain ⟨path, position⟩ := x
  cases path with
  | nil => cases owner
  | cons turn outer =>
    obtain ⟨n, arm⟩ := turn
    have owned := occurs_of_owner occurs owner
    obtain rfl := Option.some.inj owner
    obtain ⟨around, here, shorter⟩ := sequence_of_occurs owned
    obtain ⟨body, inside, _⟩ := sequence_of_occurs occurs
    calc number code ⟨outer, n⟩
      _ < start code outer + around.length := Nat.add_lt_add_left shorter _
      _ ≤ start code ((n, arm) :: outer) := (range_of_arm here inside).1
      _ ≤ number code ⟨(n, arm) :: outer, position⟩ := Nat.le_add_right _ _

theorem opening_eq_none (path : Path) :
    opening? code path = none ↔ sequence? code path = none ∨ sequence? code path = some .nil := by
  cases found : sequence? code path with
  | none => simp [opening?, Occurs, instruction?, found]
  | some sequence =>
    simp only [opening?, occurs_of_sequence found]
    cases sequence <;> simp [Code.length]

theorem exactImage_compile (code : Code) : ExactImage code (Arena.compile code) (number code) where
  size := compile_size code
  inside x occurs := by
    rw [compile_size]
    exact number_lt_count occurs
  exactly id inside := by
    obtain ⟨x, occurs, same⟩ := exists_address inside
    refine ⟨x, ⟨occurs, same⟩, ?_⟩
    rintro y ⟨occursToo, sameToo⟩
    exact number_injective occursToo occurs (sameToo.trans same.symm)
  inRow _ _ _ := rfl
  depthFirst _ _ := number_lt_iff
  node _ _ := node_at
  owner _ _ occurs owner := ⟨occurs_of_owner occurs owner, owner_lt occurs owner⟩
  opening := opening_eq_none
  entry := by cases code <;> rfl

end Image

/-- What is kept of the code in its arena, and what may be relied on when the arena is run. -/
structure Faithful (code : Code) : Prop where
  image : ExactImage code (Arena.compile code) (number code)
  closed : Closed (Arena.compile code)
  runs : ∀ fuel m calls q, Visits ⟨fuel, Arena.compile code, (Arena.compile code).entry, m⟩ calls q → Inside q
  recovered : recover (Arena.compile code) (Arena.compile code).nodes.size (Arena.compile code).entry = plain code
  kept : ∀ other, Arena.compile other = Arena.compile code ↔ plain other = plain code
  worklist : Worklist.assemble ⟨#[], none⟩ [⟨code, none, none, .entry⟩] = Arena.compile code

theorem arena_faithful (code : Code) : Faithful code := by
  have closed := closed_compile code
  refine ⟨exactImage_compile code, closed, ?_, ?_, compile_eq_iff code, Worklist.assemble_eq_compile code⟩
  · intro fuel m calls q visits
    exact visits_inside visits ⟨closed, closed.entry⟩
  · rw [compile_size]
    exact recover_compile code

end WasmMachine.Proofs.ArenaImage

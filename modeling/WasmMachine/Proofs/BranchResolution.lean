import WasmMachine.Proofs.CodeAddresses

/-! Labels count the structured instructions around a branch. The nodes above a node are the owners of its sequence,
in the same order, so the walk along the parents takes a label to the owner that has its index in the list. -/

namespace WasmMachine.Proofs.BranchResolution
open CodeAddresses

variable {code : Code} {path : Path} {sequence : Code}

/-- The walk that starts at the owner of a sequence goes through the owners, and ends with them. -/
theorem enclosing_owner (found : sequence? code path = some sequence) (label : Nat) :
    (Arena.compile code).enclosing ((owners path).head?.map (number code)) label =
      (owners path)[label]?.bind fun y => (instruction? code y).map (image code (number code) y) := by
  induction path generalizing sequence label with
  | nil => simp only [owners, List.head?_nil, Option.map_none, Arena.enclosing, List.getElem?_nil, Option.bind_none]
  | cons turn outer ih =>
    obtain ⟨n, arm⟩ := turn
    obtain ⟨around, owner, here, there, _⟩ := sequence?_cons found
    have occurs : instruction? code ⟨outer, n⟩ = some owner := (instruction?_of_sequence here n).trans there
    have node := node_at occurs
    simp only [owners, List.head?_cons, Option.map_some]
    cases label with
    | zero => simp only [Arena.enclosing, node, List.getElem?_cons_zero, Option.bind_some, occurs, Option.map_some]
    | succ label =>
      simp only [Arena.enclosing, node, List.getElem?_cons_succ, Option.bind_some]
      exact ih here label

/-- Where a branch to an instruction continues: a loop starts over, and the others are left. -/
def resumption (code : Code) (y : Address) : Instruction → Option Address
  | .loop _ _ => opening? code ((y.position, .body) :: y.path)
  | _ => successor? code y.path y.position

theorem branchTarget_eq {x : Address} (occurs : Occurs code x) (label : UInt32) :
    (Arena.compile code).branchTarget (number code x) label =
      match (owners x.path)[label.toNat]?.bind fun y => (instruction? code y).map (resumption code y) with
      | none => .error (.unresolvedBranch label)
      | some target => .ok (target.map (number code)) := by
  obtain ⟨i, found⟩ := Option.isSome_iff_exists.mp occurs
  obtain ⟨sequence, inside, _⟩ := Option.bind_eq_some_iff.mp found
  have parent : (Arena.compile code).nodes[number code x]?.bind Node.parent =
      (owners x.path).head?.map (number code) := by
    rw [node_at found]
    rfl
  rw [Arena.branchTarget, parent, enclosing_owner inside]
  cases (owners x.path)[label.toNat]? with
  | none => rfl
  | some y =>
    rw [Option.bind_some, Option.bind_some]
    cases instruction? code y with
    | none => rfl
    | some owner => cases owner <;> rfl

/-- The instructions around an instruction are there, and each of them owns a sequence with something in it. -/
theorem owner_opens {position label : Nat} {y : Address} (occurs : Occurs code ⟨path, position⟩)
    (around : (owners path)[label]? = some y) : ∃ owner arm body, instruction? code y = some owner ∧
      arm? owner arm = some body ∧ Occurs code ⟨(y.position, arm) :: y.path, 0⟩ := by
  induction path generalizing position label with
  | nil => cases around
  | cons turn outer ih =>
    obtain ⟨n, arm⟩ := turn
    obtain ⟨body, inside, shorter⟩ := sequence_of_occurs occurs
    cases label with
    | zero =>
      obtain rfl := Option.some.inj around
      obtain ⟨owner, here, owned⟩ := arm_of_sequence inside
      exact ⟨owner, arm, body, here, owned, (occurs_of_sequence inside 0).mpr (Nat.zero_lt_of_lt shorter)⟩
    | succ label => exact ih (occurs_of_owner occurs rfl) around

/-- A branch from an instruction. The instructions around it are structured ones, and the label is an index into them;
behind their end it is not resolved. -/
structure Resolves (code : Code) (x : Address) (label : UInt32) : Prop where
  unresolved : (Arena.compile code).branchTarget (number code x) label = .error (.unresolvedBranch label) ↔
    (owners x.path).length ≤ label.toNat
  structured : ∀ y ∈ owners x.path, ∃ owner arm body, instruction? code y = some owner ∧ arm? owner arm = some body
  again : ∀ y type body, (owners x.path)[label.toNat]? = some y → instruction? code y = some (.loop type body) →
    Occurs code ⟨(y.position, .body) :: y.path, 0⟩ ∧
      (Arena.compile code).branchTarget (number code x) label =
        .ok (some (number code ⟨(y.position, .body) :: y.path, 0⟩))
  left : ∀ y, (owners x.path)[label.toNat]? = some y → (∀ type body, instruction? code y ≠ some (.loop type body)) →
    (Arena.compile code).branchTarget (number code x) label =
      .ok ((successor? code y.path y.position).map (number code))

theorem branch_resolves {x : Address} (occurs : Occurs code x) (label : UInt32) :
    Resolves code x label := by
  have target := branchTarget_eq occurs label
  refine ⟨?_, ?_, ?_, ?_⟩
  · rw [← List.getElem?_eq_none_iff, target]
    cases around : (owners x.path)[label.toNat]? with
    | none => simp
    | some y =>
      obtain ⟨owner, arm, body, here, _⟩ := owner_opens occurs around
      simp [here]
  · intro y member
    obtain ⟨n, around⟩ := List.mem_iff_getElem?.mp member
    obtain ⟨owner, arm, body, here, owned, _⟩ := owner_opens occurs around
    exact ⟨owner, arm, body, here, owned⟩
  · intro y type body around loop
    obtain ⟨owner, arm, inside, here, owned, first⟩ := owner_opens occurs around
    obtain rfl : owner = .loop type body := Option.some.inj (here.symm.trans loop)
    cases arm with
    | orElse => cases owned
    | body =>
      refine ⟨first, ?_⟩
      rw [target, around, Option.bind_some, loop, Option.map_some, resumption, opening?, if_pos first]
      rfl
  · intro y around other
    obtain ⟨owner, arm, inside, here, _⟩ := owner_opens occurs around
    rw [target, around, Option.bind_some, here]
    cases owner with
    | loop type body => exact absurd here (other type body)
    | op | block | ifThen | ifElse => rfl

/-- A loop in the else arm of an `if` that ends a block. -/
def mixed : Code :=
  .block .empty (.ifElse .empty (.op .nop .nil) (.loop .empty (.op (.br 1) .nil) .nil) .nil) (.op .nop .nil)

/-- From inside the loop, the labels lead back into the loop, behind the block twice, and nowhere. -/
theorem mixed_branch_resolves : let x : Address := ⟨[(0, .body), (0, .orElse), (0, .body)], 0⟩
    Occurs mixed x ∧ number mixed x = 5 ∧ (∀ label, Resolves mixed x label) ∧
      [0, 1, 2, 3].map (fun label : UInt32 => (Arena.compile mixed).branchTarget 5 label) =
        [.ok (some 5), .ok (some 1), .ok (some 1), .error (.unresolvedBranch 3)] :=
  ⟨by decide, by decide, branch_resolves (by decide), rfl⟩

end WasmMachine.Proofs.BranchResolution

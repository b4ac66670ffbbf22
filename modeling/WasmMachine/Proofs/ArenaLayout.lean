import WasmMachine.Machine.Arena

/-! Where compiled code stands. The layout numbers a sequence and then all that is nested in it; here
it is read back along the code, so that a proof that follows the code finds the node of each
instruction without any arithmetic on node numbers. -/

namespace WasmMachine.Proofs.ArenaLayout
open Arena

/-- The nodes stand in the arena from `start` on. -/
def Holds (nodes : Array Node) (start : NodeId) (items : List Node) : Prop :=
  ∀ offset node, items[offset]? = some node → nodes[start + offset]? = some node

theorem Holds.head {nodes : Array Node} {start : NodeId} {node : Node} {items : List Node}
    (holds : Holds nodes start (node :: items)) : nodes[start]? = some node := by
  simpa using holds 0 node rfl

theorem Holds.tail {nodes : Array Node} {start : NodeId} {node : Node} {items : List Node}
    (holds : Holds nodes start (node :: items)) : Holds nodes (start + 1) items := by
  intro offset found inside
  have shifted := holds (offset + 1) found (by simpa using inside)
  rwa [Nat.add_comm offset 1, ← Nat.add_assoc] at shifted

theorem Holds.left {nodes : Array Node} {start : NodeId} {first second : List Node}
    (holds : Holds nodes start (first ++ second)) : Holds nodes start first := by
  intro offset found inside
  apply holds offset found
  rw [List.getElem?_append_left (List.getElem?_eq_some_iff.mp inside).choose]
  exact inside

theorem Holds.right {nodes : Array Node} {start : NodeId} {first second : List Node}
    (holds : Holds nodes start (first ++ second)) : Holds nodes (start + first.length) second := by
  intro offset found inside
  have shifted := holds (first.length + offset) found (by
    rw [List.getElem?_append_right (Nat.le_add_right _ _), Nat.add_sub_cancel_left]
    exact inside)
  rwa [← Nat.add_assoc] at shifted

theorem heads_length (parent after : Option NodeId) (id below : NodeId) (code : Code) :
    (heads parent after id below code).length = code.length := by
  induction code generalizing id below <;> simp_all [heads, Code.length]

theorem nested_length (after : Option NodeId) (id below : NodeId) (code : Code) :
    (nested after id below code).length + code.length = code.count := by
  induction code generalizing after id below with
  | nil => rfl
  | op o rest ih =>
    have := ih after (id + 1) below
    simp only [nested, Code.length, Code.count]
    omega
  | block t body rest ihBody ihRest | loop t body rest ihBody ihRest | ifThen t body rest ihBody ihRest =>
    have inner := ihBody (following rest id after) below (below + body.length)
    have outer := ihRest after (id + 1) (below + body.count)
    simp only [nested, Code.length, Code.count, List.length_append, heads_length]
    omega
  | ifElse t body orElse rest ihBody ihElse ihRest =>
    have inner := ihBody (following rest id after) below (below + body.length)
    have other := ihElse (following rest id after) (below + body.count) (below + body.count + orElse.length)
    have outer := ihRest after (id + 1) (below + body.count + orElse.count)
    simp only [nested, Code.length, Code.count, List.length_append, heads_length]
    omega

/-- The first node that runs when control comes to a sequence. -/
def entry (code : Code) (start : NodeId) (after : Option NodeId) : Option NodeId :=
  if code.isEmpty then after else some start

/-- The code stands in the arena as a sequence numbered from `id` on, with what is nested in it from
`below` on. Each instruction finds its own node, and each nested sequence its own place. -/
def Placed (a : Arena) : (parent after : Option NodeId) → (id below : NodeId) → Code → Prop
  | _, _, _, _, .nil => True
  | parent, after, id, below, .op o rest =>
    a.nodes[id]? = some ⟨.op o, parent, entry rest (id + 1) after⟩ ∧ Placed a parent after (id + 1) below rest
  | parent, after, id, below, .block _ body rest =>
    a.nodes[id]? = some ⟨.block (first body below), parent, entry rest (id + 1) after⟩ ∧
      Placed a (some id) (entry rest (id + 1) after) below (below + body.length) body ∧
      Placed a parent after (id + 1) (below + body.count) rest
  | parent, after, id, below, .loop _ body rest =>
    a.nodes[id]? = some ⟨.loop (first body below), parent, entry rest (id + 1) after⟩ ∧
      Placed a (some id) (entry rest (id + 1) after) below (below + body.length) body ∧
      Placed a parent after (id + 1) (below + body.count) rest
  | parent, after, id, below, .ifThen _ body rest =>
    a.nodes[id]? = some ⟨.cond (first body below) none, parent, entry rest (id + 1) after⟩ ∧
      Placed a (some id) (entry rest (id + 1) after) below (below + body.length) body ∧
      Placed a parent after (id + 1) (below + body.count) rest
  | parent, after, id, below, .ifElse _ body orElse rest =>
    a.nodes[id]? = some ⟨.cond (first body below) (first orElse (below + body.count)), parent,
        entry rest (id + 1) after⟩ ∧
      Placed a (some id) (entry rest (id + 1) after) below (below + body.length) body ∧
      Placed a (some id) (entry rest (id + 1) after) (below + body.count)
        (below + body.count + orElse.length) orElse ∧
      Placed a parent after (id + 1) (below + body.count + orElse.count) rest

/-- A nested sequence inside the nodes that are nested in its owner's sequence, and what comes behind. -/
private theorem holds_nested {nodes : Array Node} {parent next : Option NodeId} {below : NodeId} {body : Code}
    {behind : List Node}
    (holds : Holds nodes below (heads parent next below (below + body.length) body ++
      (nested next below (below + body.length) body ++ behind))) :
    Holds nodes below (heads parent next below (below + body.length) body) ∧
      Holds nodes (below + body.length) (nested next below (below + body.length) body) ∧
      Holds nodes (below + body.count) behind := by
  have inner := holds.right
  rw [heads_length] at inner
  have outer := inner.right
  have size := nested_length next below (below + body.length) body
  rw [Nat.add_assoc, Nat.add_comm body.length, size] at outer
  exact ⟨holds.left, inner.left, outer⟩

theorem placed_of_holds (a : Arena) (parent after : Option NodeId) (id below : NodeId) (code : Code)
    (own : Holds a.nodes id (heads parent after id below code))
    (inside : Holds a.nodes below (nested after id below code)) : Placed a parent after id below code := by
  induction code generalizing parent after id below with
  | nil => trivial
  | op o rest ih => exact ⟨own.head, ih _ _ _ _ own.tail inside⟩
  | block t body rest ihBody ihRest | loop t body rest ihBody ihRest | ifThen t body rest ihBody ihRest =>
    obtain ⟨bodyOwn, bodyInside, restInside⟩ := holds_nested inside
    exact ⟨own.head, ihBody _ _ _ _ bodyOwn bodyInside, ihRest _ _ _ _ own.tail restInside⟩
  | ifElse t body orElse rest ihBody ihElse ihRest =>
    obtain ⟨bodyOwn, bodyInside, elseHolds⟩ := holds_nested inside
    obtain ⟨elseOwn, elseInside, restInside⟩ := holds_nested elseHolds
    exact ⟨own.head, ihBody _ _ _ _ bodyOwn bodyInside, ihElse _ _ _ _ elseOwn elseInside,
      ihRest _ _ _ _ own.tail restInside⟩

theorem placed_compile (code : Code) : Placed (compile code) none none 0 code.length code := by
  have whole : Holds (compile code).nodes 0 (layout none none 0 code) := by
    intro offset node found
    simpa [compile] using found
  have inside := whole.right
  simp only [heads_length, Nat.zero_add] at inside
  refine placed_of_holds _ _ _ _ _ _ ?_ inside
  simpa only [layout, Nat.zero_add] using whole.left

theorem placed_program (p : Program) : Placed p.arena none none 0 p.code.length p.code := by
  rw [p.compiled]
  exact placed_compile p.code

theorem entry_program (p : Program) : p.arena.entry = entry p.code 0 none := by
  rw [p.compiled]
  rfl

theorem entry_of_ne_nil {code : Code} (some : code ≠ .nil) (start : NodeId) (after : Option NodeId) :
    entry code start after = .some start := by
  cases code with
  | nil => exact False.elim (some rfl)
  | _ => rfl

theorem first_of_ne_nil {code : Code} (some : code ≠ .nil) (start : NodeId) : first code start = .some start := by
  cases code with
  | nil => exact False.elim (some rfl)
  | _ => rfl

theorem first_or (body : Code) (start : NodeId) (next : Option NodeId) :
    (first body start <|> next) = entry body start next := by
  unfold first entry
  cases body.isEmpty <;> rfl

end WasmMachine.Proofs.ArenaLayout

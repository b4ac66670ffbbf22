import WasmMachine.Proofs.CodeAddresses

/-! The layout from a worklist. Sequences wait in a list; each is laid out at the end of the nodes so far, the sequences
nested in it are put in front of those that wait, and its first node is entered at its owner afterwards. So nothing
recurses into the code, and no node is known in full before the sequences nested in it have had their turn. -/

namespace WasmMachine.Proofs.Worklist
open Arena ArenaLayout CodeAddresses

/-- Where the first node of a sequence is to be entered. -/
inductive Slot where
  | entry
  | arm (owner : NodeId) (arm : Arm)

/-- A sequence that waits to be laid out. -/
structure Pending where
  code : Code
  parent : Option NodeId
  after : Option NodeId
  slot : Slot

/-- The nodes of a sequence itself, without the sequences nested in it. -/
def unlinked (parent after : Option NodeId) : NodeId → Code → List Node
  | _, .nil => []
  | id, .op o rest => ⟨.op o, parent, following rest id after⟩ :: unlinked parent after (id + 1) rest
  | id, .block _ _ rest => ⟨.block none, parent, following rest id after⟩ :: unlinked parent after (id + 1) rest
  | id, .loop _ _ rest => ⟨.loop none, parent, following rest id after⟩ :: unlinked parent after (id + 1) rest
  | id, .ifThen _ _ rest | id, .ifElse _ _ _ rest =>
    ⟨.cond none none, parent, following rest id after⟩ :: unlinked parent after (id + 1) rest

/-- The sequences nested in a sequence, in order. -/
def arms (after : Option NodeId) : NodeId → Code → List Pending
  | _, .nil => []
  | id, .op _ rest => arms after (id + 1) rest
  | id, .block _ body rest | id, .loop _ body rest | id, .ifThen _ body rest =>
    ⟨body, some id, following rest id after, .arm id .body⟩ :: arms after (id + 1) rest
  | id, .ifElse _ body orElse rest =>
    ⟨body, some id, following rest id after, .arm id .body⟩ ::
      ⟨orElse, some id, following rest id after, .arm id .orElse⟩ :: arms after (id + 1) rest

def linked : Arm → Option NodeId → NodeOp → NodeOp
  | .body, first, .block _ => .block first
  | .body, first, .loop _ => .loop first
  | .body, first, .cond _ elseFirst => .cond first elseFirst
  | .orElse, first, .cond thenFirst _ => .cond thenFirst first
  | _, _, op => op

def link (a : Arena) (first : Option NodeId) : Slot → Arena
  | .entry => { a with entry := first }
  | .arm owner arm =>
    { a with nodes := a.nodes.modify owner fun node => { node with op := linked arm first node.op } }

/-- Lays out one sequence at the end of the nodes. -/
def add (a : Arena) (p : Pending) : Arena :=
  link { a with nodes := a.nodes ++ (unlinked p.parent p.after a.nodes.size p.code).toArray }
    (first p.code a.nodes.size) p.slot

/-- Waiting sequences take twice their size, so that also an empty one takes something. -/
def load (pending : List Pending) : Nat := (pending.map fun p => 2 * p.code.count + 1).sum

theorem load_cons (p : Pending) (pending : List Pending) : load (p :: pending) = 2 * p.code.count + 1 + load pending := by
  simp [load]

theorem load_append (first second : List Pending) : load (first ++ second) = load first + load second := by
  simp [load]

theorem load_arms (after : Option NodeId) (id : NodeId) (code : Code) : load (arms after id code) ≤ 2 * code.count := by
  induction code generalizing id with
  | nil => exact Nat.le_refl 0
  | op o rest ih =>
    have less := ih (id + 1)
    rw [arms, Code.count]
    omega
  | block t body rest _ ih | loop t body rest _ ih | ifThen t body rest _ ih =>
    have less := ih (id + 1)
    simp only [arms, load_cons, Code.count]
    omega
  | ifElse t body orElse rest _ _ ih =>
    have less := ih (id + 1)
    simp only [arms, load_cons, Code.count]
    omega

/-- Lays out all that waits. -/
def assemble (a : Arena) : List Pending → Arena
  | [] => a
  | p :: pending => assemble (add a p) (arms p.after a.nodes.size p.code ++ pending)
termination_by pending => load pending
decreasing_by
  have less := load_arms p.after a.nodes.size p.code
  rw [load_append, load_cons]
  omega

/-- The first node of a sequence has been entered at its owner, and the nodes are the same otherwise. -/
theorem link_arm (front others : List Node) (node : Node) (entry first : Option NodeId) (arm : Arm) :
    link ⟨(front ++ node :: others).toArray, entry⟩ first (.arm front.length arm) =
      ⟨(front ++ { node with op := linked arm first node.op } :: others).toArray, entry⟩ := by
  simp [link, List.modify_eq_take_drop]

theorem unlinked_length (parent after : Option NodeId) (id : NodeId) (code : Code) :
    (unlinked parent after id code).length = code.length := by
  induction code generalizing id <;> simp_all [unlinked, Code.length]

/-- The sequences nested in the code get their turn before all others that wait, and take their place at the end of the
nodes. Between the nodes of the code and the end there may be those of other sequences. -/
def Served (code : Code) : Prop := ∀ parent after entry front behind pending,
  assemble ⟨(front ++ (unlinked parent after front.length code ++ behind)).toArray, entry⟩
      (arms after front.length code ++ pending) =
    assemble ⟨(front ++ (heads parent after front.length (front.length + code.length + behind.length) code ++
      (behind ++ nested after front.length (front.length + code.length + behind.length) code))).toArray, entry⟩ pending

/-- One arm of a node, with all that is nested in it. -/
theorem assemble_arm {body : Code} (served : Served body) (front others : List Node) (node : Node)
    (entry next : Option NodeId) (arm : Arm) (pending : List Pending) :
    assemble ⟨(front ++ node :: others).toArray, entry⟩
        (⟨body, some front.length, next, .arm front.length arm⟩ :: pending) =
      assemble ⟨(front ++ { node with op := linked arm (first body (front.length + (others.length + 1))) node.op } ::
        (others ++ layout (some front.length) next (front.length + (others.length + 1)) body)).toArray, entry⟩ pending := by
  have rest := served (some front.length) next entry
    (front ++ { node with op := linked arm (first body (front.length + (others.length + 1))) node.op } :: others) [] pending
  simp only [List.length_append, List.length_cons, List.append_nil, List.nil_append, List.length_nil, Nat.add_zero,
    List.append_assoc, List.cons_append] at rest
  rw [assemble, add]
  simp only [List.append_toArray, List.append_assoc, List.cons_append, link_arm, List.size_toArray, List.length_append,
    List.length_cons]
  rw [rest, layout]

/-- What is nested in the code behind a node that is known in full. -/
theorem assemble_behind {rest : Code} (served : Served rest) (parent after entry : Option NodeId)
    (front behind : List Node) (node : Node) (pending : List Pending) {below : Nat}
    (fits : front.length + 1 + rest.length + behind.length = below) :
    assemble ⟨(front ++ node :: (unlinked parent after (front.length + 1) rest ++ behind)).toArray, entry⟩
        (arms after (front.length + 1) rest ++ pending) =
      assemble ⟨(front ++ node :: (heads parent after (front.length + 1) below rest ++
        (behind ++ nested after (front.length + 1) below rest))).toArray, entry⟩ pending := by
  subst fits
  have later := served parent after entry (front ++ [node]) behind pending
  simpa only [List.length_append, List.length_singleton, List.append_assoc, List.singleton_append] using later

theorem served (code : Code) : Served code := by
  induction code with
  | nil =>
    intro parent after entry front behind pending
    simp [unlinked, arms, heads, nested]
  | op o rest ih =>
    intro parent after entry front behind pending
    have fits : front.length + 1 + rest.length + behind.length = front.length + (rest.length + 1) + behind.length := by
      omega
    simp only [unlinked, arms, heads, nested, Code.length, List.cons_append]
    exact assemble_behind ih _ _ _ _ _ _ _ fits
  | block t body rest ihBody ihRest | loop t body rest ihBody ihRest | ifThen t body rest ihBody ihRest =>
    intro parent after entry front behind pending
    -- the first number behind the nodes so far, and the one behind those of the body
    have ends : front.length + (rest.length + behind.length + 1) = front.length + (rest.length + 1) + behind.length := by
      omega
    have fits : front.length + 1 + rest.length + (behind.length + body.count) =
        front.length + (rest.length + 1) + behind.length + body.count := by omega
    simp only [unlinked, arms, List.cons_append]
    rw [assemble_arm ihBody, List.append_assoc, assemble_behind ihRest _ _ _ _ _ _ _ rfl]
    simp only [List.length_append, unlinked_length, layout_length, ends, fits]
    simp only [linked, layout, heads, nested, Code.length, List.append_assoc, List.cons_append]
  | ifElse t body orElse rest ihBody ihElse ihRest =>
    intro parent after entry front behind pending
    have ends : front.length + (rest.length + behind.length + 1) = front.length + (rest.length + 1) + behind.length := by
      omega
    have between : front.length + (rest.length + (behind.length + body.count) + 1) =
        front.length + (rest.length + 1) + behind.length + body.count := by omega
    have fits : front.length + 1 + rest.length + (behind.length + body.count + orElse.count) =
        front.length + (rest.length + 1) + behind.length + body.count + orElse.count := by omega
    simp only [unlinked, arms, List.cons_append]
    rw [assemble_arm ihBody, assemble_arm ihElse, List.append_assoc, List.append_assoc,
      assemble_behind ihRest _ _ _ _ _ _ _ rfl]
    simp only [List.length_append, unlinked_length, layout_length, ends, between, fits]
    simp only [linked, layout, heads, nested, Code.length, List.append_assoc, List.cons_append]

/-- The worklist ends with the nodes that the code is compiled to. -/
theorem assemble_eq_compile (code : Code) : assemble ⟨#[], none⟩ [⟨code, none, none, .entry⟩] = compile code := by
  have rest := served code none none (first code 0) [] [] []
  simp only [List.nil_append, List.append_nil, List.length_nil, Nat.zero_add, Nat.add_zero] at rest
  rw [assemble, add]
  simp only [link, List.size_toArray, List.length_nil, List.append_toArray, List.nil_append, List.append_nil]
  rw [rest, assemble, compile, layout, Nat.zero_add]

end WasmMachine.Proofs.Worklist

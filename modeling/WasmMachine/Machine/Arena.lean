import WasmMachine.Instruction.Basic
import WasmMachine.Machine.Trap

/-! The runnable form of code: all instructions in one array of nodes, numbered so that the nodes of
a sequence follow each other and the sequences nested in it come after them, in order. A node knows
the node that owns its sequence and the node that runs after it. -/

namespace WasmMachine

/-- The number of a node. -/
abbrev NodeId := Nat

/-- What a node does. A nested sequence is named by its first node, and by none when it is empty or
missing. -/
inductive NodeOp where
  | op (op : Op)
  | block (first : Option NodeId)
  | loop (first : Option NodeId)
  | cond (thenFirst elseFirst : Option NodeId)
  deriving DecidableEq, Repr

structure Node where
  op : NodeOp
  /-- The node that owns the sequence in which this one stands. -/
  parent : Option NodeId
  /-- The node that runs next when control falls through. -/
  next : Option NodeId
  deriving DecidableEq, Repr

structure Arena where
  nodes : Array Node
  entry : Option NodeId
  deriving DecidableEq, Repr

namespace Arena

/-- The first node of a sequence that is laid out from `start` on. -/
def first (code : Code) (start : NodeId) : Option NodeId := if code.isEmpty then none else some start

/-- The node after `id` in its sequence; the last one continues at `after`. -/
def following (rest : Code) (id : NodeId) (after : Option NodeId) : Option NodeId :=
  if rest.isEmpty then after else some (id + 1)

/-- The nodes of a sequence itself. `id` is the number of its first node and `below` that of the first
node nested in it. -/
def heads (parent after : Option NodeId) : (id below : NodeId) → Code → List Node
  | _, _, .nil => []
  | id, below, .op o rest =>
    ⟨.op o, parent, following rest id after⟩ :: heads parent after (id + 1) below rest
  | id, below, .block _ body rest =>
    ⟨.block (first body below), parent, following rest id after⟩ ::
      heads parent after (id + 1) (below + body.count) rest
  | id, below, .loop _ body rest =>
    ⟨.loop (first body below), parent, following rest id after⟩ ::
      heads parent after (id + 1) (below + body.count) rest
  | id, below, .ifThen _ body rest =>
    ⟨.cond (first body below) none, parent, following rest id after⟩ ::
      heads parent after (id + 1) (below + body.count) rest
  | id, below, .ifElse _ body orElse rest =>
    ⟨.cond (first body below) (first orElse (below + body.count)), parent, following rest id after⟩ ::
      heads parent after (id + 1) (below + body.count + orElse.count) rest

/-- The nodes nested in a sequence: each nested sequence with all that is nested in it, in order. -/
def nested (after : Option NodeId) : (id below : NodeId) → Code → List Node
  | _, _, .nil => []
  | id, below, .op _ rest => nested after (id + 1) below rest
  | id, below, .block _ body rest | id, below, .loop _ body rest | id, below, .ifThen _ body rest =>
    let next := following rest id after
    heads (some id) next below (below + body.length) body ++
      (nested next below (below + body.length) body ++ nested after (id + 1) (below + body.count) rest)
  | id, below, .ifElse _ body orElse rest =>
    let next := following rest id after
    let other := below + body.count
    heads (some id) next below (below + body.length) body ++
      (nested next below (below + body.length) body ++
        (heads (some id) next other (other + orElse.length) orElse ++
          (nested next other (other + orElse.length) orElse ++
            nested after (id + 1) (other + orElse.count) rest)))

/-- A sequence and all that is nested in it, numbered from `start` on. Control goes to `after` at its
end. -/
def layout (parent after : Option NodeId) (start : NodeId) (code : Code) : List Node :=
  heads parent after start (start + code.length) code ++ nested after start (start + code.length) code

def compile (code : Code) : Arena := ⟨(layout none none 0 code).toArray, first code 0⟩

def size (a : Arena) : Nat := a.nodes.size

def isEmpty (a : Arena) : Bool := a.nodes.isEmpty

/-- The structured instruction that a label refers to: label 0 is the innermost one around, which is
given. -/
def enclosing (a : Arena) : Option NodeId → (label : Nat) → Option Node
  | none, _ => none
  | some id, 0 => a.nodes[id]?
  | some id, label + 1 => a.enclosing (a.nodes[id]?.bind Node.parent) label

/-- Where a branch taken at a node continues. A loop starts over; other instructions are left. -/
def branchTarget (a : Arena) (source : NodeId) (label : UInt32) : Except Trap (Option NodeId) :=
  match a.enclosing (a.nodes[source]?.bind Node.parent) label.toNat with
  | none => .error (.unresolvedBranch label)
  | some node =>
    match node.op with
    | .loop first => .ok first
    | _ => .ok node.next

end Arena

/-- Code with its runnable form. -/
structure Program where
  code : Code
  arena : Arena
  compiled : arena = Arena.compile code

/-- Compiles code. -/
def Program.ofCode (code : Code) : Program := ⟨code, Arena.compile code, rfl⟩

end WasmMachine

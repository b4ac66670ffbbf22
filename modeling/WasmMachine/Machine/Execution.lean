import WasmMachine.Machine.Operation

/-! Running compiled code. Each step runs one node and gives the next one; a body ends when there is
none. Every node costs one unit of fuel on the way to the end of its body, and a called body gets
what its caller has left. -/

namespace WasmMachine

namespace NodeOp

def mnemonic : NodeOp → String
  | op o => o.mnemonic
  | block _ => "block"
  | loop _ => "loop"
  | cond _ _ => "if"

end NodeOp

namespace Arena

/-- The node after an instruction that stands at `id`. -/
def follow (a : Arena) (id : NodeId) (next : Option NodeId) : Jump → Except Trap (Option NodeId)
  | .next => .ok next
  | .branch label => a.branchTarget id label
  | .leave => .ok none

/-- What a node does, and the node after it. An empty nested sequence is passed over. -/
def act (caller : Caller) (a : Arena) (id : NodeId) (node : Node) : Run (Option NodeId) :=
  match node.op with
  | .op o => do
    let jump ← o.run caller
    Run.lift (a.follow id node.next jump)
  | .block first | .loop first => return first <|> node.next
  | .cond thenFirst elseFirst => do
    if ← Run.onStack OperandStack.popCondition then return thenFirst <|> node.next
    else return elseFirst <|> node.next

/-- Runs one node. -/
def step (caller : Caller) (a : Arena) (id : NodeId) (node : Node) : Run (Option NodeId) := do
  Run.noteExecuted node.op.mnemonic
  a.act caller id node

/-- Runs from a node to the end of the body. -/
def runFrom : (fuel : Nat) → Arena → Option NodeId → Run Unit
  | _, _, none => return ()
  | 0, _, some _ => throw .outOfFuel
  | fuel + 1, a, some id => do
    Run.consumeStep
    match a.nodes[id]? with
    | none => return ()
    | some node =>
      let next ← a.step (Call.invoke fun p => runFrom fuel p.arena p.arena.entry) id node
      runFrom fuel a next

end Arena

/-- Runs a body in the innermost frame. -/
def Program.execute (fuel : Nat) (p : Program) : Run Unit := Arena.runFrom fuel p.arena p.arena.entry

/-- Calls a function with arguments; see `Call.invoke`. -/
def Function.invoke (fuel : Nat) : Caller := Call.invoke (Program.execute fuel)

/-- The value of a constant expression, which runs in an empty frame. -/
def Code.evaluate (fuel : Nat) (code : Code) (type : ValueType) : Run Value := do
  Run.inFrame {} ((Program.ofCode code).execute fuel)
  Run.onStack (OperandStack.popTyped type)

end WasmMachine

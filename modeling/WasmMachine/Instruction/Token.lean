import WasmMachine.Instruction.Text

/-! Code as a flat list of tokens, in which `end` closes a nested sequence and `else` stands between
the branches of an `if`. The whole sequence itself is not closed. -/

namespace WasmMachine

inductive Token where
  | op (op : Op)
  | block (type : BlockType)
  | loop (type : BlockType)
  | cond (type : BlockType)
  | orElse
  | close
  deriving DecidableEq, Repr

def Token.mnemonic : Token → String
  | op o => o.mnemonic
  | block _ => "block"
  | loop _ => "loop"
  | cond _ => "if"
  | orElse => "else"
  | close => "end"

namespace Code

def toTokens : Code → List Token
  | nil => []
  | op o rest => .op o :: rest.toTokens
  | block t body rest => .block t :: (body.toTokens ++ .close :: rest.toTokens)
  | loop t body rest => .loop t :: (body.toTokens ++ .close :: rest.toTokens)
  | ifThen t body rest => .cond t :: (body.toTokens ++ .close :: rest.toTokens)
  | ifElse t body orElse rest =>
    .cond t :: (body.toTokens ++ .orElse :: (orElse.toTokens ++ .close :: rest.toTokens))

/-- A sequence that is put together from its end, and the second branch that follows it. -/
structure Pending where
  code : Code := .nil
  orElse : Option Code := none

/-- Takes in the token that stands before the pending sequences, the innermost of which comes first. -/
def prepend : Token → List Pending → Option (List Pending)
  | .op o, ⟨rest, e⟩ :: outer => some (⟨.op o rest, e⟩ :: outer)
  | .close, outer => some ({} :: outer)
  | .orElse, ⟨code, none⟩ :: outer => some (⟨.nil, some code⟩ :: outer)
  | .block t, ⟨body, none⟩ :: ⟨rest, e⟩ :: outer => some (⟨.block t body rest, e⟩ :: outer)
  | .loop t, ⟨body, none⟩ :: ⟨rest, e⟩ :: outer => some (⟨.loop t body rest, e⟩ :: outer)
  | .cond t, ⟨body, none⟩ :: ⟨rest, e⟩ :: outer => some (⟨.ifThen t body rest, e⟩ :: outer)
  | .cond t, ⟨body, some other⟩ :: ⟨rest, e⟩ :: outer => some (⟨.ifElse t body other rest, e⟩ :: outer)
  | _, _ => none

/-- What is pending before a list of tokens. -/
def pending (tokens : List Token) : Option (List Pending) :=
  tokens.foldr (fun token rest => rest.bind (prepend token)) (some [{}])

/-- The code that the tokens are, if they are balanced. -/
def ofTokens? (tokens : List Token) : Option Code :=
  match pending tokens with
  | some [⟨code, none⟩] => some code
  | _ => none

end Code

end WasmMachine

import WasmMachine.Module.Types

/-! Instructions. A sequence of instructions is a tree: `block`, `loop` and `if` own the sequences
nested in them, and the bytes that close a sequence are implied by the shape of the tree. -/

namespace WasmMachine

/-- The immediates of a memory access. The alignment is a hint, as a power of two. -/
structure MemArg where
  align : UInt32
  offset : UInt32
  deriving DecidableEq, Repr

inductive BlockType where
  | empty
  | value (type : ValueType)
  deriving DecidableEq, Repr

/-- The operations on two operands. -/
inductive BinaryOp where
  | ltS | geS | geU | add | remS
  deriving DecidableEq, Repr

/-- An instruction without nested sequences. -/
inductive Op where
  | unreachable
  | nop
  | br (label : UInt32)
  | brIf (label : UInt32)
  | brTable (labels : List UInt32) (default : UInt32)
  | ret
  | call (function : UInt32)
  | callIndirect (type table : UInt32)
  | localGet (index : UInt32)
  | localSet (index : UInt32)
  | localTee (index : UInt32)
  | globalGet (index : UInt32)
  | globalSet (index : UInt32)
  | load (arg : MemArg)
  | store (arg : MemArg)
  | const (value : Int32)
  | eqz
  | binary (op : BinaryOp)
  deriving DecidableEq, Repr

/-- A sequence of instructions. Each constructor puts one instruction in front of the rest. An `if`
without an `else` and an `if` with an empty one are different instructions. -/
inductive Code where
  | nil
  | op (op : Op) (rest : Code)
  | block (type : BlockType) (body rest : Code)
  | loop (type : BlockType) (body rest : Code)
  | ifThen (type : BlockType) (body rest : Code)
  | ifElse (type : BlockType) (body orElse rest : Code)
  deriving DecidableEq, Repr

/-- One instruction, with the sequences nested in it. -/
inductive Instruction where
  | op (op : Op)
  | block (type : BlockType) (body : Code)
  | loop (type : BlockType) (body : Code)
  | ifThen (type : BlockType) (body : Code)
  | ifElse (type : BlockType) (body orElse : Code)
  deriving DecidableEq, Repr

namespace Code

def cons : Instruction → Code → Code
  | .op o, rest => op o rest
  | .block t body, rest => block t body rest
  | .loop t body, rest => loop t body rest
  | .ifThen t body, rest => ifThen t body rest
  | .ifElse t body orElse, rest => ifElse t body orElse rest

/-- The instructions of the sequence itself, in order. -/
def toList : Code → List Instruction
  | nil => []
  | op o rest => .op o :: rest.toList
  | block t body rest => .block t body :: rest.toList
  | loop t body rest => .loop t body :: rest.toList
  | ifThen t body rest => .ifThen t body :: rest.toList
  | ifElse t body orElse rest => .ifElse t body orElse :: rest.toList

def ofList (instructions : List Instruction) : Code := instructions.foldr cons nil

/-- How many instructions stand in the sequence itself. -/
def length : Code → Nat
  | nil => 0
  | op _ rest | block _ _ rest | loop _ _ rest | ifThen _ _ rest | ifElse _ _ _ rest => rest.length + 1

def isEmpty : Code → Bool
  | nil => true
  | _ => false

/-- How many instructions there are, nested ones included. -/
def count : Code → Nat
  | nil => 0
  | op _ rest => rest.count + 1
  | block _ body rest | loop _ body rest | ifThen _ body rest => body.count + rest.count + 1
  | ifElse _ body orElse rest => body.count + orElse.count + rest.count + 1

/-- How deep sequences are nested. -/
def depth : Code → Nat
  | nil => 0
  | op _ rest => rest.depth
  | block _ body rest | loop _ body rest | ifThen _ body rest => max (body.depth + 1) rest.depth
  | ifElse _ body orElse rest => max (max (body.depth + 1) (orElse.depth + 1)) rest.depth

/-- All instructions with those nested in them after each, the branch taken first before the other. -/
def preorder : Code → List Instruction
  | nil => []
  | op o rest => .op o :: rest.preorder
  | block t body rest => .block t body :: (body.preorder ++ rest.preorder)
  | loop t body rest => .loop t body :: (body.preorder ++ rest.preorder)
  | ifThen t body rest => .ifThen t body :: (body.preorder ++ rest.preorder)
  | ifElse t body orElse rest =>
    .ifElse t body orElse :: (body.preorder ++ orElse.preorder ++ rest.preorder)

end Code

end WasmMachine

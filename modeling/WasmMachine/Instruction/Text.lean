import WasmMachine.Instruction.Basic

/-! The text form of single instructions. Nested sequences are not printed. -/

namespace WasmMachine

def BinaryOp.mnemonic : BinaryOp → String
  | ltS => "i32.lt_s"
  | geS => "i32.ge_s"
  | geU => "i32.ge_u"
  | add => "i32.add"
  | remS => "i32.rem_s"

def Op.mnemonic : Op → String
  | unreachable => "unreachable"
  | nop => "nop"
  | br _ => "br"
  | brIf _ => "br_if"
  | brTable _ _ => "br_table"
  | ret => "return"
  | call _ => "call"
  | callIndirect _ _ => "call_indirect"
  | localGet _ => "local.get"
  | localSet _ => "local.set"
  | localTee _ => "local.tee"
  | globalGet _ => "global.get"
  | globalSet _ => "global.set"
  | load _ => "i32.load"
  | store _ => "i32.store"
  | const _ => "i32.const"
  | eqz => "i32.eqz"
  | binary op => op.mnemonic

/-- A zero offset is left out. The alignment is shown as a number of bytes, and exponents that a
64-bit word cannot hold as the largest one that it can. -/
def MemArg.text (arg : MemArg) : String :=
  let offset := if arg.offset = 0 then "" else s!" offset={arg.offset.toNat}"
  offset ++ s!" align={1 <<< min arg.align.toNat 63}"

def Op.immediates : Op → String
  | br label | brIf label => s!" {label.toNat}"
  | brTable labels default =>
    String.join (labels.map fun label => s!" {label.toNat}") ++ s!" {default.toNat}"
  | callIndirect type table => s!" {table.toNat} (type {type.toNat})"
  | call index | localGet index | localSet index | localTee index | globalGet index
  | globalSet index => s!" {index.toNat}"
  | load arg | store arg => arg.text
  | const value => s!" {value.toInt}"
  | unreachable | nop | ret | eqz | binary _ => ""

def BlockType.text : BlockType → String
  | empty => ""
  | value t => " (result " ++ t.text ++ ")"

def Instruction.text : Instruction → String
  | .op o => o.mnemonic ++ o.immediates
  | .block t _ => "block" ++ t.text
  | .loop t _ => "loop" ++ t.text
  | .ifThen t _ | .ifElse t _ _ => "if" ++ t.text

end WasmMachine

import WasmMachine.Machine.Value
import WasmMachine.Module.Text

/-! What the machine reports while it works: events of graded importance, and the calls that reach
the host. Events less important than asked for are not kept. -/

namespace WasmMachine

inductive Level where
  | error | warn | info | debug | trace
  deriving DecidableEq, Repr

namespace Level

def rank : Level → Nat
  | error => 0
  | warn => 1
  | info => 2
  | debug => 3
  | trace => 4

def text : Level → String
  | error => "error"
  | warn => "warn"
  | info => "info"
  | debug => "debug"
  | trace => "trace"

end Level

inductive Event where
  | moduleHeader (magic version : Word)
  | sectionHeader (id : UInt8) (size : UInt32)
  | multipleResults (type : FunctionType)
  | called (type : FunctionType) (depth : Nat)
  | calledHost (type : FunctionType)
  | executed (mnemonic : String)
  | importsResolved (functions tables memories globals : Nat)
  | functionsDefined (count : Nat)
  | globalsInitialized (count : Nat)
  | exportIgnored (ignored : Export)
  | startInvoked (function : UInt32)
  | elementSkipped (segment : Nat)
  | elementApplied (segment count : Nat) (table offset : UInt32)
  | dataSkipped (segment : Nat)
  | dataApplied (segment size : Nat) (memory : UInt32) (offset : Int32)
  | exportInvoked (name : String) (type : FunctionType)
  deriving DecidableEq, Repr

namespace Event

def level : Event → Level
  | multipleResults _ => .warn
  | called _ _ | calledHost _ | executed _ => .trace
  | _ => .debug

def text : Event → String
  | moduleHeader magic version =>
    "module magic = " ++ Hex.encode magic.toList ++ " version = " ++ Hex.encode version.toList
  | sectionHeader id size => s!"section #{id.toNat} len = {size.toNat}"
  | multipleResults type => type.text ++ ": multiple results are not supported"
  | called type depth => "call " ++ type.text ++ s!" depth {depth}"
  | calledHost type => "call host " ++ type.text
  | executed mnemonic => "invoke " ++ mnemonic
  | importsResolved functions tables memories globals =>
    s!"imports resolved: {functions} functions, {tables} tables, {memories} memories, {globals} globals"
  | functionsDefined count => s!"{count} functions defined"
  | globalsInitialized count => s!"{count} globals initialized"
  | exportIgnored e => "ignoring export " ++ e.name ++ ": " ++ e.target
  | startInvoked function => s!"invoking start function {function.toNat}"
  | elementSkipped segment => s!"skipping non-active element segment {segment}"
  | elementApplied segment count table offset =>
    s!"element segment {segment}: {count} functions at table {table.toNat}[{offset.toNat}]"
  | dataSkipped segment => s!"skipping passive data segment {segment}"
  | dataApplied segment size memory offset =>
    s!"data segment {segment}: {size} bytes at memory {memory.toNat}[{offset.toInt}]"
  | exportInvoked name type => "invoke " ++ name ++ type.text

/-- An event as a line: its level and its text. -/
def line (e : Event) : String := e.level.text ++ " " ++ e.text

end Event

/-- A call of a host function: its name and its arguments. -/
structure HostCall where
  name : String
  args : List Value
  deriving DecidableEq, Repr

structure Journal where
  /-- The least important level that is kept; none keeps nothing. -/
  threshold : Option Level := none
  events : Array Event := #[]
  hostCalls : Array HostCall := #[]
  deriving DecidableEq, Repr

namespace Journal

def keeps (j : Journal) (e : Event) : Bool :=
  match j.threshold with
  | some level => e.level.rank ≤ level.rank
  | none => false

def note (j : Journal) (e : Event) : Journal :=
  if j.keeps e then { j with events := j.events.push e } else j

def noteHostCall (j : Journal) (call : HostCall) : Journal :=
  { j with hostCalls := j.hostCalls.push call }

end Journal

end WasmMachine

import WasmMachine.Module.Basic

/-! Overviews of modules, sections and imports as text. -/

namespace WasmMachine

def Import.text (i : Import) : String :=
  let what :=
    match i.desc with
    | .function type => s!"func sig={type.toNat}"
    | .table type => "table " ++ type.refType.text ++ " " ++ type.limits.text
    | .memory limits => "memory " ++ limits.text
    | .global type => "global " ++ type.text
  what ++ " <- " ++ i.source ++ "." ++ i.name

/-- What is exported, without the name: `Memory(0)`. -/
def Export.target (e : Export) : String := e.kind.label ++ s!"({e.index.toNat})"

namespace Section

def name : Section → String
  | custom _ _ => "custom"
  | types _ => "type"
  | imports _ => "import"
  | functions _ => "function"
  | tables _ => "table"
  | memories _ => "memory"
  | globals _ => "global"
  | exports _ => "export"
  | start _ => "start"
  | elements _ => "element"
  | bodies _ => "code"
  | data _ => "data"
  | dataCount _ => "data count"

/-- How many bytes of a custom section are shown. -/
def previewSize : Nat := 16

def preview (bytes : List UInt8) : String :=
  let more := if previewSize < bytes.length then "..." else ""
  s!"{bytes.length} bytes [" ++ Hex.encode (bytes.take previewSize) ++ more ++ "]"

def details : Section → String
  | custom name bytes => "'" ++ name ++ "' " ++ preview bytes
  | types items => s!"count = {items.length}"
  | imports items => s!"count = {items.length}"
  | functions items => s!"count = {items.length}"
  | tables items => s!"count = {items.length}"
  | memories items => s!"count = {items.length}"
  | globals items => s!"count = {items.length}"
  | exports items => s!"count = {items.length}"
  | start function => s!"func = {function.toNat}"
  | elements items => s!"count = {items.length}"
  | bodies items => s!"count = {items.length}"
  | data items => s!"count = {items.length}"
  | dataCount count => s!"count = {count.toNat}"

def text (s : Section) : String := s!"#{s.id.toNat} " ++ s.name ++ " " ++ s.details

end Section

/-- A line for the header and one for each section. -/
def Module.text (m : Module) : String :=
  "module magic = " ++ Hex.encode m.magic.toList ++ " version = " ++ Hex.encode m.version.toList ++ "\n" ++
    String.join (m.sections.map fun s => "  " ++ s.text ++ "\n")

end WasmMachine

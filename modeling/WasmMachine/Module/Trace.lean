import WasmMachine.Machine.Journal
import WasmMachine.Module.Reader

/-! The events of loading a module: its header, and each section that the input is long enough for,
up to the first failure. -/

namespace WasmMachine.Module

variable {σ : Type} [Cursor σ]

def sectionEvents : (fuel : Nat) → σ → List Event
  | 0, _ => []
  | fuel + 1, c =>
    if Cursor.remaining c = 0 then []
    else
      match Section.readHeader c with
      | .error _ _ => []
      | .ok (id, size) c =>
        .sectionHeader id size ::
          match Section.readBody id size c with
          | .error _ _ => []
          | .ok _ c => sectionEvents fuel c

/-- What loading a module from a cursor reports. -/
def loadEvents (c : σ) : List Event :=
  match readPreamble c with
  | .error _ _ => []
  | .ok (magic, version) c => .moduleHeader magic version :: sectionEvents (Cursor.remaining c) c

end WasmMachine.Module

import WasmMachine.Machine.Config
import WasmMachine.Text.Json

/-! Reading limits from JSON text: an object, in which unknown members are skipped and a known one may
stand only once, or an array that gives the limits in order. What is missing keeps its default. -/

namespace WasmMachine.Config

open Json

/-- The limits found so far. -/
structure Draft where
  depth : Option Nat := none
  stack : Option (Option Nat) := none
  budget : Option (Option Nat) := none

def Draft.finish (d : Draft) : Config :=
  let base : Config := {}
  ⟨d.depth.getD base.maxCallDepth, d.stack.getD base.maxStackBytes,
    d.budget.getD base.instructionBudget⟩

/-- The value of a member that stands behind its name. -/
def memberValue (name : String) (d : Draft) (text : List Char) : Option (Draft × List Char) :=
  if name = "max_call_depth" then
    if d.depth.isSome then none else (word text).map fun (n, rest) => ({ d with depth := some n }, rest)
  else if name = "max_stack_bytes" then
    if d.stack.isSome then none
    else (wordOrNull text).map fun (n, rest) => ({ d with stack := some n }, rest)
  else if name = "instruction_budget" then
    if d.budget.isSome then none
    else (wordOrNull text).map fun (n, rest) => ({ d with budget := some n }, rest)
  else (skipValue (fuelFor text) text).map fun rest => (d, rest)

/-- Members up to the closing brace. Each takes characters, so the length of the text is fuel. -/
def members : (fuel : Nat) → Draft → List Char → Option (Draft × List Char)
  | 0, _, _ => none
  | fuel + 1, d, text => do
    let (name, rest) ← key text
    let rest ← expect ':' rest
    let (d, rest) ← memberValue (String.ofList name) d rest
    match skipBlank rest with
    | ',' :: rest => members fuel d rest
    | '\x7d' :: rest => some (d, rest)
    | _ => none

/-- A comma and more, or the end of the array. -/
def more (text : List Char) : Option (Option (List Char) × List Char) :=
  match skipBlank text with
  | ',' :: rest => some (some rest, [])
  | ']' :: rest => some (none, rest)
  | _ => none

/-- The limits in order, up to the closing bracket; the bracket may come after any of them. -/
def elements (text : List Char) : Option (Draft × List Char) := do
  let (depth, rest) ← word text
  match ← more rest with
  | (none, rest) => return (⟨some depth, none, none⟩, rest)
  | (some rest, _) =>
    let (stack, rest) ← wordOrNull rest
    match ← more rest with
    | (none, rest) => return (⟨some depth, some stack, none⟩, rest)
    | (some rest, _) =>
      let (budget, rest) ← wordOrNull rest
      let rest ← expect ']' rest
      return (⟨some depth, some stack, some budget⟩, rest)

def draft (text : List Char) : Option (Draft × List Char) :=
  match skipBlank text with
  | '\x7b' :: rest =>
    match skipBlank rest with
    | '\x7d' :: rest => some ({}, rest)
    | rest => members (rest.length + 1) {} rest
  | '[' :: rest =>
    match skipBlank rest with
    | ']' :: rest => some ({}, rest)
    | rest => elements rest
  | _ => none

/-- The limits that a text gives, or `none` when it is not such a text. -/
def ofJson? (text : String) : Option Config := do
  let (d, rest) ← draft text.toList
  if (skipBlank rest).isEmpty then return d.finish else none

end WasmMachine.Config

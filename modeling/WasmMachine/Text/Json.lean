import WasmMachine.Text.Hex

/-! Recognising JSON text. The functions here step over one piece of text and return what follows
it, or `none` when the text does not start with such a piece. -/

namespace WasmMachine.Json

def isBlank (c : Char) : Bool := c == ' ' || c == '\n' || c == '\t' || c == '\r'

def skipBlank (text : List Char) : List Char := text.dropWhile isBlank

/-- Steps over a character, with blanks in front of it. -/
def expect (c : Char) (text : List Char) : Option (List Char) :=
  match skipBlank text with
  | d :: rest => if c = d then some rest else none
  | [] => none

/-- What a string literal is made of: characters, and UTF-16 code units written as escapes. -/
inductive Piece where
  | char (c : Char)
  | unit (code : Nat)
  deriving DecidableEq, Repr

def simpleEscape? : Char → Option Char
  | '"' => some '"'
  | '\\' => some '\\'
  | '/' => some '/'
  | 'b' => some '\x08'
  | 'f' => some '\x0c'
  | 'n' => some '\n'
  | 'r' => some '\r'
  | 't' => some '\t'
  | _ => none

def hexCode? (a b c d : Char) : Option Nat := do
  let a ← Hex.digit? a
  let b ← Hex.digit? b
  let c ← Hex.digit? c
  let d ← Hex.digit? d
  return ((a * 16 + b) * 16 + c) * 16 + d

/-- The inside of a string literal up to the closing quote. Control characters have to be escaped. -/
def literal : List Char → Option (List Piece × List Char)
  | [] => none
  | '"' :: rest => some ([], rest)
  | '\\' :: 'u' :: a :: b :: c :: d :: rest => do
    let code ← hexCode? a b c d
    let (pieces, rest) ← literal rest
    return (.unit code :: pieces, rest)
  | '\\' :: e :: rest => do
    let char ← simpleEscape? e
    let (pieces, rest) ← literal rest
    return (.char char :: pieces, rest)
  | c :: rest => do
    if c.toNat < 0x20 ∨ c = '\\' then none
    else
      let (pieces, rest) ← literal rest
      return (.char c :: pieces, rest)

def isHighSurrogate (code : Nat) : Bool := 0xd800 ≤ code && code ≤ 0xdbff

def isLowSurrogate (code : Nat) : Bool := 0xdc00 ≤ code && code ≤ 0xdfff

/-- The characters that the pieces stand for. A surrogate has to be one of a pair. -/
def decodePieces : List Piece → Option (List Char)
  | [] => some []
  | .char c :: rest => (decodePieces rest).map (c :: ·)
  | .unit high :: rest =>
    if isHighSurrogate high then
      match rest with
      | .unit low :: rest =>
        if isLowSurrogate low then
          (decodePieces rest).map (Char.ofNat (0x10000 + (high - 0xd800) * 0x400 + (low - 0xdc00)) :: ·)
        else none
      | _ => none
    else if isLowSurrogate high then none
    else (decodePieces rest).map (Char.ofNat high :: ·)

/-- A member name, decoded. -/
def key (text : List Char) : Option (List Char × List Char) := do
  let rest ← expect '"' text
  let (pieces, rest) ← literal rest
  return (← decodePieces pieces, rest)

def isDigit (c : Char) : Bool := '0' ≤ c && c ≤ '9'

/-- At least one digit. -/
def skipDigits : List Char → Option (List Char)
  | c :: rest => if isDigit c then some (rest.dropWhile isDigit) else none
  | [] => none

/-- Digits that do not start with a zero, or a zero alone. -/
def skipInteger : List Char → Option (List Char)
  | '0' :: c :: rest => if isDigit c then none else some (c :: rest)
  | text => skipDigits text

def skipFraction : List Char → Option (List Char)
  | '.' :: rest => skipDigits rest
  | text => some text

def skipExponent : List Char → Option (List Char)
  | c :: rest =>
    if c = 'e' ∨ c = 'E' then
      match rest with
      | '+' :: rest => skipDigits rest
      | '-' :: rest => skipDigits rest
      | rest => skipDigits rest
    else some (c :: rest)
  | [] => some []

def skipNumber (text : List Char) : Option (List Char) := do
  let text := match text with | '-' :: rest => rest | text => text
  skipExponent (← skipFraction (← skipInteger text))

mutual

/-- Any value. Member names inside it are not decoded. -/
def skipValue : (fuel : Nat) → List Char → Option (List Char)
  | 0, _ => none
  | fuel + 1, text =>
    match skipBlank text with
    | '"' :: rest => (literal rest).map Prod.snd
    | '[' :: rest =>
      match skipBlank rest with
      | ']' :: rest => some rest
      | rest => skipItems fuel rest
    | '\x7b' :: rest =>
      match skipBlank rest with
      | '\x7d' :: rest => some rest
      | rest => skipMembers fuel rest
    | 'n' :: 'u' :: 'l' :: 'l' :: rest => some rest
    | 't' :: 'r' :: 'u' :: 'e' :: rest => some rest
    | 'f' :: 'a' :: 'l' :: 's' :: 'e' :: rest => some rest
    | rest => skipNumber rest

/-- Values between commas, up to the closing bracket. -/
def skipItems : (fuel : Nat) → List Char → Option (List Char)
  | 0, _ => none
  | fuel + 1, text => do
    let rest ← skipValue fuel text
    match skipBlank rest with
    | ',' :: rest => skipItems fuel rest
    | ']' :: rest => some rest
    | _ => none

/-- Members between commas, up to the closing brace. -/
def skipMembers : (fuel : Nat) → List Char → Option (List Char)
  | 0, _ => none
  | fuel + 1, text => do
    let rest ← expect '"' text
    let (_, rest) ← literal rest
    let rest ← expect ':' rest
    let rest ← skipValue fuel rest
    match skipBlank rest with
    | ',' :: rest => skipMembers fuel rest
    | '\x7d' :: rest => some rest
    | _ => none

end

/-- Enough fuel for a value in a text of the given length: each character is the start of at most
one value and one list of items. -/
def fuelFor (text : List Char) : Nat := 2 * text.length + 2

/-- A natural number below 2⁶⁴, written without sign, fraction and exponent. -/
def word (text : List Char) : Option (Nat × List Char) := do
  let text := skipBlank text
  let rest ← skipInteger text
  match rest with
  | c :: _ => if c = '.' ∨ c = 'e' ∨ c = 'E' then none
  | [] => pure ()
  let digits := text.take (text.length - rest.length)
  let n := digits.foldl (fun n c => 10 * n + (c.toNat - '0'.toNat)) 0
  if n < UInt64.size then return (n, rest) else none

/-- A number as above, or null. -/
def wordOrNull (text : List Char) : Option (Option Nat × List Char) :=
  match skipBlank text with
  | 'n' :: 'u' :: 'l' :: 'l' :: rest => some (none, rest)
  | text => (word text).map fun (n, rest) => (some n, rest)

end WasmMachine.Json

import WasmMachine.Text.Hex

/-! The ways in which reading the binary format can fail, and their texts. -/

namespace WasmMachine

inductive DecodeError where
  | unexpectedEof
  | integerOverflow
  | invalidMagic (found : List UInt8)
  | invalidSectionId (id : UInt8)
  | sectionTooShort (id : UInt8) (expected : UInt32) (actual : Nat)
  | invalidOpcode (opcode : UInt8)
  | nestingTooDeep (limit : Nat)
  | unexpectedElse
  | invalidFuncTypeTag (tag : UInt8)
  | invalidValueType (byte : UInt8)
  | invalidRefType (byte : UInt8)
  | invalidBlockType (byte : UInt8)
  | invalidImportKind (tag : UInt8)
  | invalidExportKind (tag : UInt8)
  | invalidLimits (tag : UInt8)
  | invalidMutability (byte : UInt8)
  | invalidElementFlags (flags : UInt32)
  | invalidElementKind (kind : UInt8)
  | invalidDataFlags (flags : UInt32)
  | invalidUtf8
  | trailingBytes (id : UInt8) (remaining : Nat)
  deriving DecidableEq, Repr

def DecodeError.message : DecodeError → String
  | .unexpectedEof => "Unexpected end of input"
  | .integerOverflow => "Integer representation too long or out of range"
  | .invalidMagic found => "Invalid magic number: " ++ Hex.encode found
  | .invalidSectionId id => s!"Invalid section id: {id.toNat}"
  | .sectionTooShort id expected actual =>
    s!"Section {id.toNat} is shorter than its declared size {expected.toNat} (got {actual})"
  | .invalidOpcode opcode => "Invalid opcode: " ++ Hex.byte opcode
  | .nestingTooDeep limit => s!"Structured instructions nested deeper than {limit}"
  | .unexpectedElse => "Unexpected else outside of an if"
  | .invalidFuncTypeTag tag => "Invalid function type tag: " ++ Hex.byte tag
  | .invalidValueType byte => "Invalid value type: " ++ Hex.byte byte
  | .invalidRefType byte => "Invalid reference type: " ++ Hex.byte byte
  | .invalidBlockType byte => "Invalid block type: " ++ Hex.byte byte
  | .invalidImportKind tag => "Invalid import kind: " ++ Hex.byte tag
  | .invalidExportKind tag => "Invalid export kind: " ++ Hex.byte tag
  | .invalidLimits tag => "Invalid limits tag: " ++ Hex.byte tag
  | .invalidMutability byte => "Invalid mutability: " ++ Hex.byte byte
  | .invalidElementFlags flags => s!"Invalid element segment flags: {flags.toNat}"
  | .invalidElementKind kind => "Invalid element kind: " ++ Hex.byte kind
  | .invalidDataFlags flags => s!"Invalid data segment flags: {flags.toNat}"
  | .invalidUtf8 => "Invalid UTF-8 in name"
  | .trailingBytes id remaining => s!"Trailing bytes after section {id.toNat}: {remaining}"

/-- The name of the kind of error, for reports that are read by programs. -/
def DecodeError.kind : DecodeError → String
  | .unexpectedEof => "UnexpectedEof"
  | .integerOverflow => "IntegerOverflow"
  | .invalidMagic _ => "InvalidMagic"
  | .invalidSectionId _ => "InvalidSectionId"
  | .sectionTooShort _ _ _ => "SectionTooShort"
  | .invalidOpcode _ => "InvalidOpcode"
  | .nestingTooDeep _ => "NestingTooDeep"
  | .unexpectedElse => "UnexpectedElse"
  | .invalidFuncTypeTag _ => "InvalidFuncTypeTag"
  | .invalidValueType _ => "InvalidValueType"
  | .invalidRefType _ => "InvalidRefType"
  | .invalidBlockType _ => "InvalidBlockType"
  | .invalidImportKind _ => "InvalidImportKind"
  | .invalidExportKind _ => "InvalidExportKind"
  | .invalidLimits _ => "InvalidLimits"
  | .invalidMutability _ => "InvalidMutability"
  | .invalidElementFlags _ => "InvalidElementFlags"
  | .invalidElementKind _ => "InvalidElementKind"
  | .invalidDataFlags _ => "InvalidDataFlags"
  | .invalidUtf8 => "InvalidUtf8"
  | .trailingBytes _ _ => "TrailingBytes"

end WasmMachine

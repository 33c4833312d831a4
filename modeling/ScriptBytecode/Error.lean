import ScriptBytecode.Opcode.Basic
import ScriptBytecode.Text.Hex

/-!
# Errors

Every way in which reading, building or writing a script can fail, as a cause, with one function
that words the cause for a reader.
-/

namespace ScriptBytecode

/-- A builder call made at a moment when it is not allowed. -/
inductive MisplacedCall where
  | functionInsideFunction
  | functionEndInsideInstruction
  | functionEndWithoutStart
  | labelInsideInstruction
  | labelOutsideFunction
  | instructionOutsideFunction
  | instructionInsideInstruction
  | instructionEndWithoutStart
  | emptyInstruction
  | referenceOutsideFunction
  | buildFinishedInsideFunction
  | codeFinishedInsideFunction
deriving DecidableEq, Repr

/-- The wording of a misplaced call. -/
def MisplacedCall.message : MisplacedCall → String
  | .functionInsideFunction => "function started inside another function"
  | .functionEndInsideInstruction => "function ended inside an instruction"
  | .functionEndWithoutStart => "function ended without being started"
  | .labelInsideInstruction => "label added inside an instruction"
  | .labelOutsideFunction => "label added outside of a function"
  | .instructionOutsideFunction => "instruction outside of a function"
  | .instructionInsideInstruction => "instruction started inside another instruction"
  | .instructionEndWithoutStart => "instruction ended without being started"
  | .emptyInstruction => "empty instruction"
  | .referenceOutsideFunction => "reference outside of a function"
  | .buildFinishedInsideFunction => "build finished inside a function"
  | .codeFinishedInsideFunction => "code finished inside a function"

/-- The integer ranges that listed operands are checked against. -/
inductive IntegerRange where
  | u8
  | i16
  | u16
  | u32
deriving DecidableEq, Repr

namespace IntegerRange

/-- The name of a range in messages. -/
def name : IntegerRange → String
  | .u8 => "u8"
  | .i16 => "i16"
  | .u16 => "u16"
  | .u32 => "u32"

/-- The least integer of a range. -/
def least : IntegerRange → Int
  | .i16 => -0x8000
  | _ => 0

/-- The greatest integer of a range. -/
def greatest : IntegerRange → Int
  | .u8 => 0xFF
  | .i16 => 0x7FFF
  | .u16 => 0xFFFF
  | .u32 => 0xFFFFFFFF

/-- Whether an integer lies in a range. -/
def holds (range : IntegerRange) (value : Int) : Bool :=
  range.least ≤ value ∧ value ≤ range.greatest

end IntegerRange

/-- What is wrong with the operands of a listed instruction. -/
inductive OperandFault where
  | wrongCount (expected : Nat)
  | wrongEnterCount
  | notInteger (text : String) (range : IntegerRange)
  | notWord (text : String)
  | notFloat (text : String)
  | notHash (text : String)
  | notCase (text : String)
deriving DecidableEq, Repr

/-- The wording of an operand fault. -/
def OperandFault.message : OperandFault → String
  | .wrongCount expected => s!"expected {expected} operands"
  | .wrongEnterCount => "expected 2 or 3 operands"
  | .notInteger text range => s!"'{text}' is not a valid {range.name}"
  | .notWord text => s!"'{text}' does not fit in 32 bits"
  | .notFloat text => s!"'{text}' is not a float"
  | .notHash text => s!"'{text}' is not a hash"
  | .notCase text => s!"case '{text}' is not 'value:target'"

/-- A part of a script container that a pointer leads to. -/
inductive Region where
  | codePages
  | statics
  | globalsPages
  | natives
  | name
  | stringPages
  | globalBlockHashes
deriving DecidableEq, Repr

/-- The name of a region in messages. -/
def Region.text : Region → String
  | .codePages => "code pages"
  | .statics => "statics"
  | .globalsPages => "globals pages"
  | .natives => "natives"
  | .name => "name"
  | .stringPages => "string pages"
  | .globalBlockHashes => "global block hashes"

/-- Data that does not have the form it should have. -/
inductive Malformation where
  | pastEndOfCode (ip size : Nat)
  | unknownMnemonic (text : String)
  | tooManyNatives
  | shortSegment (size : Nat)
  | unterminated (region : Region)
  | pagePastEnd (region : Region)
  | globalsTooLong (length : Nat)
  | stringTooLong (size : Nat)
  | stringOverlap (id : Nat)
  | badOperands (mnemonic : String) (operands : List String) (fault : OperandFault)
  | atItem (function : String) (index : Nat) (cause : Malformation)
deriving DecidableEq, Repr

/-- The wording of a malformation. -/
def Malformation.message : Malformation → String
  | .pastEndOfCode ip size =>
    s!"instruction pointer 0x{Text.address ip} is past the end of code (0x{Text.address size})"
  | .unknownMnemonic text => s!"unknown mnemonic '{text}'"
  | .tooManyNatives => "more than 65536 natives"
  | .shortSegment size => s!"system segment of {size} bytes is shorter than the script header"
  | .unterminated region => s!"unterminated {region.text}"
  | .pagePastEnd region => s!"{region.text} page extends past the system segment"
  | .globalsTooLong length => s!"globals length {length} does not fit in 18 bits"
  | .stringTooLong size => s!"string of {size} bytes does not fit in a page"
  | .stringOverlap id =>
    s!"string 0x{Text.address id} overlaps another string or a page boundary"
  | .badOperands mnemonic operands fault =>
    mnemonic ++ " " ++ String.intercalate ", " operands ++ ": " ++ fault.message
  | .atItem function index cause => s!"function '{function}', item {index}: " ++ cause.message

/-- What is wrong with a resource file. -/
inductive ResourceFault where
  | shortFile
  | badMagic (found : UInt32)
  | versionMismatch (found expected : UInt32)
  | tooLarge (size : Nat)
  | decompression
  | noKey (name : String)
deriving DecidableEq, Repr

/-- The wording of a resource fault. -/
def ResourceFault.message : ResourceFault → String
  | .shortFile => "file is shorter than the RSC7 header"
  | .badMagic found => s!"bad magic 0x{Text.hex 8 found.toNat}"
  | .versionMismatch found expected =>
    s!"unexpected resource version {found}, expected {expected}"
  | .tooLarge size => s!"system segment of {size} bytes is too large"
  | .decompression => "decompression failed"
  | .noKey name => s!"no key for {name}"

/-- A failure, given by its cause. -/
inductive Error where
  | invalidTarget (text : String)
  | unsupportedTarget (target : String)
  | invalidOpcode (byte : UInt8) (ip : Nat)
  | opcodeMismatch (expected : Opcode) (found : UInt8) (ip : Nat)
  | truncated (opcode : Opcode) (ip : Nat)
  | notImplemented (opcode : Opcode) (ip : Nat)
  | nativeIndexOutOfRange (index count : Nat)
  | undefinedLabel (function label : String)
  | undefinedFunction (name : String)
  | duplicateLabel (function label : String)
  | duplicateFunction (name : String)
  | emptyLabel
  | misplaced (call : MisplacedCall)
  | jumpOutOfRange (source target : Nat)
  | addressOutOfRange (address : Nat)
  | tooManySwitchCases (count : Nat)
  | instructionTooLong (size : Nat)
  | malformed (cause : Malformation)
  | badPointer (region : Region) (pointer : UInt64)
  | resource (cause : ResourceFault)
  /-- A reference operand lies outside of the bytes it belongs to. -/
  | referenceOutOfBounds
deriving DecidableEq, Repr

/-- The name of an error's kind in reports. -/
def Error.kind : Error → String
  | .invalidTarget .. => "InvalidTarget"
  | .unsupportedTarget .. => "UnsupportedTarget"
  | .invalidOpcode .. => "InvalidOpcode"
  | .opcodeMismatch .. => "OpcodeMismatch"
  | .truncated .. => "Truncated"
  | .notImplemented .. => "NotImplemented"
  | .nativeIndexOutOfRange .. => "NativeIndexOutOfRange"
  | .undefinedLabel .. => "UndefinedLabel"
  | .undefinedFunction .. => "UndefinedFunction"
  | .duplicateLabel .. => "DuplicateLabel"
  | .duplicateFunction .. => "DuplicateFunction"
  | .emptyLabel => "EmptyLabel"
  | .misplaced .. => "InvalidState"
  | .jumpOutOfRange .. => "JumpOutOfRange"
  | .addressOutOfRange .. => "AddressOutOfRange"
  | .tooManySwitchCases .. => "TooManySwitchCases"
  | .instructionTooLong .. => "InstructionTooLong"
  | .malformed .. => "Malformed"
  | .badPointer .. => "BadPointer"
  | .resource .. => "Resource"
  | .referenceOutOfBounds => "ReferenceOutOfBounds"

/-- The wording of an error. -/
def Error.message : Error → String
  | .invalidTarget text => s!"invalid build target '{text}', expected '<game>-<platform>'"
  | .unsupportedTarget target => s!"unsupported build target '{target}'"
  | .invalidOpcode byte ip =>
    s!"invalid opcode: 0x{Text.hex 2 byte.toNat} at ip=0x{Text.address ip}"
  | .opcodeMismatch expected found ip =>
    s!"opcode mismatch at ip=0x{Text.address ip}: expected {expected.mnemonic}, " ++
      s!"found 0x{Text.hex 2 found.toNat}"
  | .truncated opcode ip => s!"truncated {opcode.mnemonic} instruction at ip=0x{Text.address ip}"
  | .notImplemented opcode ip =>
    s!"opcode {opcode.mnemonic} at ip=0x{Text.address ip} is not implemented"
  | .nativeIndexOutOfRange index count =>
    s!"native index {index} out of range ({count} natives)"
  | .undefinedLabel function label => s!"undefined label '{label}' in function '{function}'"
  | .undefinedFunction name => s!"undefined function '{name}'"
  | .duplicateLabel function label => s!"duplicate label '{label}' in function '{function}'"
  | .duplicateFunction name => s!"duplicate function '{name}'"
  | .emptyLabel => "label name cannot be empty"
  | .misplaced call => s!"invalid builder state: {call.message}"
  | .jumpOutOfRange source target =>
    s!"relative jump from 0x{Text.address source} to 0x{Text.address target} " ++
      "does not fit in 16 bits"
  | .addressOutOfRange address => s!"address 0x{Text.hex 1 address} does not fit in 24 bits"
  | .tooManySwitchCases count => s!"too many switch cases: {count} (at most 255)"
  | .instructionTooLong size =>
    s!"instruction of {size} bytes exceeds the maximum instruction length"
  | .malformed cause => s!"malformed container: {cause.message}"
  | .badPointer region pointer =>
    s!"pointer 0x{Text.hex 1 pointer.toNat} for {region.text} " ++
      "is outside of the system segment"
  | .resource cause => s!"resource: {cause.message}"
  | .referenceOutOfBounds => "reference operand outside of its instruction"

end ScriptBytecode
